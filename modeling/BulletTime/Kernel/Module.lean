import BulletTime.Kernel.TargetPid
import BulletTime.Lib.Stages

/-!
# Kernel — Module

The kernel module from `insmod` to `rmmod`, as often as it is loaded: the kobject, the two knobs in
it and the two probes, each put up or refused by the kernel, while knobs are written and probes hit
as soon as they stand.

* `sleepDilationInit` and `sleepDilationExit`: the calls they make.
* `sleepDilationInit_eq`: the branches of the first are one attempt at the parts in their order.
* `module_life`: along every run, what stands in each phase, and what the knobs are.

`[about the source]`: `sysfs_create_group` returns nothing positive; `register_kprobe` is taken for
done on anything that is not negative.
-/

namespace BulletTime.Kernel.Module
open Stages Transition

/-- What `sleep_dilation_init` registers. -/
inductive Part where
  | kobject
  | group
  | schedTimeout
  | hrtimerNanosleep
  deriving DecidableEq

/-- What the kernel answers. -/
structure Answers where
  kobject : Bool
  group : Int
  schedTimeout : Int
  hrtimerNanosleep : Int
  group_le : group ≤ 0

def enomem : Int := -12

/-- `sleep_dilation_init`: what it returns, and the calls it makes. -/
def sleepDilationInit (r : Answers) : Int × List (Move Part) :=
  if r.kobject = false then (enomem, [.refused .kobject])
  else if r.group ≠ 0 then (r.group, [.up .kobject, .refused .group, .down .kobject])
  else if r.schedTimeout < 0 then
    (r.schedTimeout,
      [.up .kobject, .up .group, .refused .schedTimeout, .down .group, .down .kobject])
  else if r.hrtimerNanosleep < 0 then
    (r.hrtimerNanosleep,
      [.up .kobject, .up .group, .up .schedTimeout, .refused .hrtimerNanosleep,
        .down .schedTimeout, .down .group, .down .kobject])
  else (0, [.up .kobject, .up .group, .up .schedTimeout, .up .hrtimerNanosleep])

/-- `sleep_dilation_exit`. -/
def sleepDilationExit : List (Move Part) :=
  [.down .hrtimerNanosleep, .down .schedTimeout, .down .group, .down .kobject]

/-! ### The machine -/

inductive Phase where
  | absent
  | loading (ret : Int)
  | loaded
  | unloading
  deriving DecidableEq

structure State where
  /-- What is registered, the last first. -/
  standing : List Part := []
  /-- The calls that are left of `sleep_dilation_init` or `sleep_dilation_exit`. -/
  todo : List (Move Part) := []
  phase : Phase := .absent
  params : Params := {}
  /-- The writes and hits since the module has been loaded. -/
  ops : List Op := []

inductive Event where
  | insmod (r : Answers)
  /-- The next call, or the return. -/
  | next
  | rmmod
  | op (o : Op)

/-- What must stand for a write or a hit. -/
def part : Op → Part
  | .storeFactor _ | .storeTarget _ => .group
  | .schedTimeout _ _ => .schedTimeout
  | .hrtimerNanosleep _ _ => .hrtimerNanosleep

def step (s : State) : Event → Option State
  -- A module that is loaded gets its data anew.
  | .insmod r =>
      if s.phase = .absent then
        some { s with
          todo := (sleepDilationInit r).2
          phase := .loading (sleepDilationInit r).1
          params := {}
          ops := [] }
      else none
  | .next =>
      match s.todo, s.phase with
      | m :: todo, _ => (move s.standing m).map fun t => { s with standing := t, todo := todo }
      | [], .loading ret => some { s with phase := if ret < 0 then .absent else .loaded }
      | [], .unloading => some { s with phase := .absent }
      | [], _ => none
  | .rmmod =>
      if s.phase = .loaded then some { s with todo := sleepDilationExit, phase := .unloading }
      else none
  | .op o =>
      if part o ∈ s.standing then
        (Kernel.step s.params o).map fun m => { s with params := m, ops := s.ops ++ [o] }
      else none

/-! ### The attempt -/

/-- The parts, in the order in which they are registered. -/
def parts : List Part := [.kobject, .group, .schedTimeout, .hrtimerNanosleep]

def Answers.ok (r : Answers) : Part → Bool
  | .kobject => r.kobject
  | .group => r.group = 0
  | .schedTimeout => ¬ r.schedTimeout < 0
  | .hrtimerNanosleep => ¬ r.hrtimerNanosleep < 0

/-- **The branches of `sleep_dilation_init`** are an attempt at the parts, and it returns a negative
number exactly where one is refused. -/
theorem sleepDilationInit_eq (r : Answers) :
    (sleepDilationInit r).2 = attempt r.ok [] parts ∧
      ((sleepDilationInit r).1 < 0 ↔ parts.all r.ok = false) := by
  obtain ⟨kobject, group, sched, hrtimer, hgroup⟩ := r
  unfold sleepDilationInit
  dsimp only
  split_ifs with hk hg hs hh
  · subst hk
    simp [parts, attempt, Answers.ok, enomem]
  · have hneg : group < 0 := by omega
    simp [parts, attempt, Answers.ok, hk, hg, hneg]
  · simp [parts, attempt, Answers.ok, hk, hg, hs]
  · simp [parts, attempt, Answers.ok, hk, hg, hs, hh]
  · simp [parts, attempt, Answers.ok, hk, hg, hs, hh]

/-! ### Its life -/

/-- What is left to do in each phase. -/
inductive Placed : Phase → List Part → List (Move Part) → Prop where
  | absent : Placed .absent [] []
  | loading {ret : Int} {last standing : List Part} {todo : List (Move Part)}
      (h : Going parts last standing todo)
      (hret : last = if ret < 0 then [] else parts.reverse) : Placed (.loading ret) standing todo
  | loaded : Placed .loaded parts.reverse []
  | unloading {standing : List Part} {todo : List (Move Part)} (h : Going parts [] standing todo) :
      Placed .unloading standing todo

/-- The invariant. -/
structure Life (s : State) : Prop where
  placed : Placed s.phase s.standing s.todo
  knobs : exec Kernel.step {} s.ops = some s.params

variable {s t : State}

theorem life_start : Life {} := ⟨.absent, rfl⟩

theorem Placed.insmod (r : Answers) :
    Placed (.loading (sleepDilationInit r).1) [] (sleepDilationInit r).2 := by
  obtain ⟨hcalls, hret⟩ := sleepDilationInit_eq r
  rw [hcalls]
  refine .loading (.up r.ok rfl) ?_
  by_cases hneg : (sleepDilationInit r).1 < 0
  · rw [if_pos hneg, hret.mp hneg]
    rfl
  · have hall : parts.all r.ok = true := by
      rw [hret, Bool.not_eq_false] at hneg
      exact hneg
    rw [if_neg hneg, hall]
    rfl

/-- The next call, or the return. -/
theorem Life.next (h : Life s) (hs : step s .next = some t) : Life t := by
  obtain ⟨standing, todo, phase, params, ops⟩ := s
  obtain ⟨hplaced, hknobs⟩ := h
  have hp : parts.Nodup := by decide
  cases todo with
  | cons m todo =>
      obtain ⟨u, hu, rfl⟩ := Option.map_eq_some_iff.mp hs
      refine ⟨?_, hknobs⟩
      cases hplaced with
      | loading hgoing hret =>
          obtain ⟨v, hv, hgoing⟩ := hgoing.step hp
          cases hu.symm.trans hv
          exact .loading hgoing hret
      | unloading hgoing =>
          obtain ⟨v, hv, hgoing⟩ := hgoing.step hp
          cases hu.symm.trans hv
          exact .unloading hgoing
  | nil =>
      cases hplaced with
      | absent | loaded => cases hs
      | @loading ret last _ _ hgoing hret =>
          cases hs
          refine ⟨?_, hknobs⟩
          rw [hgoing.standing_eq, hret]
          split_ifs
          · exact .absent
          · exact .loaded
      | unloading hgoing =>
          cases hs
          refine ⟨?_, hknobs⟩
          rw [hgoing.standing_eq]
          exact .absent

/-- **Every event** keeps the module in order. -/
theorem Life.step {e : Event} (h : Life s) (hs : step s e = some t) : Life t := by
  cases e with
  | next => exact h.next hs
  | insmod r =>
      obtain ⟨hphase, hs⟩ := Option.ite_none_right_eq_some.mp hs
      cases hs
      obtain ⟨standing, todo, phase, params, ops⟩ := s
      obtain ⟨hplaced, -⟩ := h
      subst hphase
      cases hplaced
      exact ⟨Placed.insmod r, rfl⟩
  | rmmod =>
      obtain ⟨hphase, hs⟩ := Option.ite_none_right_eq_some.mp hs
      cases hs
      obtain ⟨standing, todo, phase, params, ops⟩ := s
      obtain ⟨hplaced, hknobs⟩ := h
      subst hphase
      cases hplaced
      exact ⟨.unloading (.down (List.append_nil _)), hknobs⟩
  | op o =>
      obtain ⟨-, hs⟩ := Option.ite_none_right_eq_some.mp hs
      obtain ⟨m, hm, rfl⟩ := Option.map_eq_some_iff.mp hs
      exact ⟨h.placed, exec_snoc.mpr ⟨s.params, h.knobs, hm⟩⟩

/-- What a maintainer relies on: nothing of a module stands that is not there, all of one that is
loaded does; in between it is put up in order and taken down from the top, by calls that find what
they expect; and each knob has what was last written to it since the module was loaded. -/
structure InOrder (s : State) : Prop where
  absent : s.phase = .absent → s.standing = []
  loaded : s.phase = .loaded → s.standing = parts.reverse
  ordered : s.standing <:+ parts.reverse
  expected : ∀ m todo, s.todo = m :: todo → (move s.standing m).isSome
  factor : s.params.dilationFactor = ((s.ops.filterMap Op.factor).getLast?).getD 1000
  target : s.params.targetPid = ((s.ops.filterMap Op.target).getLast?).getD 0

theorem Life.inOrder (h : Life s) : InOrder s := by
  obtain ⟨standing, todo, phase, params, ops⟩ := s
  obtain ⟨hplaced, hknobs⟩ := h
  have hp : parts.Nodup := by decide
  have hexpected : ∀ {last m todo}, Going parts last standing (m :: todo) →
      (move standing m).isSome := by
    intro last m todo hgoing
    obtain ⟨u, hu, -⟩ := hgoing.step hp
    exact Option.isSome_of_mem hu
  obtain ⟨hfactor, htarget⟩ := exec_knobs hknobs
  cases hplaced with
  | absent => exact ⟨fun _ => rfl, nofun, List.nil_suffix, nofun, hfactor, htarget⟩
  | loaded => exact ⟨nofun, fun _ => rfl, List.suffix_rfl, nofun, hfactor, htarget⟩
  | loading hgoing _ =>
      refine ⟨nofun, nofun, hgoing.suffix, ?_, hfactor, htarget⟩
      rintro m todo rfl
      exact hexpected hgoing
  | unloading hgoing =>
      refine ⟨nofun, nofun, hgoing.suffix, ?_, hfactor, htarget⟩
      rintro m todo rfl
      exact hexpected hgoing

/-- **The life of the module**, whatever the kernel refuses and whenever knobs are written and
probes hit. -/
theorem module_life (es : List Event) : EveryState step {} es InOrder :=
  everyStep_true.everyState life_start (fun _ _ _ h _ hs => h.step hs) fun _ h => h.inOrder

end BulletTime.Kernel.Module
