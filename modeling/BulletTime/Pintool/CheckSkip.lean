import Mathlib.Logic.Function.Basic
import BulletTime.Lib.Transition

/-!
# Pintool — CheckSkip

`CheckSkip`, which the application threads call with every full buffer: the first call starts the
trace, and once `profileLimit` accesses have been counted one call spawns `EndTrace`.  Both go
through a try-lock of `trace_mutex`, given back after the start and kept after the end.

* `step`: the calls of any number of threads; `Fires` is its inversion.
* `Inv`: one thread at most is between a try-lock and its unlock, and the counter never exceeds
  what the calls have counted.
* `start_and_end_once_iff`: the start block runs once, and `EndTrace` is spawned once and only at
  the limit, exactly in the runs where `trace_started` is still false wherever the block is run.

`[about the source]`: the test of `trace_started` stands before the try-lock, and is not repeated
behind it.
-/

namespace BulletTime.Pintool.CheckSkip
open Transition

/-- `KnobProfile`, in millions of accesses. -/
abbrev KnobProfile := Int32

/-- `profileLimit`, as `main` sets it. -/
def profileLimit (knob : KnobProfile) : UInt64 :=
  if 0 < knob then knob.toInt64.toUInt64 * 1000000 else 0

/-- Where a thread is in `CheckSkip(n)`. -/
inductive Pc where
  | idle
  /-- At the test of `trace_started`. -/
  | testStart (n : UInt64)
  /-- At the try-lock before the start block. -/
  | lockStart (n : UInt64)
  /-- At the start block. -/
  | start (n : UInt64)
  /-- At the unlock behind it. -/
  | unlock (n : UInt64)
  /-- At the test of `profiledAccesses`. -/
  | testLimit (n : UInt64)
  /-- At the try-lock before the spawn. -/
  | lockEnd (n : UInt64)
  /-- At the spawn of `EndTrace`. -/
  | spawn (n : UInt64)
  /-- At the update of the counter. -/
  | count (n : UInt64)
  deriving DecidableEq

variable {ι : Type*} [DecidableEq ι]

/-- The globals and the threads, with what has been done: how often the start block was run and
`EndTrace` spawned, and the accesses of the calls that have updated the counter. -/
structure State (ι : Type*) where
  traceStarted : Bool := false
  traceMutex : Bool := false
  profiledAccesses : UInt64 := 0
  pc : ι → Pc := fun _ => .idle
  starts : ℕ := 0
  spawns : ℕ := 0
  counted : ℕ := 0

/-- A call, or the next step of a thread's call. -/
inductive Act (ι : Type*) where
  | call (t : ι) (numElements : UInt64)
  | run (t : ι)

namespace State

/-- Thread `t` goes on at `p`. -/
def goto (s : State ι) (t : ι) (p : Pc) : State ι := { s with pc := Function.update s.pc t p }

/-- Behind the start: the test of the limit, or the return where there is none. -/
def afterStart (knob : KnobProfile) (n : UInt64) : Pc := if 0 < knob then .testLimit n else .idle

/-- The next step of a thread inside `CheckSkip`. -/
def run (knob : KnobProfile) (s : State ι) (t : ι) : Option (State ι) :=
  match s.pc t with
  | .idle => none
  | .testStart n =>
      some (s.goto t (if s.traceStarted then afterStart knob n else .lockStart n))
  | .lockStart n =>
      some (if s.traceMutex then s.goto t (afterStart knob n)
        else { s with pc := Function.update s.pc t (.start n), traceMutex := true })
  | .start n =>
      some { s with
        pc := Function.update s.pc t (.unlock n)
        traceStarted := true
        starts := s.starts + 1 }
  | .unlock n =>
      some { s with pc := Function.update s.pc t (afterStart knob n), traceMutex := false }
  | .testLimit n =>
      some (s.goto t (if profileLimit knob ≤ s.profiledAccesses then .lockEnd n else .count n))
  | .lockEnd n =>
      some (if s.traceMutex then s.goto t (.count n)
        else { s with pc := Function.update s.pc t (.spawn n), traceMutex := true })
  | .spawn n => some { s with pc := Function.update s.pc t (.count n), spawns := s.spawns + 1 }
  | .count n =>
      some { s with
        pc := Function.update s.pc t .idle
        profiledAccesses := s.profiledAccesses + n
        counted := s.counted + n.toNat }

end State

/-- One step. -/
def step (knob : KnobProfile) (s : State ι) : Act ι → Option (State ι)
  | .call t n => if s.pc t = .idle then some (s.goto t (.testStart n)) else none
  | .run t => s.run knob t

/-! ### Inversion of a step -/

/-- The steps of a thread that leave the globals as they are. -/
inductive Moves (knob : KnobProfile) (s : State ι) : Pc → Pc → Prop where
  | started (n : UInt64) : Moves knob s (.testStart n) (State.afterStart knob n)
  | notStarted (n : UInt64) : Moves knob s (.testStart n) (.lockStart n)
  | startTaken (n : UInt64) : Moves knob s (.lockStart n) (State.afterStart knob n)
  | reached (n : UInt64) (h : profileLimit knob ≤ s.profiledAccesses) :
      Moves knob s (.testLimit n) (.lockEnd n)
  | notReached (n : UInt64) : Moves knob s (.testLimit n) (.count n)
  | endTaken (n : UInt64) : Moves knob s (.lockEnd n) (.count n)

/-- What a step does. -/
inductive Fires (knob : KnobProfile) (s : State ι) : Act ι → State ι → Prop where
  | call (t : ι) (n : UInt64) (h : s.pc t = .idle) :
      Fires knob s (.call t n) (s.goto t (.testStart n))
  | move (t : ι) (p p' : Pc) (h : s.pc t = p) (hm : Moves knob s p p') :
      Fires knob s (.run t) (s.goto t p')
  | lockStart (t : ι) (n : UInt64) (h : s.pc t = .lockStart n) (hf : s.traceMutex = false) :
      Fires knob s (.run t) { s with
        pc := Function.update s.pc t (.start n)
        traceMutex := true }
  | start (t : ι) (n : UInt64) (h : s.pc t = .start n) :
      Fires knob s (.run t) { s with
        pc := Function.update s.pc t (.unlock n)
        traceStarted := true
        starts := s.starts + 1 }
  | unlock (t : ι) (n : UInt64) (h : s.pc t = .unlock n) :
      Fires knob s (.run t) { s with
        pc := Function.update s.pc t (State.afterStart knob n)
        traceMutex := false }
  | lockEnd (t : ι) (n : UInt64) (h : s.pc t = .lockEnd n) (hf : s.traceMutex = false) :
      Fires knob s (.run t) { s with
        pc := Function.update s.pc t (.spawn n)
        traceMutex := true }
  | spawn (t : ι) (n : UInt64) (h : s.pc t = .spawn n) :
      Fires knob s (.run t) { s with
        pc := Function.update s.pc t (.count n)
        spawns := s.spawns + 1 }
  | count (t : ι) (n : UInt64) (h : s.pc t = .count n) :
      Fires knob s (.run t) { s with
        pc := Function.update s.pc t .idle
        profiledAccesses := s.profiledAccesses + n
        counted := s.counted + n.toNat }

variable {knob : KnobProfile} {s u : State ι} {a : Act ι}

theorem fires_of_run {t : ι} (h : s.run knob t = some u) : Fires knob s (.run t) u := by
  unfold State.run at h
  cases hp : s.pc t with
  | idle => simp [hp] at h
  | testStart n =>
      simp only [hp, Option.some.injEq] at h
      subst h
      split
      · exact .move t _ _ hp (.started n)
      · exact .move t _ _ hp (.notStarted n)
  | lockStart n =>
      simp only [hp, Option.some.injEq] at h
      subst h
      split
      · exact .move t _ _ hp (.startTaken n)
      · rename_i hf
        exact .lockStart t n hp (Bool.eq_false_iff.mpr hf)
  | start n =>
      simp only [hp, Option.some.injEq] at h
      exact h ▸ .start t n hp
  | unlock n =>
      simp only [hp, Option.some.injEq] at h
      exact h ▸ .unlock t n hp
  | testLimit n =>
      simp only [hp, Option.some.injEq] at h
      subst h
      split
      · rename_i hle
        exact .move t _ _ hp (.reached n hle)
      · exact .move t _ _ hp (.notReached n)
  | lockEnd n =>
      simp only [hp, Option.some.injEq] at h
      subst h
      split
      · exact .move t _ _ hp (.endTaken n)
      · rename_i hf
        exact .lockEnd t n hp (Bool.eq_false_iff.mpr hf)
  | spawn n =>
      simp only [hp, Option.some.injEq] at h
      exact h ▸ .spawn t n hp
  | count n =>
      simp only [hp, Option.some.injEq] at h
      exact h ▸ .count t n hp

/-- **What a step can do.** -/
theorem fires_of_step (h : step knob s a = some u) : Fires knob s a u := by
  cases a with
  | call t n =>
      simp only [step] at h
      split at h
      · rename_i hp
        cases h
        exact .call t n hp
      · cases h
  | run t => exact fires_of_run h

/-! ### The invariant -/

namespace Pc

/-- Between a try-lock that succeeded and its unlock, or the spawn. -/
def inside : Pc → Bool
  | start _ | unlock _ | spawn _ => true
  | _ => false

/-- Behind the test of the knob. -/
def profiling : Pc → Bool
  | testLimit _ | lockEnd _ | spawn _ | count _ => true
  | _ => false

/-- Behind the test of the limit, which was reached. -/
def atLimit : Pc → Bool
  | lockEnd _ | spawn _ => true
  | _ => false

end Pc

/-- The accesses counted have reached the limit. -/
def Reached (knob : KnobProfile) (counted : ℕ) : Prop := (profileLimit knob).toNat ≤ counted

/-- What holds of the place of each thread. -/
structure Place (knob : KnobProfile) (mutex : Bool) (counted : ℕ) (p : Pc) : Prop where
  held : p.inside = true → mutex = true
  profiling : p.profiling = true → 0 < knob
  reached : p.atLimit = true → Reached knob counted

/-- The invariant. -/
structure Inv (knob : KnobProfile) (s : State ι) : Prop where
  place : ∀ t, Place knob s.traceMutex s.counted (s.pc t)
  excl : ∀ t t', (s.pc t).inside = true → (s.pc t').inside = true → t = t'
  /-- The mutex is kept after the spawn. -/
  kept : 0 < s.spawns → s.traceMutex = true ∧ ∀ t, (s.pc t).inside = false
  spawns_le : s.spawns ≤ 1
  spawned : 0 < s.spawns → 0 < knob ∧ Reached knob s.counted
  counter : s.profiledAccesses.toNat ≤ s.counted
  started : s.traceStarted = true → 0 < s.starts

omit [DecidableEq ι] in
theorem inv_init : Inv knob ({} : State ι) where
  place _ := ⟨Bool.noConfusion, Bool.noConfusion, Bool.noConfusion⟩
  excl _ _ h := Bool.noConfusion h
  kept h := absurd h (Nat.lt_irrefl 0)
  spawns_le := Nat.zero_le 1
  spawned h := absurd h (Nat.lt_irrefl 0)
  counter := Nat.le_refl 0
  started h := Bool.noConfusion h

omit [DecidableEq ι] in
/-- No thread is inside while the mutex is free. -/
theorem Inv.inside_eq_false (hi : Inv knob s) (hf : s.traceMutex = false) (t : ι) :
    (s.pc t).inside = false := by
  refine Bool.eq_false_iff.mpr fun h => ?_
  rw [(hi.place t).held h] at hf
  cases hf

/-- Exclusion, when the thread that goes on was inside before or no thread was. -/
theorem excl_update {f : ι → Pc} {t : ι} {p : Pc}
    (h : ∀ t₁ t₂, (f t₁).inside = true → (f t₂).inside = true → t₁ = t₂)
    (hp : p.inside = true → (f t).inside = true ∨ ∀ t', (f t').inside = false) :
    ∀ t₁ t₂, (Function.update f t p t₁).inside = true → (Function.update f t p t₂).inside = true →
      t₁ = t₂ := by
  have hout : ∀ t', t' ≠ t → p.inside = true → (f t').inside = false := by
    intro t' hne hin
    -- `t` was inside, or no thread was
    rcases hp hin with ht | hno
    · exact Bool.eq_false_iff.mpr fun h' => hne (h t' t h' ht)
    · exact hno t'
  intro t₁ t₂ h₁ h₂
  by_cases e₁ : t₁ = t <;> by_cases e₂ : t₂ = t
  · rw [e₁, e₂]
  · subst e₁
    rw [Function.update_self] at h₁
    rw [Function.update_of_ne e₂, hout t₂ e₂ h₁] at h₂
    cases h₂
  · subst e₂
    rw [Function.update_self] at h₂
    rw [Function.update_of_ne e₁, hout t₁ e₁ h₂] at h₁
    cases h₁
  · rw [Function.update_of_ne e₁] at h₁
    rw [Function.update_of_ne e₂] at h₂
    exact h t₁ t₂ h₁ h₂

theorem inside_update {f : ι → Pc} {t : ι} {p : Pc} (h : ∀ t', (f t').inside = false)
    (hp : p.inside = false) (t' : ι) : (Function.update f t p t').inside = false :=
  (Function.forall_update_iff f fun _ p => p.inside = false).mpr ⟨hp, fun t' _ => h t'⟩ t'

theorem place_afterStart (mutex : Bool) (counted : ℕ) (n : UInt64) :
    Place knob mutex counted (State.afterStart knob n) := by
  unfold State.afterStart
  split
  · rename_i hk
    exact ⟨Bool.noConfusion, fun _ => hk, Bool.noConfusion⟩
  · exact ⟨Bool.noConfusion, Bool.noConfusion, Bool.noConfusion⟩

theorem inside_afterStart (n : UInt64) : (State.afterStart knob n).inside = false := by
  unfold State.afterStart
  split <;> rfl

omit [DecidableEq ι] in
/-- The place a thread moves to, and that it is not inside. -/
theorem place_of_moves {p p' : Pc} (hi : Inv knob s) (hp : Place knob s.traceMutex s.counted p)
    (hm : Moves knob s p p') : Place knob s.traceMutex s.counted p' ∧ p'.inside = false := by
  cases hm with
  | started n | startTaken n => exact ⟨place_afterStart _ _ n, inside_afterStart n⟩
  | notStarted n => exact ⟨⟨Bool.noConfusion, Bool.noConfusion, Bool.noConfusion⟩, rfl⟩
  | reached n h =>
      have hreached : Reached knob s.counted := Nat.le_trans h hi.counter
      exact ⟨⟨Bool.noConfusion, fun _ => hp.profiling rfl, fun _ => hreached⟩, rfl⟩
  | notReached n | endTaken n =>
      exact ⟨⟨Bool.noConfusion, fun _ => hp.profiling rfl, Bool.noConfusion⟩, rfl⟩

theorem place_update {f : ι → Pc} {t : ι} {p : Pc} {mutex : Bool} {counted : ℕ}
    (h : ∀ t', t' ≠ t → Place knob mutex counted (f t')) (hp : Place knob mutex counted p)
    (t' : ι) :
    Place knob mutex counted (Function.update f t p t') :=
  (Function.forall_update_iff f fun _ p => Place knob mutex counted p).mpr ⟨hp, h⟩ t'

theorem Place.mono {p : Pc} {mutex mutex' : Bool} {counted counted' : ℕ}
    (h : Place knob mutex counted p) (hm : p.inside = true → mutex' = true)
    (hc : counted ≤ counted') : Place knob mutex' counted' p :=
  ⟨hm, h.profiling, fun hl => Nat.le_trans (h.reached hl) hc⟩

omit [DecidableEq ι] in
/-- A thread inside is in no state after the spawn. -/
theorem Inv.not_spawned (hi : Inv knob s) {t : ι} (h : (s.pc t).inside = true) :
    ¬ 0 < s.spawns := by
  intro hpos
  rw [(hi.kept hpos).2 t] at h
  cases h

/-- A thread that goes on outside the mutex. -/
theorem Inv.goto (hi : Inv knob s) (t : ι) {p : Pc} (hp : Place knob s.traceMutex s.counted p)
    (hout : p.inside = false) : Inv knob (s.goto t p) := by
  refine { hi with place := ?_, excl := ?_, kept := ?_ }
  · exact place_update (fun t' _ => hi.place t') hp
  · exact excl_update hi.excl fun hin => Bool.noConfusion (hout.symm.trans hin)
  · exact fun hpos => ⟨(hi.kept hpos).1, inside_update (hi.kept hpos).2 hout⟩

/-- A thread that takes the free mutex: none is inside, and none has spawned. -/
theorem Inv.lock (hi : Inv knob s) (hfree : s.traceMutex = false) (t : ι) {p : Pc}
    (hp : Place knob true s.counted p) :
    Inv knob { s with pc := Function.update s.pc t p, traceMutex := true } := by
  refine { hi with place := ?_, excl := ?_, kept := ?_ }
  · exact place_update (fun t' _ => (hi.place t').mono (fun _ => rfl) (Nat.le_refl _)) hp
  · exact excl_update hi.excl fun _ => .inr (hi.inside_eq_false hfree)
  · intro hpos
    rw [(hi.kept hpos).1] at hfree
    cases hfree

/-- **One step keeps the invariant.** -/
theorem inv_step (hi : Inv knob s) (h : step knob s a = some u) : Inv knob u := by
  have hf := fires_of_step h
  cases hf with
  | call t n hp => exact hi.goto t ⟨Bool.noConfusion, Bool.noConfusion, Bool.noConfusion⟩ rfl
  | move t p p' hp hm =>
      obtain ⟨hplace, hout⟩ := place_of_moves hi (hp ▸ hi.place t) hm
      exact hi.goto t hplace hout
  | lockStart t n hp hfree =>
      exact hi.lock hfree t ⟨fun _ => rfl, Bool.noConfusion, Bool.noConfusion⟩
  | start t n hp =>
      have hin : (s.pc t).inside = true := by rw [hp]; rfl
      refine { hi with place := ?_, excl := ?_, kept := ?_, started := ?_ }
      · exact place_update (fun t' _ => hi.place t')
          ⟨fun _ => (hi.place t).held hin, Bool.noConfusion, Bool.noConfusion⟩
      · exact excl_update hi.excl fun _ => .inl hin
      · exact fun hpos => absurd hpos (hi.not_spawned hin)
      · exact fun _ => Nat.succ_pos _
  | unlock t n hp =>
      have hin : (s.pc t).inside = true := by rw [hp]; rfl
      have hothers : ∀ t', t' ≠ t → (s.pc t').inside = true → False := fun t' hne h' =>
        hne (hi.excl t' t h' hin)
      refine { hi with place := ?_, excl := ?_, kept := ?_ }
      · exact place_update (fun t' hne => (hi.place t').mono (fun h' => (hothers t' hne h').elim)
          (Nat.le_refl _)) (place_afterStart _ _ n)
      · exact excl_update hi.excl fun _ => .inl hin
      · exact fun hpos => absurd hpos (hi.not_spawned hin)
  | lockEnd t n hp hfree =>
      have hplace := hi.place t
      rw [hp] at hplace
      exact hi.lock hfree t ⟨fun _ => rfl, fun _ => hplace.profiling rfl,
        fun _ => hplace.reached rfl⟩
  | spawn t n hp =>
      have hin : (s.pc t).inside = true := by rw [hp]; rfl
      have hplace := hi.place t
      rw [hp] at hplace
      -- this is the first spawn, and the mutex is not given back
      have hzero : s.spawns = 0 := Nat.eq_zero_of_not_pos (hi.not_spawned hin)
      refine { hi with place := ?_, excl := ?_, kept := ?_, spawns_le := ?_, spawned := ?_ }
      · exact place_update (fun t' _ => hi.place t')
          ⟨Bool.noConfusion, fun _ => hplace.profiling rfl, Bool.noConfusion⟩
      · exact excl_update hi.excl Bool.noConfusion
      · refine fun _ => ⟨hplace.held rfl, ?_⟩
        refine (Function.forall_update_iff s.pc fun _ p => p.inside = false).mpr
          ⟨rfl, fun t' hne => ?_⟩
        exact Bool.eq_false_iff.mpr fun h' => hne (hi.excl t' t h' hin)
      · exact Nat.succ_le_succ (Nat.le_of_eq hzero)
      · exact fun _ => ⟨hplace.profiling rfl, hplace.reached rfl⟩
  | count t n hp =>
      have hle : s.counted ≤ s.counted + n.toNat := Nat.le_add_right _ _
      refine { hi with place := ?_, excl := ?_, kept := ?_, spawned := ?_, counter := ?_ }
      · exact place_update (fun t' _ => (hi.place t').mono (hi.place t').held hle)
          ⟨Bool.noConfusion, Bool.noConfusion, Bool.noConfusion⟩
      · exact excl_update hi.excl Bool.noConfusion
      · exact fun hpos => ⟨(hi.kept hpos).1, inside_update (hi.kept hpos).2 rfl⟩
      · exact fun hpos => ⟨(hi.spawned hpos).1, Nat.le_trans (hi.spawned hpos).2 hle⟩
      · calc (s.profiledAccesses + n).toNat = (s.profiledAccesses.toNat + n.toNat) % 2 ^ 64 :=
              UInt64.toNat_add ..
          _ ≤ s.profiledAccesses.toNat + n.toNat := Nat.mod_le ..
          _ ≤ s.counted + n.toNat := Nat.add_le_add_right hi.counter _

/-! ### Once -/

/-- A positive knob is a positive limit. -/
theorem profileLimit_pos (h : 0 < knob) : 0 < profileLimit knob := by
  have h0 : 0 < knob.toInt := Int32.lt_iff_toInt_lt.mp h
  have hlt := knob.toInt_lt
  have hle : (0 : Int64) ≤ knob.toInt64 := by
    rw [Int64.le_iff_toInt_le, Int32.toInt_toInt64]
    exact Int.le_of_lt h0
  have hnat : knob.toInt64.toUInt64.toNat = knob.toInt.toNat := by
    rw [Int64.toNat_toUInt64_of_le hle, Int32.toNatClampNeg_toInt64]
    rfl
  have hpos : 0 < knob.toInt.toNat := Int.lt_toNat.mpr h0
  have hbound : knob.toInt.toNat < 2 ^ 31 := (Int.toNat_lt (Int.le_of_lt h0)).mpr hlt
  have hsmall : knob.toInt.toNat * 1000000 < 2 ^ 64 := by
    calc knob.toInt.toNat * 1000000 < 2 ^ 31 * 1000000 :=
          Nat.mul_lt_mul_of_pos_right hbound (by decide)
      _ ≤ 2 ^ 64 := by decide
  rw [profileLimit, if_pos h, UInt64.lt_iff_toNat_lt, UInt64.toNat_mul, hnat]
  have hmod : knob.toInt.toNat * (1000000 : UInt64).toNat % 2 ^ 64 = knob.toInt.toNat * 1000000 :=
    Nat.mod_eq_of_lt hsmall
  rw [hmod]
  exact Nat.mul_pos hpos (by decide)

/-- The start block has been run once at most, and `EndTrace` spawned once at most and only when
the calls that had updated the counter had reached a positive limit. -/
def State.Once (knob : KnobProfile) (s : State ι) : Prop :=
  s.starts ≤ 1 ∧ s.spawns ≤ 1 ∧ (0 < s.spawns → Reached knob s.counted ∧ 0 < profileLimit knob)

/-- A thread at the start block finds `trace_started` still false. -/
def Unstarted (s : State ι) : Act ι → Prop
  | .call _ _ => True
  | .run t => (∃ n, s.pc t = .start n) → s.traceStarted = false

/-- The start block has been run once if the trace is started, and not at all before. -/
theorem starts_step (hs : s.starts = if s.traceStarted then 1 else 0) (hc : Unstarted s a)
    (h : step knob s a = some u) : u.starts = if u.traceStarted then 1 else 0 := by
  have hf := fires_of_step h
  cases hf with
  | start t n hp =>
      rw [hc ⟨n, hp⟩] at hs
      exact congrArg (· + 1) hs
  | call | move | lockStart | unlock | lockEnd | spawn | count => exact hs

omit [DecidableEq ι] in
theorem once_of_inv (hi : Inv knob s) (hs : s.starts = if s.traceStarted then 1 else 0) :
    s.Once knob := by
  refine ⟨?_, hi.spawns_le, fun hpos => ?_⟩
  · rw [hs]
    split <;> omega
  · obtain ⟨hk, hr⟩ := hi.spawned hpos
    exact ⟨hr, profileLimit_pos hk⟩

theorem unstarted_of_once (hi : Inv knob s) (h : step knob s a = some u) (ho : u.Once knob) :
    Unstarted s a := by
  cases a with
  | call t n => trivial
  | run t =>
      rintro ⟨n, hp⟩
      have hf := fires_of_step h
      refine Bool.eq_false_iff.mpr fun hstarted => ?_
      have hpos := hi.started hstarted
      cases hf with
      | start t' n' =>
          have hle : s.starts + 1 ≤ 1 := ho.1
          omega
      | move t' p p' hp' hm =>
          rw [hp] at hp'
          subst hp'
          cases hm
      | lockStart t' n' hp' | unlock t' n' hp' | lockEnd t' n' hp' | spawn t' n' hp'
      | count t' n' hp' =>
          rw [hp] at hp'
          cases hp'

/-- **Trace start and trace end happen once** in every state of a run, for any number of threads and
any order of their steps, exactly when no thread runs the start block after `trace_started` has
become true. -/
theorem start_and_end_once_iff {as : List (Act ι)} (h : exec (step knob) {} as = some s) :
    EveryState (step knob) {} as (State.Once knob) ↔
      EveryStep (step knob) ({} : State ι) as Unstarted := by
  constructor
  · intro hP
    exact hP.everyStep inv_init (fun _ _ _ => inv_step) (fun _ _ _ hi ht ho =>
      unstarted_of_once hi ht ho) h
  · intro hc
    exact hc.everyState (I := fun s => Inv knob s ∧ s.starts = if s.traceStarted then 1 else 0)
      ⟨inv_init, rfl⟩ (fun _ _ _ hi hc ht => ⟨inv_step hi.1 ht, starts_step hi.2 hc ht⟩)
      fun _ hi => once_of_inv hi.1 hi.2

/-- One call, with a limit of a million accesses. -/
def oneCall : List (Act (Fin 2)) := [.call 0 5, .run 0, .run 0, .run 0, .run 0, .run 0, .run 0]

theorem start_and_end_once_oneCall :
    EveryState (step 1) {} oneCall (State.Once 1) ↔
      EveryStep (step 1) ({} : State (Fin 2)) oneCall Unstarted :=
  start_and_end_once_iff (s := (exec (step 1) {} oneCall).get (by decide)) (Option.some_get _).symm

/-- Two calls that both find the trace not started. -/
def twoStarts : List (Act (Fin 2)) :=
  [.call 0 5, .call 1 5, .run 0, .run 1, .run 0, .run 0, .run 0, .run 1, .run 1]

/-- The second of two such calls wins the try-lock after the first has given the mutex back, and
sets the start time again. -/
theorem start_block_twice :
    ∃ s ∈ exec (step (-1)) ({} : State (Fin 2)) twoStarts, s.starts = 2 ∧ ¬ s.Once (-1) := by
  have h : ∃ s ∈ exec (step (-1)) ({} : State (Fin 2)) twoStarts, s.starts = 2 := by decide
  obtain ⟨s, hs, htwo⟩ := h
  refine ⟨s, hs, htwo, fun ho => ?_⟩
  have hle := ho.1
  omega

end BulletTime.Pintool.CheckSkip
