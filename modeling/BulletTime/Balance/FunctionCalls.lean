import BulletTime.Pintool.AppThread
import BulletTime.Balance.Delay

/-!
# Balance — Function calls

The call counts, from the callbacks of the pintool to the tables of the consumer.  The pintool
counts calls only if it is given function names; the consumer takes a thread without calls for one
that is not to be balanced, whether calls are counted or not.

* `tracedStep`: the counters of the application's threads, the message of a hand-off and the
  consumer's step on it, together.
* `tracedStep_consumer`: what an event is to the consumer.
* `Uncounted`: without function names every count sent, and every total, is zero.
* `dilation_works_iff`: without function names dilation works only as long as nothing is to be
  balanced.
-/

namespace BulletTime.Balance
open Transition RunningMax Pintool

/-- The application's threads and the consumer. -/
structure Traced where
  app : ℕ → AppThread := fun _ => {}
  consumer : State := {}

/-- What happens in the application and in the consumer.  The data of a hand-off's sample are those
of its message. -/
inductive TracedEvent where
  | spawn
  | recordIns (i : ℕ) (ins memIns : UInt64)
  | countCall (i : ℕ)
  | handOff (i numBytes : ℕ) (genTime copyTime pinWaitUs : UInt64) (x : Sample)
  | period

/-- What `Listen` has of a hand-off. -/
def received (trackFcalls : Bool) (t : AppThread) (numBytes : ℕ)
    (genTime copyTime pinWaitUs : UInt64) (x : Sample) : Sample :=
  { x with data := t.sendData trackFcalls numBytes genTime copyTime pinWaitUs }

/-- One event, with `track_fcalls` as set by the knob. -/
def tracedStep (cfg : Config) (trackFcalls : Bool) (s : Traced) : TracedEvent → Option Traced
  | .spawn =>
      (step cfg s.consumer .spawn).map fun c =>
        { app := Function.update s.app s.consumer.shared.nPeak {}, consumer := c }
  | .recordIns i ins memIns =>
      some { s with app := Function.update s.app i ((s.app i).incrementInsExecuted ins memIns) }
  | .countCall i =>
      if trackFcalls then
        some { s with app := Function.update s.app i (s.app i).countFunctionCalls }
      else none
  | .handOff i numBytes genTime copyTime pinWaitUs x =>
      (step cfg s.consumer (.handOff i
        (received trackFcalls (s.app i) numBytes genTime copyTime pinWaitUs x))).map fun c =>
          { app := Function.update s.app i (s.app i).reported, consumer := c }
  | .period => (step cfg s.consumer .period).map fun c => { s with consumer := c }

/-- **What an event is to the consumer**: nothing, or a step, which on a hand-off is that of its
message. -/
theorem tracedStep_consumer {cfg : Config} {trackFcalls : Bool} {s t : Traced} {e : TracedEvent}
    (hs : tracedStep cfg trackFcalls s e = some t) :
    t.consumer = s.consumer ∨ ∃ a, step cfg s.consumer a = some t.consumer ∧
      ∀ i x, a = .handOff i x → ∃ numBytes genTime copyTime pinWaitUs y,
        e = .handOff i numBytes genTime copyTime pinWaitUs y ∧
          x = received trackFcalls (s.app i) numBytes genTime copyTime pinWaitUs y := by
  cases e with
  | spawn =>
      cases hs
      refine Or.inr ⟨.spawn, rfl, fun i x h => ?_⟩
      cases h
  | recordIns i ins memIns =>
      cases hs
      exact Or.inl rfl
  | countCall i =>
      unfold tracedStep at hs
      split_ifs at hs
      cases hs
      exact Or.inl rfl
  | handOff i numBytes genTime copyTime pinWaitUs y =>
      obtain ⟨c, hc, rfl⟩ := Option.map_eq_some_iff.mp hs
      refine Or.inr ⟨_, hc, fun j x h => ?_⟩
      cases h
      exact ⟨_, _, _, _, _, rfl, rfl⟩
  | period =>
      obtain ⟨c, hc, rfl⟩ := Option.map_eq_some_iff.mp hs
      refine Or.inr ⟨.period, hc, fun i x h => ?_⟩
      cases h

/-! ### What dilation promises -/

/-- The largest ratio over the threads with work in the window. -/
def maxWindowedRatio (s : Shared) : ℚ :=
  runningMax 0 ((List.range s.nPeak).filterMap fun j =>
    if 0 < (s.peak j).nWork then some (ratioOf s j) else none)

/-- No thread is left out for its call count, and a balanced round injects a delay where the largest
ratio exceeds the thread's by more than a quarter. -/
def DilationWorks (cfg : Config) (trackFcalls : Bool) (s : Traced) : TracedEvent → Prop
  | .handOff i numBytes genTime copyTime pinWaitUs x =>
      let x := received trackFcalls (s.app i) numBytes genTime copyTime pinWaitUs x
      Balanced cfg s.consumer.shared → newFcalls i x s.consumer.shared ≠ 0 ∧
        ∀ t extra, handOff cfg i x s.consumer.shared = some (t, extra) →
          maxWindowedRatio t / ratioOf t i - 1 > 1 / 4 → extra.isSome
  | .period => ∀ i < s.consumer.shared.nPeak, (s.consumer.shared.peak i).idle = false →
      (s.consumer.shared.total i).totalFcalls ≠ 0
  | _ => True

/-- The step is not a round that is to be balanced. -/
def NotBalanced (cfg : Config) (s : Traced) : TracedEvent → Prop
  | .handOff .. => ¬ Balanced cfg s.consumer.shared
  | _ => True

/-! ### Without function names -/

/-- No calls are counted. -/
structure Uncounted (s : Traced) : Prop where
  app : ∀ i, (s.app i).fcallsExecuted = (s.app i).lastFcallsExecuted
  total : ∀ i, (s.consumer.shared.total i).totalFcalls = 0

section Untracked
variable {cfg : Config} {s t : Traced}

/-- The message of a thread without calls says so. -/
theorem fcallsExec_received {a : AppThread} (h : a.fcallsExecuted = a.lastFcallsExecuted)
    (trackFcalls : Bool) (numBytes : ℕ) (genTime copyTime pinWaitUs : UInt64) (x : Sample) :
    (received trackFcalls a numBytes genTime copyTime pinWaitUs x).data.fcallsExec = 0 := by
  have hsub : a.fcallsExecuted - a.lastFcallsExecuted = 0 := by rw [h, UInt64.sub_self]
  exact congrArg UInt64.toNat hsub

theorem newFcalls_eq_zero {i : ℕ} {x : Sample} {s : Shared} (hx : x.data.fcallsExec = 0)
    (hs : (s.total i).totalFcalls = 0) : newFcalls i x s = 0 := by
  rw [newFcalls, hx, hs]
  rfl

variable (cfg) in
/-- Each step of the consumer on a message without calls. -/
theorem uncounted_step {s t : State} {a : Action} (hs : step cfg s a = some t)
    (ha : ∀ i x, a = .handOff i x → x.data.fcallsExec = 0)
    (h : ∀ i, (s.shared.total i).totalFcalls = 0) (j : ℕ) :
    (t.shared.total j).totalFcalls = 0 := by
  cases a with
  | spawn =>
      cases hs
      dsimp only
      rw [Shared.total_initThreadData]
      split_ifs
      · rfl
      · exact h j
  | handOff i x =>
      obtain ⟨-, extra, he, -⟩ := step_handOff hs
      have hr := handOff_round cfg i x s.shared he
      by_cases hj : j = i
      · subst hj
        by_cases hb : Balanced cfg s.shared
        · obtain ⟨w, a, b, -, hf, -⟩ := hr.self hb
          rw [hf]
          exact newFcalls_eq_zero (ha j x rfl) (h j)
        · rw [(hr.unbalanced hb).fcalls]
          exact h j
      · rw [hr.fcalls_of_ne hj]
        exact h j
  | period =>
      cases step_period hs
      dsimp only
      rw [period_fcalls]
      exact h j

/-- A change to one thread that keeps its counted and its sent calls equal. -/
theorem uncounted_update {app : ℕ → AppThread} {i : ℕ} {a : AppThread}
    (h : ∀ j, (app j).fcallsExecuted = (app j).lastFcallsExecuted)
    (ha : a.fcallsExecuted = a.lastFcallsExecuted) (j : ℕ) :
    (Function.update app i a j).fcallsExecuted =
      (Function.update app i a j).lastFcallsExecuted := by
  by_cases hj : j = i
  · subst hj
    rw [Function.update_self]
    exact ha
  · rw [Function.update_of_ne hj]
    exact h j

/-- **Without function names** nothing is ever counted. -/
theorem Uncounted.step {e : TracedEvent} (h : Uncounted s)
    (hs : tracedStep cfg false s e = some t) : Uncounted t := by
  refine ⟨?_, ?_⟩
  · cases e with
    | spawn =>
        cases hs
        exact uncounted_update h.app rfl
    | recordIns i ins memIns =>
        cases hs
        exact uncounted_update h.app (h.app i)
    | countCall i => cases hs
    | handOff i numBytes genTime copyTime pinWaitUs x =>
        obtain ⟨c, -, rfl⟩ := Option.map_eq_some_iff.mp hs
        exact uncounted_update h.app rfl
    | period =>
        obtain ⟨c, -, rfl⟩ := Option.map_eq_some_iff.mp hs
        exact h.app
  · rcases tracedStep_consumer hs with hc | ⟨a, hc, hx⟩
    · rw [hc]
      exact h.total
    · refine uncounted_step cfg hc (fun i x ha => ?_) h.total
      obtain ⟨numBytes, genTime, copyTime, pinWaitUs, y, -, rfl⟩ := hx i x ha
      exact fcallsExec_received (h.app i) ..

theorem uncounted_init : Uncounted {} := ⟨fun _ => rfl, fun _ => rfl⟩

/-- A hand-off of an uncounted thread is left out. -/
theorem Uncounted.newFcalls (h : Uncounted s) (i numBytes : ℕ)
    (genTime copyTime pinWaitUs : UInt64) (x : Sample) :
    newFcalls i (received false (s.app i) numBytes genTime copyTime pinWaitUs x)
      s.consumer.shared = 0 :=
  newFcalls_eq_zero (fcallsExec_received (h.app i) ..) (h.total i)

/-! ### Idle threads -/

/-- Every thread is idle. -/
def AllIdle (s : Traced) : Prop :=
  ∀ i, (s.consumer.shared.peak i).nWork = (s.consumer.shared.peak i).lastWork

/-- Without a balanced round every thread stays idle. -/
theorem AllIdle.step {e : TracedEvent} {trackFcalls : Bool} (h : AllIdle s)
    (hC : NotBalanced cfg s e) (hs : tracedStep cfg trackFcalls s e = some t) : AllIdle t := by
  rcases tracedStep_consumer hs with hc | ⟨a, hc, hx⟩
  · rw [AllIdle, hc]
    exact h
  · refine step_peak (P := fun e => e.nWork = e.lastWork) rfl (fun _ _ _ h => h) (fun _ _ => rfl)
      (fun i x w ha hb _ _ => ?_) h hc
    obtain ⟨numBytes, genTime, copyTime, pinWaitUs, y, rfl, -⟩ := hx i x ha
    exact absurd hb hC

/-- **Without function names dilation works only while nothing is to be balanced.** -/
theorem dilation_works_iff (cfg : Config) (as : List TracedEvent) :
    EveryStep (tracedStep cfg false) {} as (DilationWorks cfg false) ↔
      EveryStep (tracedStep cfg false) {} as (NotBalanced cfg) := by
  constructor
  · intro h
    refine h.implies (I := Uncounted) uncounted_init (fun _ _ _ hu _ hs => hu.step hs) ?_
    intro s e hu hw
    cases e with
    | handOff i numBytes genTime copyTime pinWaitUs x =>
        exact fun hb => (hw hb).1 (hu.newFcalls ..)
    | spawn | recordIns | countCall | period => trivial
  · intro h
    refine h.implies (I := AllIdle) (fun _ => rfl) (fun _ _ _ hi hC hs => hi.step hC hs) ?_
    intro s e hi hC
    cases e with
    | handOff i numBytes genTime copyTime pinWaitUs x => exact fun hb => absurd hb hC
    -- Nobody is busy, so a period leaves nobody out.
    | period =>
        intro i _ hbusy
        rw [PeakEntry.idle, beq_eq_false_iff_ne] at hbusy
        exact absurd (hi i) hbusy
    | spawn | recordIns | countCall => trivial

/-- The hand-off injects nothing. -/
def InjectsNothing (cfg : Config) (trackFcalls : Bool) (s : Traced) : TracedEvent → Prop
  | .handOff i numBytes genTime copyTime pinWaitUs x => ∀ t extra,
      handOff cfg i (received trackFcalls (s.app i) numBytes genTime copyTime pinWaitUs x)
        s.consumer.shared = some (t, extra) → extra = none
  | _ => True

/-- **No delay** is ever injected without function names. -/
theorem untracked_never_delayed (cfg : Config) (as : List TracedEvent) :
    EveryStep (tracedStep cfg false) {} as (InjectsNothing cfg false) := by
  refine everyStep_true.implies (I := Uncounted) uncounted_init (fun _ _ _ hu _ hs => hu.step hs) ?_
  intro s e hu _
  cases e with
  | handOff i numBytes genTime copyTime pinWaitUs x =>
      intro t extra he
      rw [(handOff_round cfg i _ s.consumer.shared he).inject,
        roundRatio_eq_none fun _ => hu.newFcalls i numBytes genTime copyTime pinWaitUs x]
      rfl
  | spawn | recordIns | countCall | period => trivial

end Untracked

/-! ### Two threads -/

/-- Work at equal rates in the kernel and outside. -/
def evenRates : Sample where
  data := {}
  counts := ⟨1000, 1000, 60000, 60000, false⟩

/-- Thread 0 hands off a buffer of one instruction, thread 1 executes nine. -/
def nineToOne : List TracedEvent :=
  [.spawn, .spawn, .recordIns 0 1 1, .handOff 0 8 5 1 0 evenRates, .recordIns 1 9 1]

/-- The buffer of thread 1. -/
def nineBuffer : TracedEvent := .handOff 1 8 5 1 0 evenRates

/-- The ratio of thread 0 is nine times that of thread 1, which is not delayed. -/
theorem dilation_does_nothing :
    ∃ s t, exec (tracedStep {} false) {} nineToOne = some s ∧
      handOff {} 1 (received false (s.app 1) 8 5 1 0 evenRates) s.consumer.shared =
        some (t, none) ∧
      maxWindowedRatio t / ratioOf t 1 - 1 = 8 ∧
      ¬ EveryStep (tracedStep {} false) {} (nineToOne ++ [nineBuffer])
        (DilationWorks {} false) := by
  have hrun : ((exec (tracedStep {} false) {} nineToOne).bind fun s =>
      (handOff {} 1 (received false (s.app 1) 8 5 1 0 evenRates) s.consumer.shared).map fun p =>
        (p.2, s.consumer.shared.nPeak, maxWindowedRatio p.1 / ratioOf p.1 1 - 1)) =
          some (none, 2, 8) := by
    decide +kernel
  obtain ⟨s, hs, hp⟩ := Option.bind_eq_some_iff.mp hrun
  obtain ⟨⟨t, extra⟩, ht, hp⟩ := Option.map_eq_some_iff.mp hp
  simp only [Prod.mk.injEq] at hp
  obtain ⟨rfl, hn, hratio⟩ := hp
  refine ⟨s, t, hs, ht, hratio, fun h => ?_⟩
  have hb : Balanced {} s.consumer.shared := ⟨rfl, by rw [hn]; exact Nat.one_lt_two⟩
  have hinj := (h nineToOne nineBuffer [] s rfl hs hb).2 t none ht (by rw [hratio]; norm_num)
  cases hinj

end BulletTime.Balance
