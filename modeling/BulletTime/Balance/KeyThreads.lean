import BulletTime.Balance.FunctionCalls
import BulletTime.Balance.Pace
import BulletTime.Pintool.Routines

/-!
# Balance — Key threads

From the names of `-fcalls` to the threads that are balanced.  The pintool counts the entries of the
routines that are named; the consumer takes a thread into the peak, and delays it, where its total
of them is not zero.

* `keyedStep`: the application and the consumer, where a call is counted only by what `ImageLoad`
  has inserted, beside the entries of each thread.
* `Heard`: the counters of a thread against its entries, in every state.
* `key_threads`: along every run, who takes part in a balanced round and in a period.

`[about the source]`: the calls of a round that is not balanced are in no total, so a thread that
has entered a named routine only before there was a second thread is left out.
-/

namespace BulletTime.Balance
open Transition RunningMax Pintool

instance (k : RtnKnobs) (rtnName : List UInt8) : Decidable (Named k rtnName) :=
  decidable_of_iff (k.counted rtnName = true) (counted_iff k rtnName)

/-- The application and the consumer, beside the entries of named routines: of each thread those
since its last hand-off, and those handed off in balanced rounds. -/
structure Keyed where
  traced : Traced := {}
  pending : ℕ → ℕ := fun _ => 0
  heard : ℕ → ℕ := fun _ => 0

/-- A thread enters a routine, or anything else happens. -/
inductive KeyedEvent where
  | enter (i : ℕ) (rtnName : List UInt8)
  | other (e : TracedEvent)

/-- What the calls inserted at the beginning of a routine are to the counters. -/
def entryEvents (k : RtnKnobs) (i : ℕ) (rtnName : List UInt8) : List TracedEvent :=
  (imageLoad k rtnName).before.filterMap fun c =>
    match c with
    | .countFunctionCalls => some (.countCall i)
    | .timerStart | .timerEnd => none

namespace Keyed

/-- What an event is to the entries.  A thread that is started has none, a hand-off takes those
since the last one. -/
def note (cfg : Config) (s : Keyed) (t : Traced) : TracedEvent → Keyed
  | .spawn =>
      { traced := t
        pending := Function.update s.pending s.traced.consumer.shared.nPeak 0
        heard := Function.update s.heard s.traced.consumer.shared.nPeak 0 }
  | .handOff i .. =>
      { traced := t
        pending := Function.update s.pending i 0
        heard := Function.update s.heard i (s.heard i +
          if Balanced cfg s.traced.consumer.shared then s.pending i else 0) }
  | _ => { s with traced := t }

end Keyed

/-- One event.  A call is counted by an inserted call only. -/
def keyedStep (cfg : Config) (k : RtnKnobs) (s : Keyed) : KeyedEvent → Option Keyed
  | .enter i rtnName =>
      (exec (tracedStep cfg k.trackFcalls) s.traced (entryEvents k i rtnName)).map fun t =>
        { s with
          traced := t
          pending := Function.update s.pending i (s.pending i + if Named k rtnName then 1 else 0) }
  | .other (.countCall _) => none
  | .other e => (tracedStep cfg k.trackFcalls s.traced e).map fun t => s.note cfg t e

/-! ### The counters and the entries -/

/-- The counters of the threads and the totals of the consumer, as 64-bit words. -/
structure Heard (s : Keyed) : Prop where
  sizes : s.traced.consumer.shared.nTotal = s.traced.consumer.shared.nPeak
  counted : ∀ i, (s.traced.app i).fcallsExecuted =
    (s.traced.app i).lastFcallsExecuted + .ofNat (s.pending i)
  total : ∀ i, (s.traced.consumer.shared.total i).totalFcalls = s.heard i % 2 ^ 64

section Keyed
variable {cfg : Config} {k : RtnKnobs} {s t : Keyed}

theorem heard_start : Heard {} := ⟨rfl, fun _ => rfl, fun _ => rfl⟩

/-- The message of a hand-off has the entries since the last one. -/
theorem Heard.fcallsExec (h : Heard s) (i numBytes : ℕ) (genTime copyTime pinWaitUs : UInt64)
    (x : Sample) : (received k.trackFcalls (s.traced.app i) numBytes genTime copyTime pinWaitUs
      x).data.fcallsExec = s.pending i % 2 ^ 64 := by
  have hsub : (s.traced.app i).fcallsExecuted - (s.traced.app i).lastFcallsExecuted =
      .ofNat (s.pending i) := by
    rw [h.counted i, UInt64.add_comm, UInt64.add_sub_cancel]
  exact (congrArg UInt64.toNat hsub).trans UInt64.toNat_ofNat'

/-- The total after a balanced round. -/
theorem Heard.newFcalls (h : Heard s) (i numBytes : ℕ) (genTime copyTime pinWaitUs : UInt64)
    (x : Sample) : newFcalls i (received k.trackFcalls (s.traced.app i) numBytes genTime copyTime
      pinWaitUs x) s.traced.consumer.shared = (s.heard i + s.pending i) % 2 ^ 64 := by
  rw [Balance.newFcalls, h.fcallsExec, h.total, addWord_natCast, ← Nat.add_mod]

/-- Entering a routine counts a call where it is named. -/
theorem entryEvents_eq (k : RtnKnobs) (i : ℕ) (rtnName : List UInt8) :
    entryEvents k i rtnName = if Named k rtnName then [.countCall i] else [] := by
  have hiff := counted_iff k rtnName
  rw [entryEvents, imageLoad]
  dsimp only
  split_ifs with ht hc hn hn hc hn hn
  · rfl
  · exact absurd (hiff.mp hc) hn
  · exact absurd (hiff.mpr hn) hc
  · rfl
  · rfl
  · exact absurd (hiff.mp hc) hn
  · exact absurd (hiff.mpr hn) hc
  · rfl

/-- A change to one thread that keeps its counters and its entries together. -/
theorem counted_update {app : ℕ → AppThread} {pending : ℕ → ℕ} {i n : ℕ} {a : AppThread}
    (h : ∀ j, (app j).fcallsExecuted = (app j).lastFcallsExecuted + .ofNat (pending j))
    (ha : a.fcallsExecuted = a.lastFcallsExecuted + .ofNat n) (j : ℕ) :
    (Function.update app i a j).fcallsExecuted = (Function.update app i a j).lastFcallsExecuted +
      .ofNat (Function.update pending i n j) := by
  by_cases hj : j = i
  · subst hj
    rw [Function.update_self, Function.update_self]
    exact ha
  · rw [Function.update_of_ne hj, Function.update_of_ne hj]
    exact h j

/-- **A routine is entered.** -/
theorem Heard.enter {i : ℕ} {rtnName : List UInt8} (h : Heard s)
    (hs : keyedStep cfg k s (.enter i rtnName) = some t) : Heard t := by
  obtain ⟨u, hu, rfl⟩ := Option.map_eq_some_iff.mp hs
  rw [entryEvents_eq] at hu
  split_ifs at hu ⊢ with hn
  · rw [exec_cons, Option.bind_eq_some_iff] at hu
    obtain ⟨v, hv, hu⟩ := hu
    cases hu
    unfold tracedStep at hv
    split_ifs at hv
    cases hv
    refine ⟨h.sizes, counted_update h.counted ?_, h.total⟩
    rw [AppThread.countFunctionCalls, h.counted i, UInt64.ofNat_add, UInt64.add_assoc]
    rfl
  · cases hu
    refine ⟨h.sizes, fun j => ?_, h.total⟩
    dsimp only
    rw [Nat.add_zero, Function.update_eq_self]
    exact h.counted j

/-- **A hand-off** moves the entries into the total if it is balanced, and loses them otherwise. -/
theorem Heard.handOff {i numBytes : ℕ} {genTime copyTime pinWaitUs : UInt64} {x : Sample}
    (h : Heard s)
    (hs : keyedStep cfg k s (.other (.handOff i numBytes genTime copyTime pinWaitUs x)) = some t) :
    Heard t := by
  obtain ⟨u, hu, rfl⟩ := Option.map_eq_some_iff.mp hs
  obtain ⟨c, hc, rfl⟩ := Option.map_eq_some_iff.mp hu
  obtain ⟨-, extra, he, -⟩ := step_handOff hc
  have hr := handOff_round cfg i _ _ he
  refine ⟨?_, ?_, fun j => ?_⟩
  · exact hr.sizes.2.trans (h.sizes.trans hr.sizes.1.symm)
  · refine counted_update h.counted ?_
    exact (UInt64.add_zero _).symm
  · dsimp only [Keyed.note]
    by_cases hj : j = i
    · subst hj
      rw [Function.update_self]
      split_ifs with hb
      · obtain ⟨w, a, b, -, hf, -⟩ := hr.self hb
        rw [hf, h.newFcalls]
      · rw [(hr.unbalanced hb).fcalls, Nat.add_zero]
        exact h.total j
    · rw [hr.fcalls_of_ne hj, Function.update_of_ne hj]
      exact h.total j

/-- **Every event** keeps the counters and the entries together. -/
theorem Heard.step {e : KeyedEvent} (h : Heard s) (hs : keyedStep cfg k s e = some t) :
    Heard t := by
  cases e with
  | enter i rtnName => exact h.enter hs
  | other e =>
      cases e with
      | spawn =>
          cases hs
          refine ⟨congrArg (· + 1) h.sizes, counted_update h.counted rfl, fun j => ?_⟩
          dsimp only [Keyed.note]
          rw [Shared.total_initThreadData, h.sizes, Function.update_apply]
          split_ifs
          · rfl
          · exact h.total j
      | recordIns i ins memIns =>
          cases hs
          refine ⟨h.sizes, fun j => ?_, h.total⟩
          have hc := counted_update (i := i)
            (a := (s.traced.app i).incrementInsExecuted ins memIns) h.counted (h.counted i) j
          rw [Function.update_eq_self] at hc
          exact hc
      | countCall i => cases hs
      | handOff i numBytes genTime copyTime pinWaitUs x => exact h.handOff hs
      | period =>
          obtain ⟨u, hu, rfl⟩ := Option.map_eq_some_iff.mp hs
          obtain ⟨c, hc, rfl⟩ := Option.map_eq_some_iff.mp hu
          cases step_period hc
          refine ⟨?_, h.counted, fun j => ?_⟩
          · dsimp only [Keyed.note]
            rw [period_nTotal, period_nPeak]
            exact h.sizes
          · dsimp only [Keyed.note]
            rw [period_fcalls]
            exact h.total j

/-! ### Who takes part -/

/-- A balanced hand-off of a thread that has entered no named routine leaves the peak and delays
nobody; that of any other one raises the peak to the thread's ratio and is delayed against it.  A
period takes the new peak over the threads that have handed entries off. -/
def KeyRound (cfg : Config) (k : RtnKnobs) (s : Keyed) : KeyedEvent → Prop
  | .other (.handOff i numBytes genTime copyTime pinWaitUs x) =>
      let u := s.traced.consumer.shared
      let x := received k.trackFcalls (s.traced.app i) numBytes genTime copyTime pinWaitUs x
      Balanced cfg u → ∀ t extra, handOff cfg i x u = some (t, extra) →
        if (s.heard i + s.pending i) % 2 ^ 64 = 0 then
          t.maxBufferWorkRatio = u.maxBufferWorkRatio ∧ extra = none
        else ∀ w, x.work = some w → 0 < (u.peak i).nWork + w →
          t.maxBufferWorkRatio = max u.maxBufferWorkRatio (ratioOf t i) ∧
            extra = extraBuffers t.maxBufferWorkRatio (ratioOf t i)
  | .other .period =>
      let u := s.traced.consumer.shared
      cfg.overheadBalancing = true → (period cfg u).maxBufferWorkRatio =
        runningMax 0 ((List.range u.nPeak).filterMap fun i =>
          if (u.peak i).idle = true ∨ s.heard i % 2 ^ 64 = 0 then none else (u.peak i).ratio)
  | _ => True

theorem Heard.keyRound (h : Heard s) (e : KeyedEvent) : KeyRound cfg k s e := by
  cases e with
  | enter i rtnName => trivial
  | other e =>
      cases e with
      | handOff i numBytes genTime copyTime pinWaitUs x =>
          intro hb t extra he
          have hr := handOff_round cfg i _ _ he
          have hf := h.newFcalls (k := k) i numBytes genTime copyTime pinWaitUs x
          split_ifs with hzero
          · have hmax := hr.maxRatio
            have hinject := hr.inject
            rw [roundRatio_eq_none fun _ => hf.trans hzero] at hmax hinject
            exact ⟨hmax, hinject⟩
          · intro w hw hpos
            obtain ⟨hmax, hextra⟩ := Pace.round_peak hr hb (hf ▸ hzero) hw hpos
            exact ⟨hmax, hmax ▸ hextra⟩
      | period =>
          intro hcfg
          rw [period_max, if_pos hcfg, Balance.counted]
          simp only [PeakEntry.countedRatio, h.total]
      | spawn | recordIns | countCall => trivial

/-- **The names of `-fcalls` pick the threads that are balanced**, along every run. -/
theorem key_threads (cfg : Config) (k : RtnKnobs) (as : List KeyedEvent) :
    EveryStep (keyedStep cfg k) {} as (KeyRound cfg k) :=
  everyStep_true.implies (I := Heard) heard_start (fun _ _ _ h _ hs => h.step hs)
    fun _ e h _ => h.keyRound e

end Keyed

end BulletTime.Balance
