import BulletTime.Lib.Accounts
import BulletTime.Pintool.FillCalls
import BulletTime.Pintool.Statistics

/-!
# Pintool — InsCounts

Threads that execute instrumented blocks, hand over their buffers and exit.

* `step`: a thread enters a block, executes its next instruction, has its buffer handed over or
  exits; the steps of the threads interleave in any way.
* `amount`: what a step adds to a counter, and `live`: what a thread has still to give to it.
* `total_modEq`: a counter in the totals, with what the threads have still to give, grows by the
  amount of each step.
* `get_overall`: so once every thread has exited it is the sum of the amounts.

`[about the source]`: `RecordInsExecuted` may run anywhere in its block; here it runs when the block
is entered.
-/

namespace BulletTime.Pintool
open Transition Accounts
open AppThreadStatistics (Call)

/-! ### One thread -/

/-- The statistics call an inserted call makes. -/
def Executed.statCall (e : Executed) : InsCall → Option Call
  | .recordFrequency pc => (e.eval pc).map .incrementInsFreq
  | .threadPause => some .incPauseInstructions
  | .fillBuffer .. => none

/-- An execution of a block to its end. -/
structure WholeRun extends BblRun where
  length_eq : instrs.length = block.length

/-- A thread: what is left of the block it is in, with the inserted calls, its buffer and its
statistics. -/
structure ThreadRun where
  pending : List (Executed × List InsCall) := []
  buffer : List Consumer.MemRef := []
  statistics : AppThreadStatistics := {}
  exited : Bool := false

namespace ThreadRun

/-- The thread enters a block; `RecordInsExecuted` runs once for it. -/
def enter (k : Knobs) (x : ThreadRun) (r : WholeRun) : Option ThreadRun :=
  if x.exited ∨ x.pending ≠ [] then none
  else
    let b := r.inserted k
    some { x with
      pending := r.instrs.zip b.calls
      statistics := x.statistics.apply (.incrementInsExecuted b.numIns b.numMemIns) }

/-- The next instruction of the block, with the calls inserted before it. -/
def next (x : ThreadRun) : Option ThreadRun :=
  match x.exited, x.pending with
  | true, _ | false, [] => none
  | false, (e, calls) :: pending =>
      some { x with
        pending := pending
        buffer := x.buffer ++ calls.filterMap e.fill
        statistics := (calls.filterMap e.statCall).foldl AppThreadStatistics.apply x.statistics }

/-- `BufferFull_PC`, for a full buffer or for the last one of the thread. -/
def bufferFull (x : ThreadRun) : ThreadRun :=
  { x with
    buffer := []
    statistics := ((x.statistics.apply (.addNumElementsProcessed (.ofNat x.buffer.length))).apply
      .incrementNumBuffersFilled).apply .incrementNumBuffersProcessedInAppThread }

end ThreadRun

/-! ### All threads -/

variable {ι : Type*}

/-- The threads and the totals. -/
structure RunState (ι : Type*) where
  threads : ι → ThreadRun := fun _ => {}
  overall : OverallStatistics

/-- What a thread does next. -/
inductive RunAct (ι : Type*) where
  | enterBbl (t : ι) (r : WholeRun)
  | nextIns (t : ι)
  | bufferFull (t : ι)
  /-- The last buffer is handed over, and `ThreadFini` accumulates the statistics. -/
  | threadFini (t : ι)

/-- One step. -/
def RunState.step [DecidableEq ι] (k : Knobs) (s : RunState ι) : RunAct ι → Option (RunState ι)
  | .enterBbl t r =>
      ((s.threads t).enter k r).map fun x => { s with threads := Function.update s.threads t x }
  | .nextIns t =>
      (s.threads t).next.map fun x => { s with threads := Function.update s.threads t x }
  | .bufferFull t =>
      if (s.threads t).exited then none
      else some { s with threads := Function.update s.threads t (s.threads t).bufferFull }
  | .threadFini t =>
      if (s.threads t).exited ∨ (s.threads t).pending ≠ [] then none
      else
        let x := (s.threads t).bufferFull
        some { threads := Function.update s.threads t { x with exited := true }
               overall := s.overall.accumulate x.statistics }

/-- `main`, after the construction of the totals and their `Init`. -/
def RunState.start (n : UInt64) (f p : UInt32) (now : UInt64) : RunState ι where
  overall := (OverallStatistics.constructed n f p).init now

/-! ### What the steps add to a counter -/

/-- What `n` records add, once they are handed over. -/
def recordAmount (c : Scalar) (n : ℕ) : ℕ := if c = .numElementsProcessed then n else 0

theorem recordAmount_add (c : Scalar) (m n : ℕ) :
    recordAmount c (m + n) = recordAmount c m + recordAmount c n := by
  unfold recordAmount
  split <;> rfl

/-- What executing an instruction adds, in its statistics calls and its records. -/
def pairAmount (c : Scalar) (p : Executed × List InsCall) : ℕ :=
  ((p.2.filterMap p.1.statCall).map fun call => call.amount c).sum +
    recordAmount c (p.2.filterMap p.1.fill).length

/-- What a whole block adds. -/
def bblAmount (k : Knobs) (c : Scalar) (r : WholeRun) : ℕ :=
  (Call.incrementInsExecuted (r.inserted k).numIns (r.inserted k).numMemIns).amount c +
    ((r.instrs.zip (r.inserted k).calls).map (pairAmount c)).sum

/-- What a handed-over buffer adds, beside its records. -/
def bufferAmount (c : Scalar) : ℕ :=
  Call.incrementNumBuffersFilled.amount c +
    Call.incrementNumBuffersProcessedInAppThread.amount c

/-- A block is counted when it is entered. -/
def RunAct.amount (k : Knobs) (c : Scalar) : RunAct ι → ℕ
  | .enterBbl _ r => bblAmount k c r
  | .nextIns _ => 0
  | .bufferFull _ | .threadFini _ => bufferAmount c

/-- What a live thread still has to give to the totals: its counter, its buffer and its block. -/
def ThreadRun.live (c : Scalar) (x : ThreadRun) : ℕ :=
  if x.exited then 0
  else x.statistics.get c + recordAmount c x.buffer.length + (x.pending.map (pairAmount c)).sum

section

variable {k : Knobs} {c : Scalar} {x y : ThreadRun} {r : WholeRun}

/-- What entering a block does. -/
theorem enter_cases (h : x.enter k r = some y) :
    x.exited = false ∧ x.pending = [] ∧ y = { x with
      pending := r.instrs.zip (r.inserted k).calls
      statistics := x.statistics.apply
        (.incrementInsExecuted (r.inserted k).numIns (r.inserted k).numMemIns) } := by
  rw [ThreadRun.enter] at h
  split at h
  · cases h
  · rename_i hx
    simp only [not_or, Bool.not_eq_true, ne_eq, not_not] at hx
    exact ⟨hx.1, hx.2, (Option.some.inj h).symm⟩

/-- What executing an instruction does. -/
theorem next_cases (h : x.next = some y) : ∃ e calls pending,
    x.exited = false ∧ x.pending = (e, calls) :: pending ∧ y = { x with
      pending := pending
      buffer := x.buffer ++ calls.filterMap e.fill
      statistics :=
        (calls.filterMap e.statCall).foldl AppThreadStatistics.apply x.statistics } := by
  rw [ThreadRun.next] at h
  split at h
  · cases h
  · cases h
  · rename_i e calls pending hlive hpending
    exact ⟨e, calls, pending, hlive, hpending, (Option.some.inj h).symm⟩

theorem live_mk (pending : List (Executed × List InsCall)) (buffer : List Consumer.MemRef)
    (statistics : AppThreadStatistics) :
    ThreadRun.live c ⟨pending, buffer, statistics, false⟩ = statistics.get c +
      recordAmount c buffer.length + (pending.map (pairAmount c)).sum :=
  rfl

theorem live_enter (h : x.enter k r = some y) :
    y.live c ≡ x.live c + bblAmount k c r [MOD 2 ^ c.width] := by
  obtain ⟨hx, hpending, rfl⟩ := enter_cases h
  obtain ⟨pending, buffer, statistics, exited⟩ := x
  obtain rfl : exited = false := hx
  obtain rfl : pending = [] := hpending
  have hget := statistics.get_foldl_apply_modEq
    [.incrementInsExecuted (r.inserted k).numIns (r.inserted k).numMemIns] c
  rw [live_mk, live_mk, bblAmount, add_assoc]
  refine (hget.add_right _).trans (modEq_of_eq ?_)
  simp only [List.map_cons, List.map_nil, List.sum_cons, List.sum_nil]
  ring

theorem live_next (h : x.next = some y) : y.live c ≡ x.live c [MOD 2 ^ c.width] := by
  obtain ⟨e, calls, pending', hx, hpending, rfl⟩ := next_cases h
  obtain ⟨pending, buffer, statistics, exited⟩ := x
  obtain rfl : exited = false := hx
  obtain rfl : pending = (e, calls) :: pending' := hpending
  have hget := statistics.get_foldl_apply_modEq (calls.filterMap e.statCall) c
  rw [live_mk, live_mk, add_assoc]
  refine (hget.add_right _).trans (modEq_of_eq ?_)
  rw [List.map_cons, List.sum_cons, pairAmount, List.length_append, recordAmount_add]
  ring

/-- A full buffer's records are counted modulo the width of their counter. -/
theorem amount_addNumElementsProcessed (n : ℕ) :
    (Call.addNumElementsProcessed (.ofNat n)).amount c ≡ recordAmount c n [MOD 2 ^ c.width] := by
  cases c
  case numElementsProcessed => exact Nat.mod_modEq n _
  all_goals exact Nat.ModEq.rfl

theorem live_bufferFull (hx : x.exited = false) :
    x.bufferFull.live c ≡ x.live c + bufferAmount c [MOD 2 ^ c.width] := by
  obtain ⟨pending, buffer, statistics, exited⟩ := x
  obtain rfl : exited = false := hx
  have hget := statistics.get_foldl_apply_modEq
    [.addNumElementsProcessed (.ofNat buffer.length), .incrementNumBuffersFilled,
      .incrementNumBuffersProcessedInAppThread] c
  simp only [List.map_cons, List.map_nil, List.sum_cons, List.sum_nil, add_zero] at hget
  have hrecords := (amount_addNumElementsProcessed (c := c) buffer.length).add_left
    (statistics.get c)
  have hempty : recordAmount c 0 = 0 := ite_self 0
  rw [ThreadRun.bufferFull, live_mk, live_mk, List.length_nil, hempty, add_zero, bufferAmount]
  rw [← add_assoc, ← add_assoc] at hget
  refine ((hget.trans ((hrecords.add_right _).add_right _)).add_right _).trans (modEq_of_eq ?_)
  ring

/-- Between two blocks, a thread whose buffer was handed over has only its counters. -/
theorem live_bufferFull_idle (hx : x.exited = false) (hpending : x.pending = []) :
    x.bufferFull.live c = x.bufferFull.statistics.get c := by
  obtain ⟨pending, buffer, statistics, exited⟩ := x
  obtain rfl : exited = false := hx
  obtain rfl : pending = [] := hpending
  have hempty : recordAmount c 0 = 0 := ite_self 0
  rw [ThreadRun.bufferFull, live_mk, List.length_nil, hempty, List.map_nil, List.sum_nil, add_zero,
    add_zero]

theorem live_exited (x : ThreadRun) : ThreadRun.live c { x with exited := true } = 0 := rfl

end

/-! ### The totals of a run -/

variable [DecidableEq ι] [Fintype ι] {k : Knobs} {s u : RunState ι} {a : RunAct ι}

/-- A counter in the totals, and what the threads still have to give. -/
def RunState.total (c : Scalar) (s : RunState ι) : ℕ :=
  s.overall.get c + ∑ t, (s.threads t).live c

/-- A step of one thread that adds `n`. -/
theorem total_update {c : Scalar} {t : ι} {x : ThreadRun} {n : ℕ}
    (h : x.live c ≡ (s.threads t).live c + n [MOD 2 ^ c.width]) :
    RunState.total c { s with threads := Function.update s.threads t x } ≡
      s.total c + n [MOD 2 ^ c.width] := by
  have hsum := (sum_update_modEq (w := ThreadRun.live c) h).add_left (s.overall.get c)
  rw [← add_assoc] at hsum
  exact hsum

/-- The last buffer and the exit of a thread between two blocks. -/
theorem total_fini {c : Scalar} {t : ι} (hx : (s.threads t).exited = false)
    (hpending : (s.threads t).pending = []) :
    RunState.total c
        { threads := Function.update s.threads t { (s.threads t).bufferFull with exited := true }
          overall := s.overall.accumulate (s.threads t).bufferFull.statistics } ≡
      s.total c + bufferAmount c [MOD 2 ^ c.width] := by
  have hsum := sum_update (ThreadRun.live c) s.threads t
    { (s.threads t).bufferFull with exited := true }
  rw [live_exited, add_zero] at hsum
  have hlive := live_bufferFull (c := c) hx
  rw [live_bufferFull_idle hx hpending] at hlive
  refine Nat.ModEq.add_right_cancel' ((s.threads t).live c) ?_
  rw [RunState.total, RunState.total, OverallStatistics.get_accumulate, add_assoc, hsum]
  refine ((Nat.mod_modEq _ _).add_right _).trans ?_
  refine ((hlive.add_left (s.overall.get c)).add_right _).trans (modEq_of_eq ?_)
  ring

theorem total_modEq (c : Scalar) (h : s.step k a = some u) :
    u.total c ≡ s.total c + a.amount k c [MOD 2 ^ c.width] := by
  cases a with
  | enterBbl t r =>
    obtain ⟨x, hx, rfl⟩ := Option.map_eq_some_iff.mp h
    exact total_update (live_enter hx)
  | nextIns t =>
    obtain ⟨x, hx, rfl⟩ := Option.map_eq_some_iff.mp h
    exact total_update (live_next hx)
  | bufferFull t =>
    rw [RunState.step] at h
    split at h
    · cases h
    · rename_i hlive
      cases h
      exact total_update (live_bufferFull (Bool.not_eq_true _ ▸ hlive))
  | threadFini t =>
    rw [RunState.step] at h
    split at h
    · cases h
    rename_i hx
    simp only [not_or, Bool.not_eq_true, ne_eq, not_not] at hx
    cases h
    exact total_fini hx.1 hx.2

omit [DecidableEq ι] in
theorem total_start (c : Scalar) (n : UInt64) (f p : UInt32) (now : UInt64) :
    (RunState.start n f p now : RunState ι).total c = 0 := by
  have hthread : ThreadRun.live c {} = 0 := by
    cases c <;> rfl
  have hoverall : ((OverallStatistics.constructed n f p).init now).get c = 0 := by
    cases c <;> rfl
  simp [RunState.total, RunState.start, hthread, hoverall]

/-- **The totals once every thread has exited**, by what was done. -/
theorem get_overall (c : Scalar) {n : UInt64} {f p : UInt32} {now : UInt64}
    {as : List (RunAct ι)} (h : exec (RunState.step k) (.start n f p now) as = some s)
    (hexit : ∀ t, (s.threads t).exited = true) :
    s.overall.get c = (as.map fun a => a.amount k c).sum % 2 ^ c.width := by
  have hrun := exec_modEq (m := RunState.total c) (fun hstep => total_modEq c hstep) h
  have hthreads : ∑ t, (s.threads t).live c = 0 := by
    refine Finset.sum_eq_zero ?_
    intro t _
    rw [ThreadRun.live, if_pos (hexit t)]
  rw [total_start, Nat.zero_add, RunState.total, hthreads, add_zero] at hrun
  rw [← hrun]
  exact (Nat.mod_eq_of_lt (s.overall.get_lt c)).symm

end BulletTime.Pintool
