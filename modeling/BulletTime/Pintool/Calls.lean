import Mathlib.Algebra.BigOperators.Group.List.Basic
import BulletTime.Lib.Transition
import BulletTime.Pintool.AppThread

/-!
# Pintool — Calls

The calls of `CopyToSharedMemory` of one thread, each of which may fail to read the ready signal or
to send its metadata, between the instrumentation callbacks.

* `copyToSharedMemory`: one call, from its clock readings and the results of its two socket calls.
* `Calls`: the thread, and what no step reads: the messages sent, the counters at the last of them,
  the counts of the calls whose send failed, and the clock.
* `counts_conserved_iff`: the messages add up to the counters of the last one exactly when, at each
  of them, the failed sends before it have lost nothing.
* `times_never_double_count`: the times reported never exceed the time gone by.
-/

namespace BulletTime.Pintool
open Transition

/-! ### One call -/

/-- The clock readings of a call, of a clock that does not go back. -/
structure Readings where
  now : UInt64
  rdyWaitStart : UInt64
  rdyWaitEnd : UInt64
  mcpyStart : UInt64
  mcpyEnd : UInt64
  now_le : now ≤ rdyWaitStart
  wait : rdyWaitStart ≤ rdyWaitEnd
  wait_le : rdyWaitEnd ≤ mcpyStart
  mcpy : mcpyStart ≤ mcpyEnd

/-- The clock stands still. -/
def Readings.still (now : UInt64) : Readings :=
  ⟨now, now, now, now, now, UInt64.le_refl _, UInt64.le_refl _, UInt64.le_refl _,
    UInt64.le_refl _⟩

/-- How a call ends. -/
inductive CallResult where
  | readFailed
  | sendFailed
  | sent
  deriving DecidableEq

/-- The message a call builds. -/
def callData (trackFcalls : Bool) (t : AppThread) (numBytes : ℕ) (r : Readings) : Metadata :=
  t.sendData trackFcalls numBytes (r.now - t.bufGenTime) (r.mcpyEnd - r.mcpyStart)
    (r.rdyWaitEnd - r.rdyWaitStart)

/-- `CopyToSharedMemory`: the thread after it and the message sent.  The counters are reported
before the send, whatever becomes of it. -/
def copyToSharedMemory (trackFcalls : Bool) (t : AppThread) (numBytes : ℕ) (r : Readings) :
    CallResult → AppThread × Option Metadata
  | .readFailed => (t, none)
  | .sendFailed => ({ t.reported with bufGenTime := r.mcpyEnd }, none)
  | .sent => ({ t.reported with bufGenTime := r.mcpyEnd }, some (callData trackFcalls t numBytes r))

/-! ### The three counters -/

inductive Counter where
  | ins
  | memIns
  | fcalls
  deriving DecidableEq

def AppThread.count (t : AppThread) : Counter → UInt64
  | .ins => t.insExecuted
  | .memIns => t.memInsExecuted
  | .fcalls => t.fcallsExecuted

def AppThread.last (t : AppThread) : Counter → UInt64
  | .ins => t.lastInsExecuted
  | .memIns => t.lastMemInsExecuted
  | .fcalls => t.lastFcallsExecuted

/-- What a call would report. -/
def AppThread.delta (t : AppThread) (c : Counter) : UInt64 := t.count c - t.last c

/-- The field of a message that reports the counter. -/
def Counter.field : Counter → Metadata → ℕ
  | .ins, m => m.insExec
  | .memIns, m => m.memInsExec
  | .fcalls, m => m.fcallsExec

section Reported
variable (t : AppThread) (c : Counter) (stamp : UInt64)

/-- Once reported, a counter has nothing left to report. -/
theorem last_reported : AppThread.last { t.reported with bufGenTime := stamp } c = t.count c := by
  have hadd : ∀ a b : UInt64, b + (a - b) = a := fun a b => by
    rw [UInt64.add_comm, UInt64.sub_add_cancel]
  cases c with
  | ins => exact hadd _ _
  | memIns => exact hadd _ _
  | fcalls => rfl

theorem field_callData (trackFcalls : Bool) (numBytes : ℕ) (r : Readings) :
    c.field (callData trackFcalls t numBytes r) = (t.delta c).toNat := by
  cases c <;> rfl

end Reported

/-! ### Any number of calls -/

/-- A thread, the messages it has sent, and what was true at them. -/
structure Calls where
  app : AppThread
  sent : List Metadata := []
  /-- The counters at the last message sent. -/
  atSent : Counter → UInt64 := fun _ => 0
  /-- The counts of the calls whose send failed, added up. -/
  lost : Counter → UInt64 := fun _ => 0
  /-- The last clock reading. -/
  clock : UInt64
  /-- `mcpy_end` of the last message sent. -/
  sentEnd : UInt64

/-- A callback, or a call. -/
inductive CallAction where
  | recordIns (ins memIns : UInt64)
  | countCall
  | copy (numBytes : ℕ) (r : Readings) (res : CallResult)

namespace Calls

/-- `ThreadStart` has stamped the thread. -/
def init (start : UInt64) : Calls where
  app := { bufGenTime := start }
  clock := start
  sentEnd := start

/-- A call, whose readings come after the last one. -/
def copy (trackFcalls : Bool) (s : Calls) (numBytes : ℕ) (r : Readings) (res : CallResult) :
    Calls :=
  let p := copyToSharedMemory trackFcalls s.app numBytes r res
  match res with
  | .readFailed => { s with app := p.1, clock := r.rdyWaitEnd }
  | .sendFailed =>
      { s with app := p.1, lost := fun c => s.lost c + s.app.delta c, clock := r.mcpyEnd }
  | .sent =>
      { s with
        app := p.1
        sent := s.sent ++ p.2.toList
        atSent := s.app.count
        clock := r.mcpyEnd
        sentEnd := r.mcpyEnd }

def step (trackFcalls : Bool) (s : Calls) : CallAction → Option Calls
  | .recordIns ins memIns => some { s with app := s.app.incrementInsExecuted ins memIns }
  | .countCall =>
      if trackFcalls then some { s with app := s.app.countFunctionCalls } else none
  | .copy numBytes r res =>
      if s.clock ≤ r.now then some (s.copy trackFcalls numBytes r res) else none

variable {trackFcalls : Bool} {s t : Calls} {a : CallAction} {start : UInt64}

/-- **What a step does**: a callback leaves what has been reported, a call is one of three. -/
theorem step_cases (h : step trackFcalls s a = some t) :
    ((∀ b r res, a ≠ .copy b r res) ∧ (∀ c, t.app.last c = s.app.last c) ∧
        t.app.bufGenTime = s.app.bufGenTime ∧ t = { s with app := t.app }) ∨
      ∃ b r res, a = .copy b r res ∧ s.clock ≤ r.now ∧ t = s.copy trackFcalls b r res := by
  cases a with
  | recordIns ins memIns =>
      cases h
      exact .inl ⟨nofun, fun c => by cases c <;> rfl, rfl, rfl⟩
  | countCall =>
      obtain ⟨-, ⟨⟩⟩ := Option.ite_none_right_eq_some.mp h
      exact .inl ⟨nofun, fun c => by cases c <;> rfl, rfl, rfl⟩
  | copy b r res =>
      obtain ⟨hclock, ⟨⟩⟩ := Option.ite_none_right_eq_some.mp h
      exact .inr ⟨b, r, res, rfl, hclock, rfl⟩

/-! ### The counts -/

/-- What the messages sent report of a counter. -/
def total (s : Calls) (c : Counter) : ℕ := (s.sent.map c.field).sum

/-- The messages add up to the counters of the last one. -/
def Conserved (s : Calls) : Prop := ∀ c, s.total c % 2 ^ 64 = (s.atSent c).toNat

/-- A message is sent only where the failed sends before it have lost nothing. -/
def NothingLost (s : Calls) : CallAction → Prop
  | .copy _ _ .sent => ∀ c, s.lost c = 0
  | _ => True

/-- Messages and failed sends together report each counter. -/
def Accounted (s : Calls) : Prop := ∀ c, UInt64.ofNat (s.total c) + s.lost c = s.app.last c

theorem accounted_init : Accounted (init start) := by
  intro c
  cases c <;> rfl

theorem total_copy_sent (b : ℕ) (r : Readings) (c : Counter) :
    (s.copy trackFcalls b r .sent).total c = s.total c + (s.app.delta c).toNat := by
  have hsent : (s.copy trackFcalls b r .sent).sent = s.sent ++ [callData trackFcalls s.app b r] :=
    rfl
  rw [total, hsent, List.map_append, List.sum_append, List.map_singleton, List.sum_singleton,
    field_callData, total]

/-- Reported and not yet reported add up to the counter. -/
theorem last_add_delta (t : AppThread) (c : Counter) : t.last c + t.delta c = t.count c := by
  rw [AppThread.delta, UInt64.add_comm, UInt64.sub_add_cancel]

theorem Accounted.step (hs : Accounted s) (h : step trackFcalls s a = some t) : Accounted t := by
  intro c
  rcases step_cases h with ⟨-, hlast, -, e⟩ | ⟨b, r, res, -, -, rfl⟩
  · rw [hlast, ← hs c, e]
    rfl
  · have hc := hs c
    cases res with
    | readFailed => exact hc
    | sendFailed =>
        have hl : (s.copy trackFcalls b r .sendFailed).app.last c = s.app.count c :=
          last_reported ..
        have ht : (s.copy trackFcalls b r .sendFailed).total c = s.total c := rfl
        have hlost : (s.copy trackFcalls b r .sendFailed).lost c = s.lost c + s.app.delta c := rfl
        rw [hl, ht, hlost, ← UInt64.add_assoc, hc, last_add_delta]
    | sent =>
        have hl : (s.copy trackFcalls b r .sent).app.last c = s.app.count c := last_reported ..
        have hlost : (s.copy trackFcalls b r .sent).lost c = s.lost c := rfl
        rw [hl, hlost, total_copy_sent, UInt64.ofNat_add, UInt64.ofNat_toNat, UInt64.add_assoc,
          UInt64.add_comm (s.app.delta c), ← UInt64.add_assoc, hc, last_add_delta]

/-- **A message sent** finds the counts conserved exactly where nothing had been lost. -/
theorem conserved_copy_sent (hs : Accounted s) (b : ℕ) (r : Readings) :
    Conserved (s.copy trackFcalls b r .sent) ↔ ∀ c, s.lost c = 0 := by
  refine forall_congr' fun c => ?_
  have hat : (s.copy trackFcalls b r .sent).atSent c = s.app.count c := rfl
  have hsum : UInt64.ofNat (s.total c + (s.app.delta c).toNat) + s.lost c = s.app.count c := by
    rw [UInt64.ofNat_add, UInt64.ofNat_toNat, UInt64.add_assoc, UInt64.add_comm (s.app.delta c),
      ← UInt64.add_assoc, hs c, last_add_delta]
  rw [total_copy_sent, hat, ← UInt64.toNat_ofNat', UInt64.toNat_inj, ← hsum]
  refine ⟨fun h => ?_, fun h => by rw [h, UInt64.add_zero]⟩
  rw [eq_comm, UInt64.add_comm, ← UInt64.eq_sub_iff_add_eq, UInt64.sub_self] at h
  exact h

theorem conserved_step (hs : Accounted s) (hc : Conserved s) (hn : NothingLost s a)
    (h : step trackFcalls s a = some t) : Conserved t := by
  rcases step_cases h with ⟨-, -, -, e⟩ | ⟨b, r, res, rfl, -, rfl⟩
  · rw [e]
    exact hc
  · cases res with
    | readFailed | sendFailed => exact hc
    | sent => exact (conserved_copy_sent hs b r).mpr hn

theorem nothingLost_of_conserved (hs : Accounted s) (h : step trackFcalls s a = some t)
    (ht : Conserved t) : NothingLost s a := by
  rcases step_cases h with ⟨hne, -⟩ | ⟨b, r, res, rfl, -, rfl⟩
  · cases a with
    | copy b r res => exact absurd rfl (hne b r res)
    | recordIns | countCall => trivial
  · cases res with
    | readFailed | sendFailed => trivial
    | sent => exact (conserved_copy_sent hs b r).mp ht

/-- **The messages add up to the counters** at the last of them, all along a run, exactly when each
is sent with nothing lost before it: a send that fails takes its counts with it. -/
theorem counts_conserved_iff (trackFcalls : Bool) (start : UInt64) {as : List CallAction}
    {s : Calls} (h : exec (step trackFcalls) (init start) as = some s) :
    EveryState (step trackFcalls) (init start) as Conserved ↔
      EveryStep (step trackFcalls) (init start) as NothingLost := by
  constructor
  · intro hP
    exact hP.everyStep (I := Accounted) accounted_init (fun _ _ _ hs h => hs.step h)
      (fun _ _ _ hs h ht => nothingLost_of_conserved hs h ht) h
  · intro hC
    refine hC.everyState (I := fun s => Accounted s ∧ Conserved s) ⟨accounted_init, ?_⟩
      (fun _ _ _ hs hn h => ⟨hs.1.step h, conserved_step hs.1 hs.2 hn h⟩) fun _ hs => hs.2
    intro c
    rfl

/-- A call that reads no signal, and one that succeeds. -/
def readFails : List CallAction :=
  [.recordIns 5 2, .copy 24 (.still 0) .readFailed, .recordIns 3 1, .copy 24 (.still 0) .sent]

theorem counts_conserved_iff_readFails :
    ∃ s, exec (step false) (init 0) readFails = some s ∧
      (EveryState (step false) (init 0) readFails Conserved ↔
        EveryStep (step false) (init 0) readFails NothingLost) :=
  ⟨_, rfl, counts_conserved_iff false 0 rfl⟩

/-- Five instructions are counted in a call whose send fails, three in the next: the one message
sent reports three, and the counter stands at eight. -/
theorem failed_send_loses_counts :
    ∃ s, exec (step false) (init 0)
        [.recordIns 5 0, .copy 24 (.still 0) .sendFailed, .recordIns 3 0,
          .copy 24 (.still 0) .sent] = some s ∧
      s.total .ins = 3 ∧ s.atSent .ins = 8 ∧ ¬ Conserved s := by
  refine ⟨_, rfl, rfl, rfl, fun h => ?_⟩
  exact absurd (h .ins) (by decide)

/-! ### The times -/

/-- The times the messages sent report: generation and waiting. -/
def reportedTime (s : Calls) : ℕ := (s.sent.map fun m => m.genTime + m.pinWait).sum

/-- None of the differences of clock readings wraps around. -/
def NoUnderflow (s : Calls) : CallAction → Prop
  | .copy _ r _ =>
      s.app.bufGenTime ≤ r.now ∧ r.rdyWaitStart ≤ r.rdyWaitEnd ∧ r.mcpyStart ≤ r.mcpyEnd
  | _ => True

/-- Readings with no work between them are the same, and the call succeeds. -/
def Tight (_ : Calls) : CallAction → Prop
  | .copy _ r res => r.now = r.rdyWaitStart ∧ r.rdyWaitEnd = r.mcpyStart ∧ res = .sent
  | _ => True

/-- The stamp lies between the end of the last message and the last reading; what has been reported
fits before that end. -/
structure Timed (start : UInt64) (s : Calls) : Prop where
  sentEnd_le : s.sentEnd ≤ s.app.bufGenTime
  stamp_le : s.app.bufGenTime ≤ s.clock
  reported : start.toNat + s.reportedTime ≤ s.sentEnd.toNat

/-- All time is reported. -/
structure Exact (start : UInt64) (s : Calls) : Prop where
  stamp : s.app.bufGenTime = s.sentEnd
  reported : start.toNat + s.reportedTime = s.sentEnd.toNat

theorem timed_init : Timed start (init start) := ⟨UInt64.le_refl _, UInt64.le_refl _, le_rfl⟩

theorem exact_init : Exact start (init start) := ⟨rfl, rfl⟩

/-- **The times of a message**, where no difference wraps around. -/
theorem time_callData (trackFcalls : Bool) {u : AppThread} {r : Readings}
    (h : u.bufGenTime ≤ r.now) (b : ℕ) :
    (callData trackFcalls u b r).genTime + (callData trackFcalls u b r).pinWait +
        u.bufGenTime.toNat + (r.rdyWaitStart.toNat - r.now.toNat) +
        (r.mcpyStart.toNat - r.rdyWaitEnd.toNat) = r.mcpyEnd.toNat := by
  have hg : (callData trackFcalls u b r).genTime =
      ((r.now - u.bufGenTime) + (r.mcpyEnd - r.mcpyStart)).toNat := rfl
  have hw : (callData trackFcalls u b r).pinWait = (r.rdyWaitEnd - r.rdyWaitStart).toNat := rfl
  have hmax := r.mcpyEnd.toNat_lt
  have h₁ := UInt64.le_iff_toNat_le.mp r.now_le
  have h₂ := UInt64.le_iff_toNat_le.mp r.wait
  have h₃ := UInt64.le_iff_toNat_le.mp r.wait_le
  have h₄ := UInt64.le_iff_toNat_le.mp r.mcpy
  have h₅ := UInt64.le_iff_toNat_le.mp h
  rw [hg, hw, UInt64.toNat_add, UInt64.toNat_sub_of_le _ _ h, UInt64.toNat_sub_of_le _ _ r.mcpy,
    UInt64.toNat_sub_of_le _ _ r.wait, Nat.mod_eq_of_lt (by omega)]
  omega

theorem reportedTime_copy_sent (b : ℕ) (r : Readings) :
    (s.copy trackFcalls b r .sent).reportedTime = s.reportedTime +
      ((callData trackFcalls s.app b r).genTime + (callData trackFcalls s.app b r).pinWait) := by
  have hsent : (s.copy trackFcalls b r .sent).sent = s.sent ++ [callData trackFcalls s.app b r] :=
    rfl
  rw [reportedTime, hsent, List.map_append, List.sum_append, List.map_singleton,
    List.sum_singleton, reportedTime]

theorem Timed.step (hs : Timed start s) (h : Calls.step trackFcalls s a = some t) :
    Timed start t := by
  rcases step_cases h with ⟨-, -, hb, e⟩ | ⟨b, r, res, -, hclock, rfl⟩
  · rw [e]
    exact ⟨hb ▸ hs.sentEnd_le, hb ▸ hs.stamp_le, hs.reported⟩
  · have hnow : s.app.bufGenTime ≤ r.now := UInt64.le_trans hs.stamp_le hclock
    have hwait : s.app.bufGenTime ≤ r.rdyWaitEnd :=
      UInt64.le_trans (UInt64.le_trans hnow r.now_le) r.wait
    have hend : s.app.bufGenTime ≤ r.mcpyEnd :=
      UInt64.le_trans (UInt64.le_trans hwait r.wait_le) r.mcpy
    cases res with
    | readFailed => exact ⟨hs.sentEnd_le, hwait, hs.reported⟩
    | sendFailed => exact ⟨UInt64.le_trans hs.sentEnd_le hend, UInt64.le_refl _, hs.reported⟩
    | sent =>
        refine ⟨UInt64.le_refl _, UInt64.le_refl _, ?_⟩
        have htime := time_callData trackFcalls hnow b
        have hle := UInt64.le_iff_toNat_le.mp hs.sentEnd_le
        have hrep := hs.reported
        rw [reportedTime_copy_sent]
        show _ ≤ r.mcpyEnd.toNat
        omega

theorem Timed.noUnderflow (hs : Timed start s) (h : Calls.step trackFcalls s a = some t) :
    NoUnderflow s a := by
  rcases step_cases h with ⟨hne, -⟩ | ⟨b, r, res, rfl, hclock, -⟩
  · cases a with
    | copy b r res => exact absurd rfl (hne b r res)
    | recordIns | countCall => trivial
  · exact ⟨UInt64.le_trans hs.stamp_le hclock, r.wait, r.mcpy⟩

theorem Exact.step (hs : Timed start s) (hx : Exact start s) (ha : Tight s a)
    (h : Calls.step trackFcalls s a = some t) : Exact start t := by
  rcases step_cases h with ⟨-, -, hb, e⟩ | ⟨b, r, res, rfl, hclock, rfl⟩
  · rw [e]
    exact ⟨hb.trans hx.stamp, hx.reported⟩
  · obtain ⟨h₁, h₂, rfl⟩ := ha
    refine ⟨rfl, ?_⟩
    have htime := time_callData trackFcalls (UInt64.le_trans hs.stamp_le hclock) b
    have hrep := hx.reported
    rw [hx.stamp, ← h₁, ← h₂, Nat.sub_self, Nat.sub_self] at htime
    rw [reportedTime_copy_sent]
    show _ = r.mcpyEnd.toNat
    omega

/-- **The reported times never count a moment twice.**  No difference wraps around; the times of
the messages sent fit between the stamp of the start and the end of the last one, and fill it where
no time passes outside what they measure and no call fails. -/
theorem times_never_double_count (trackFcalls : Bool) (start : UInt64) {as : List CallAction}
    {s : Calls} (h : exec (step trackFcalls) (init start) as = some s) :
    EveryStep (step trackFcalls) (init start) as NoUnderflow ∧
      start.toNat + s.reportedTime ≤ s.sentEnd.toNat ∧
      (EveryStep (step trackFcalls) (init start) as Tight →
        start.toNat + s.reportedTime = s.sentEnd.toNat) := by
  have hkeep : ∀ s a t, Timed start s → step trackFcalls s a = some t → Timed start t :=
    fun _ _ _ hs h => hs.step h
  refine ⟨?_, ?_, fun hT => ?_⟩
  · have hall : EveryState (step trackFcalls) (init start) as fun _ => True :=
      fun _ _ _ _ _ => trivial
    exact hall.everyStep timed_init hkeep (fun _ _ _ hs h _ => hs.noUnderflow h) h
  · exact (Reachable.invariant timed_init hkeep ⟨as, h⟩).reported
  · exact (hT.invariant (I := fun s => Timed start s ∧ Exact start s) ⟨timed_init, exact_init⟩
      (fun _ _ _ hs ha h => ⟨hs.1.step h, Exact.step hs.1 hs.2 ha h⟩) h).2.reported

/-- A call in time: 10 to generate, 5 to wait, 1 to copy. -/
def inTime : Readings :=
  ⟨110, 110, 115, 115, 116, by decide, by decide, by decide, by decide⟩

/-- After it, one that fails to read, one that fails to send, and one whose generation time begins
in the failed send. -/
def withFailures : List CallAction :=
  [.recordIns 9 3, .copy 24 inTime .sent,
    .copy 48 ⟨120, 121, 130, 130, 130, by decide, by decide, by decide, by decide⟩ .readFailed,
    .recordIns 5 2,
    .copy 24 ⟨140, 141, 143, 144, 150, by decide, by decide, by decide, by decide⟩ .sendFailed,
    .copy 24 ⟨170, 171, 175, 176, 180, by decide, by decide, by decide, by decide⟩ .sent]

theorem times_never_double_count_withFailures :
    ∃ s, exec (step false) (init 100) withFailures = some s ∧ s.reportedTime = 44 ∧
      s.sentEnd = 180 ∧
      EveryStep (step false) (init 100) withFailures NoUnderflow ∧
        (100 : UInt64).toNat + s.reportedTime ≤ s.sentEnd.toNat ∧
        (EveryStep (step false) (init 100) withFailures Tight →
          (100 : UInt64).toNat + s.reportedTime = s.sentEnd.toNat) :=
  ⟨_, rfl, rfl, rfl, times_never_double_count false 100 rfl⟩

end Calls

end BulletTime.Pintool
