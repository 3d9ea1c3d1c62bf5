import Mathlib.Algebra.BigOperators.Group.List.Basic
import Mathlib.Data.Nat.ModEq
import BulletTime.Lib.Double
import BulletTime.Lib.Tally

/-!
# Pintool — Statistics

The statistics an application thread keeps and the totals they are merged into when it exits.

* `AppThreadStatistics.apply`: the calls that change a thread's statistics.
* `get_history`, `insFreqs_history`: a thread's counters and frequencies, by its calls.
* `accumulate`: the merge, whose `insFreqs` is the library's (`insFreqs_accumulate`).
* `statistics_merge`: after `Init` and any threads, the totals by the calls of all of them,
  whatever the order.

`[about the source]`: `Init` sets every counter but the two of executed instructions, which are 0
from the construction on.
-/

namespace BulletTime.Pintool

/-! ### One thread -/

/-- `APP_THREAD_STATISTICS`, as its constructor leaves it by default. -/
@[ext]
structure AppThreadStatistics where
  numElementsProcessed : UInt64 := 0
  numBuffersFilled : UInt32 := 0
  numBuffersProcessedInAppThread : UInt32 := 0
  pauseInstructions : UInt64 := 0
  pthreadLockTime : UInt64 := 0
  insExecuted : UInt64 := 0
  memInsExecuted : UInt64 := 0
  insFreqs : Std.ExtTreeMap UInt64 UInt64 := ∅

namespace AppThreadStatistics

def addNumElementsProcessed (t : AppThreadStatistics) (numElementsProcessed : UInt64) :
    AppThreadStatistics :=
  { t with numElementsProcessed := t.numElementsProcessed + numElementsProcessed }

def incPauseInstructions (t : AppThreadStatistics) : AppThreadStatistics :=
  { t with pauseInstructions := t.pauseInstructions + 1 }

def addPthreadLockTime (t : AppThreadStatistics) (time : UInt64) : AppThreadStatistics :=
  { t with pthreadLockTime := t.pthreadLockTime + time }

/-- A missing key is set to 1, a present one incremented. -/
def incrementInsFreq (t : AppThreadStatistics) (insAddr : UInt64) : AppThreadStatistics :=
  { t with insFreqs := Tally.addAt t.insFreqs insAddr 1 }

def incrementInsExecuted (t : AppThreadStatistics) (ins memIns : UInt64) : AppThreadStatistics :=
  { t with insExecuted := t.insExecuted + ins, memInsExecuted := t.memInsExecuted + memIns }

def incrementNumBuffersFilled (t : AppThreadStatistics) : AppThreadStatistics :=
  { t with numBuffersFilled := t.numBuffersFilled + 1 }

def incrementNumBuffersProcessedInAppThread (t : AppThreadStatistics) : AppThreadStatistics :=
  { t with numBuffersProcessedInAppThread := t.numBuffersProcessedInAppThread + 1 }

/-- A call that changes a thread's statistics. -/
inductive Call where
  | incrementInsFreq (insAddr : UInt64)
  | incrementInsExecuted (ins memIns : UInt64)
  | addNumElementsProcessed (numElementsProcessed : UInt64)
  | incPauseInstructions
  | addPthreadLockTime (time : UInt64)
  | incrementNumBuffersFilled
  | incrementNumBuffersProcessedInAppThread
  deriving DecidableEq

def apply (t : AppThreadStatistics) : Call → AppThreadStatistics
  | .incrementInsFreq insAddr => t.incrementInsFreq insAddr
  | .incrementInsExecuted ins memIns => t.incrementInsExecuted ins memIns
  | .addNumElementsProcessed n => t.addNumElementsProcessed n
  | .incPauseInstructions => t.incPauseInstructions
  | .addPthreadLockTime time => t.addPthreadLockTime time
  | .incrementNumBuffersFilled => t.incrementNumBuffersFilled
  | .incrementNumBuffersProcessedInAppThread => t.incrementNumBuffersProcessedInAppThread

/-- The statistics of a new thread after the calls `cs`. -/
def history (cs : List Call) : AppThreadStatistics := cs.foldl apply {}

end AppThreadStatistics

open AppThreadStatistics (Call)

/-! ### The counters -/

/-- The counters both classes have. -/
inductive Scalar where
  | numElementsProcessed
  | numBuffersFilled
  | numBuffersProcessedInAppThread
  | pauseInstructions
  | pthreadLockTime
  | insExecuted
  | memInsExecuted
  deriving DecidableEq

/-- The number of bits of a counter. -/
def Scalar.width : Scalar → ℕ
  | .numBuffersFilled | .numBuffersProcessedInAppThread => 32
  | _ => 64

/-- What a call adds to a counter. -/
def AppThreadStatistics.Call.amount : Scalar → Call → ℕ
  | .numElementsProcessed, .addNumElementsProcessed n => n.toNat
  | .numBuffersFilled, .incrementNumBuffersFilled => 1
  | .numBuffersProcessedInAppThread, .incrementNumBuffersProcessedInAppThread => 1
  | .pauseInstructions, .incPauseInstructions => 1
  | .pthreadLockTime, .addPthreadLockTime time => time.toNat
  | .insExecuted, .incrementInsExecuted ins _ => ins.toNat
  | .memInsExecuted, .incrementInsExecuted _ memIns => memIns.toNat
  | _, _ => 0

namespace AppThreadStatistics

def get (t : AppThreadStatistics) : Scalar → ℕ
  | .numElementsProcessed => t.numElementsProcessed.toNat
  | .numBuffersFilled => t.numBuffersFilled.toNat
  | .numBuffersProcessedInAppThread => t.numBuffersProcessedInAppThread.toNat
  | .pauseInstructions => t.pauseInstructions.toNat
  | .pthreadLockTime => t.pthreadLockTime.toNat
  | .insExecuted => t.insExecuted.toNat
  | .memInsExecuted => t.memInsExecuted.toNat

theorem get_lt (t : AppThreadStatistics) (s : Scalar) : t.get s < 2 ^ s.width := by
  cases s
  case numBuffersFilled | numBuffersProcessedInAppThread => exact UInt32.toNat_lt _
  all_goals exact UInt64.toNat_lt _

/-- A call adds its amount to each counter. -/
theorem get_apply (t : AppThreadStatistics) (c : Call) (s : Scalar) :
    (t.apply c).get s = (t.get s + c.amount s) % 2 ^ s.width := by
  have hsame : t.get s = t.get s % 2 ^ s.width := (Nat.mod_eq_of_lt (t.get_lt s)).symm
  cases c with
  | incrementInsFreq => cases s <;> exact hsame
  | incrementInsExecuted =>
    cases s
    case insExecuted | memInsExecuted => exact UInt64.toNat_add _ _
    all_goals exact hsame
  | addNumElementsProcessed =>
    cases s
    case numElementsProcessed => exact UInt64.toNat_add _ _
    all_goals exact hsame
  | incPauseInstructions =>
    cases s
    case pauseInstructions => exact UInt64.toNat_add _ _
    all_goals exact hsame
  | addPthreadLockTime =>
    cases s
    case pthreadLockTime => exact UInt64.toNat_add _ _
    all_goals exact hsame
  | incrementNumBuffersFilled =>
    cases s
    case numBuffersFilled => exact UInt32.toNat_add _ _
    all_goals exact hsame
  | incrementNumBuffersProcessedInAppThread =>
    cases s
    case numBuffersProcessedInAppThread => exact UInt32.toNat_add _ _
    all_goals exact hsame

/-- The calls of a list add their amounts. -/
theorem get_foldl_apply (cs : List Call) (t : AppThreadStatistics) (s : Scalar) :
    (cs.foldl apply t).get s =
      (t.get s + (cs.map fun c => c.amount s).sum) % 2 ^ s.width := by
  induction cs generalizing t with
  | nil => exact (Nat.mod_eq_of_lt (t.get_lt s)).symm
  | cons c cs ih =>
    rw [List.foldl_cons, ih, get_apply, Nat.mod_add_mod, List.map_cons, List.sum_cons, add_assoc]

theorem get_foldl_apply_modEq (t : AppThreadStatistics) (cs : List Call) (s : Scalar) :
    (cs.foldl apply t).get s ≡ t.get s + (cs.map fun c => c.amount s).sum [MOD 2 ^ s.width] := by
  rw [get_foldl_apply]
  exact Nat.mod_modEq _ _

/-- **A counter is the sum of its calls' amounts**, modulo its width. -/
theorem get_history (cs : List Call) (s : Scalar) :
    (history cs).get s = (cs.map fun c => c.amount s).sum % 2 ^ s.width := by
  have h0 : ({} : AppThreadStatistics).get s = 0 := by
    cases s <;> rfl
  rw [history, get_foldl_apply, h0, Nat.zero_add]

/-- The number of calls at a key, as a map has it: no key without a call. -/
def ofCount (n : ℕ) : Option UInt64 := if n = 0 then none else some (UInt64.ofNat n)

theorem plus_ofCount (m n : ℕ) : Tally.plus (ofCount m) (ofCount n) = ofCount (m + n) := by
  rcases Nat.eq_zero_or_pos m with rfl | hm
  · rw [Nat.zero_add]
    exact Option.merge_none_left
  · rcases Nat.eq_zero_or_pos n with rfl | hn
    · exact Option.merge_none_right
    · rw [ofCount, ofCount, ofCount, if_neg hm.ne', if_neg hn.ne', if_neg (by omega),
        UInt64.ofNat_add]
      rfl

/-- A call, at every key. -/
theorem insFreqs_apply (t : AppThreadStatistics) (c : Call) (pc : UInt64) :
    (t.apply c).insFreqs[pc]? =
      Tally.plus t.insFreqs[pc]? (ofCount (if c = .incrementInsFreq pc then 1 else 0)) := by
  cases c with
  | incrementInsFreq insAddr =>
    refine (Tally.getElem?_addAt t.insFreqs insAddr pc 1).trans ?_
    by_cases h : insAddr = pc
    · rw [if_pos h, if_pos (congrArg _ h)]
      rfl
    · rw [if_neg h, if_neg fun he => h (Call.incrementInsFreq.inj he)]
      exact Option.merge_none_right.symm
  | _ => exact Option.merge_none_right.symm

/-- **A frequency is the number of calls with its pc.** -/
theorem insFreqs_history (cs : List Call) (pc : UInt64) :
    (history cs).insFreqs[pc]? = ofCount (cs.count (.incrementInsFreq pc)) := by
  have hrun : ∀ (t : AppThreadStatistics) (n : ℕ), t.insFreqs[pc]? = ofCount n →
      (cs.foldl apply t).insFreqs[pc]? = ofCount (n + cs.count (.incrementInsFreq pc)) := by
    induction cs with
    | nil =>
      intro t n h
      exact h
    | cons c cs ih =>
      intro t n h
      have hc : (t.apply c).insFreqs[pc]? =
          ofCount (n + if c = .incrementInsFreq pc then 1 else 0) := by
        rw [insFreqs_apply, h, plus_ofCount]
      rw [List.foldl_cons, ih _ _ hc, List.count_cons, beq_eq_decide]
      congr 1
      by_cases hp : c = .incrementInsFreq pc
      · simp only [hp, if_true, decide_true]
        omega
      · simp only [hp, if_false, decide_false, Bool.false_eq_true]
        omega
  have h0 : ({} : AppThreadStatistics).insFreqs[pc]? = ofCount 0 := Std.ExtTreeMap.getElem?_empty
  rw [history, hrun _ 0 h0, Nat.zero_add]

end AppThreadStatistics

/-! ### The totals -/

/-- A figure as `Dump` prints it, by `%lu` or by `%lf`. -/
inductive Figure where
  | lu (n : UInt64)
  | lf (x : Double)
  deriving DecidableEq

/-- `OVERALL_STATISTICS`, with the member initialisers. -/
@[ext]
structure OverallStatistics where
  numElementsProcessed : UInt64
  numBuffersFilled : UInt32
  numBuffersProcessedInAppThread : UInt32
  pauseInstructions : UInt64 := 0
  pthreadLockTime : UInt64 := 0
  progTime : UInt64 := 0
  insExecuted : UInt64 := 0
  memInsExecuted : UInt64 := 0
  timeSet : Bool := false
  insFreqs : Std.ExtTreeMap UInt64 UInt64 := ∅
  perThreadInsFreqs : List (Std.ExtTreeMap UInt64 UInt64) := []

/-- `sizeof(MEMREF)`. -/
def sizeofMemref : UInt64 := 24

namespace OverallStatistics

/-- The object as constructed: the fields without an initialiser hold anything. -/
def constructed (numElementsProcessed : UInt64)
    (numBuffersFilled numBuffersProcessedInAppThread : UInt32) : OverallStatistics :=
  { numElementsProcessed, numBuffersFilled, numBuffersProcessedInAppThread }

/-- `Init`, at the time `now`. -/
def init (o : OverallStatistics) (now : UInt64) : OverallStatistics :=
  { o with
    numElementsProcessed := 0
    numBuffersFilled := 0
    numBuffersProcessedInAppThread := 0
    pauseInstructions := 0
    pthreadLockTime := 0
    timeSet := false
    insFreqs := ∅
    perThreadInsFreqs := []
    progTime := now }

def endTime (o : OverallStatistics) (now : UInt64) : OverallStatistics :=
  if o.timeSet then o else { o with progTime := now - o.progTime, timeSet := true }

/-- The counters of `AccumulateAppThreadStatistics`. -/
def addCounters (o : OverallStatistics) (statistics : AppThreadStatistics) : OverallStatistics :=
  { o with
    insExecuted := o.insExecuted + statistics.insExecuted
    memInsExecuted := o.memInsExecuted + statistics.memInsExecuted
    numElementsProcessed := o.numElementsProcessed + statistics.numElementsProcessed
    numBuffersFilled := o.numBuffersFilled + statistics.numBuffersFilled
    numBuffersProcessedInAppThread :=
      o.numBuffersProcessedInAppThread + statistics.numBuffersProcessedInAppThread
    pauseInstructions := o.pauseInstructions + statistics.pauseInstructions
    pthreadLockTime := o.pthreadLockTime + statistics.pthreadLockTime }

/-- `AccumulateAppThreadStatistics`. -/
def accumulate (o : OverallStatistics) (statistics : AppThreadStatistics) : OverallStatistics :=
  let o := o.addCounters statistics
  let threadInsFreqs := statistics.insFreqs
  if threadInsFreqs.isEmpty then o
  else { o with
    perThreadInsFreqs := o.perThreadInsFreqs ++ [threadInsFreqs]
    insFreqs := Tally.merge o.insFreqs threadInsFreqs }

/-- The threads exit in the order of the list. -/
def accumulateAll (o : OverallStatistics) (ts : List AppThreadStatistics) : OverallStatistics :=
  ts.foldl accumulate o

/-- The lines of `Dump`. -/
def dump (o : OverallStatistics) : List (String × Figure) :=
  let dataRate := Double.fin (o.numElementsProcessed * sizeofMemref).toNat /
    Double.fin o.progTime.toNat / Double.fin 1000
  let totalTime := Double.fin o.progTime.toNat / Double.fin 1000000
  let pthreadLockE9 := Double.fin o.pthreadLockTime.toNat / Double.fin 1000000000
  [("Total Time Profiled (s)", .lf totalTime),
    ("Memory Accesses Processed", .lu o.numElementsProcessed),
    ("Raw Data Rate (GB/s)", .lf dataRate),
    ("Non-Memory Instructions Executed", .lu o.insExecuted),
    ("Memory Instructions Executed", .lu o.numElementsProcessed),
    ("Pause Instructions", .lu o.pauseInstructions),
    ("Pthread Lock Time (1e9 cycles)", .lf pthreadLockE9)]

def get (o : OverallStatistics) : Scalar → ℕ
  | .numElementsProcessed => o.numElementsProcessed.toNat
  | .numBuffersFilled => o.numBuffersFilled.toNat
  | .numBuffersProcessedInAppThread => o.numBuffersProcessedInAppThread.toNat
  | .pauseInstructions => o.pauseInstructions.toNat
  | .pthreadLockTime => o.pthreadLockTime.toNat
  | .insExecuted => o.insExecuted.toNat
  | .memInsExecuted => o.memInsExecuted.toNat

theorem get_lt (o : OverallStatistics) (s : Scalar) : o.get s < 2 ^ s.width := by
  cases s
  case numBuffersFilled | numBuffersProcessedInAppThread => exact UInt32.toNat_lt _
  all_goals exact UInt64.toNat_lt _

theorem get_addCounters (o : OverallStatistics) (t : AppThreadStatistics) (s : Scalar) :
    (o.addCounters t).get s = (o.get s + t.get s) % 2 ^ s.width := by
  cases s
  case numBuffersFilled | numBuffersProcessedInAppThread => exact UInt32.toNat_add _ _
  all_goals exact UInt64.toNat_add _ _

/-- Every counter of the thread is added, whether or not it has frequencies. -/
theorem get_accumulate (o : OverallStatistics) (t : AppThreadStatistics) (s : Scalar) :
    (o.accumulate t).get s = (o.get s + t.get s) % 2 ^ s.width := by
  rw [accumulate, ← get_addCounters]
  split
  · rfl
  · cases s <;> rfl

/-- The branch for a thread without frequencies changes nothing: the merge is the library's. -/
theorem insFreqs_accumulate (o : OverallStatistics) (t : AppThreadStatistics) :
    (o.accumulate t).insFreqs = Tally.merge o.insFreqs t.insFreqs := by
  rw [accumulate]
  split
  · rename_i h
    rw [Std.ExtTreeMap.isEmpty_iff.mp h, Tally.merge_empty]
    rfl
  · rfl

theorem get_accumulateAll (o : OverallStatistics) (ts : List AppThreadStatistics) (s : Scalar) :
    (o.accumulateAll ts).get s = (o.get s + (ts.map fun t => t.get s).sum) % 2 ^ s.width := by
  induction ts generalizing o with
  | nil => exact (Nat.mod_eq_of_lt (o.get_lt s)).symm
  | cons t ts ih =>
    rw [accumulateAll, List.foldl_cons, ← accumulateAll, ih, get_accumulate, Nat.mod_add_mod,
      List.map_cons, List.sum_cons, Nat.add_assoc]

theorem insFreqs_accumulateAll (o : OverallStatistics) (ts : List AppThreadStatistics) :
    (o.accumulateAll ts).insFreqs = Tally.mergeAll o.insFreqs (ts.map (·.insFreqs)) := by
  induction ts generalizing o with
  | nil => rfl
  | cons t ts ih =>
    rw [accumulateAll, List.foldl_cons, ← accumulateAll, ih, insFreqs_accumulate]
    rfl

/-! ### The merge of whole histories -/

/-- The totals after `Init` and the exits of threads with these histories, in this order. -/
def afterExits (o : OverallStatistics) (now : UInt64) (threads : List (List Call)) :
    OverallStatistics :=
  (o.init now).accumulateAll (threads.map AppThreadStatistics.history)

/-- The counters after the exits, for an object whose two uncleared counters are still 0. -/
theorem get_afterExits (n : UInt64) (f p : UInt32) (now : UInt64) (threads : List (List Call))
    (s : Scalar) : ((constructed n f p).afterExits now threads).get s =
      (threads.map fun cs => (AppThreadStatistics.history cs).get s).sum % 2 ^ s.width := by
  have h0 : ((constructed n f p).init now).get s = 0 := by
    cases s <;> rfl
  rw [afterExits, get_accumulateAll, h0, Nat.zero_add, List.map_map]
  rfl

/-- The sum of the threads' counters, by their calls. -/
theorem sum_get_history (threads : List (List Call)) (s : Scalar) :
    (threads.map fun cs => (AppThreadStatistics.history cs).get s).sum % 2 ^ s.width =
      (threads.map fun cs => (cs.map fun c => c.amount s).sum).sum % 2 ^ s.width := by
  rw [List.sum_nat_mod (threads.map fun cs => (cs.map fun c => c.amount s).sum), List.map_map]
  simp only [AppThreadStatistics.get_history]
  rfl

/-- A list of counts, added up key by key. -/
theorem foldl_plus_ofCount (ns : List ℕ) (n : ℕ) :
    (ns.map AppThreadStatistics.ofCount).foldl Tally.plus (AppThreadStatistics.ofCount n) =
      AppThreadStatistics.ofCount (n + ns.sum) := by
  induction ns generalizing n with
  | nil => rfl
  | cons k ns ih =>
    rw [List.map_cons, List.foldl_cons, AppThreadStatistics.plus_ofCount, ih, List.sum_cons,
      Nat.add_assoc]

theorem insFreqs_afterExits (n : UInt64) (f p : UInt32) (now : UInt64)
    (threads : List (List Call)) (pc : UInt64) :
    ((constructed n f p).afterExits now threads).insFreqs[pc]? =
      AppThreadStatistics.ofCount
        (threads.map fun cs => cs.count (.incrementInsFreq pc)).sum := by
  have h0 : ((constructed n f p).init now).insFreqs[pc]? = AppThreadStatistics.ofCount 0 :=
    Std.ExtTreeMap.getElem?_empty
  rw [afterExits, insFreqs_accumulateAll, Tally.getElem?_mergeAll, h0, List.map_map, List.map_map]
  simp only [Function.comp_def, AppThreadStatistics.insFreqs_history]
  have h := foldl_plus_ofCount (threads.map fun cs => cs.count (.incrementInsFreq pc)) 0
  rw [List.map_map, Nat.zero_add] at h
  exact h

/-- **Thread statistics merge independently of the exit order**, into the totals of all calls. -/
theorem statistics_merge (n : UInt64) (f p : UInt32) (now : UInt64) (threads : List (List Call)) :
    (∀ pc, ((constructed n f p).afterExits now threads).insFreqs[pc]? =
      AppThreadStatistics.ofCount
        (threads.map fun cs => cs.count (.incrementInsFreq pc)).sum) ∧
    (∀ s, ((constructed n f p).afterExits now threads).get s =
      (threads.map fun cs => (AppThreadStatistics.history cs).get s).sum % 2 ^ s.width ∧
      ((constructed n f p).afterExits now threads).get s =
      (threads.map fun cs => (cs.map fun c => c.amount s).sum).sum % 2 ^ s.width) ∧
    ∀ threads', threads.Perm threads' →
      ((constructed n f p).afterExits now threads').insFreqs =
        ((constructed n f p).afterExits now threads).insFreqs ∧
      ∀ s, ((constructed n f p).afterExits now threads').get s =
        ((constructed n f p).afterExits now threads).get s := by
  refine ⟨insFreqs_afterExits n f p now threads, ?_, ?_⟩
  · intro s
    rw [get_afterExits]
    exact ⟨rfl, sum_get_history threads s⟩
  intro threads' hp
  constructor
  · rw [afterExits, afterExits, insFreqs_accumulateAll, insFreqs_accumulateAll]
    exact (Tally.mergeAll_perm ((hp.map _).map _) _).symm
  · intro s
    rw [get_afterExits, get_afterExits, (hp.map _).sum_eq]

end OverallStatistics

end BulletTime.Pintool
