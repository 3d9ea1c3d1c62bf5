import Mathlib.Order.Fin.Basic
import Mathlib.Data.Fintype.EquivFin
import BulletTime.Lib.LockOrder

/-!
# Balance — Locks

The locks of the consumer, and how `main`, the control thread and any number of receivers nest them.

* `initThreadData`, `logThreadStats`, `controlThread`, `writeDummy`, `listen`: the scopes of each
  function, without what it does under them.
* `rank`: the peak lock below the insertion lock below the data locks, the total lock below the
  print lock.
* `no_lock_deadlock`: no run of such calls deadlocks, by any threads in any interleaving.
* `locks_go_on`: where a call has not ended, some thread can go on.
-/

namespace BulletTime.Balance.Locks
open Transition
open LockOrder (Op Mode Nests Ascends)

inductive Lock where
  | insertion
  | data (i : ℕ)
  | peak
  | total
  | print
  deriving DecidableEq

/-- Who takes locks. -/
inductive Thread where
  | main
  | control
  | receiver (i : ℕ)
  deriving DecidableEq

/-- What a round of `Listen` finds: no balancing, or a thread that raises the peak or not, and
injects a delay or not. -/
inductive Balancing where
  | off
  | on (raises injects : Bool)
  deriving DecidableEq

/-- The calls that take locks, with what decides their scopes. -/
inductive Call where
  | initThreadData
  | logThreadStats
  | controlThread (threads : ℕ) (shadowLog : Bool)
  | listen (b : Balancing)
  deriving DecidableEq

/-! ### The scopes -/

/-- `{ unique_lock<...> lock(l); body }`, or a `lock_guard`. -/
def unique (l : Lock) (body : List (Op Lock)) : List (Op Lock) := LockOrder.lock l .exclusive body

/-- `{ shared_lock<...> lock(l); body }`. -/
def shared (l : Lock) (body : List (Op Lock)) : List (Op Lock) := LockOrder.lock l .shared body

def initThreadData : List (Op Lock) := unique .insertion [] ++ unique .peak [] ++ unique .total []

def logThreadStats : List (Op Lock) := shared .peak [] ++ shared .total (unique .print [])

/-- A period with balancing. -/
def controlThread (threads : ℕ) (shadowLog : Bool) : List (Op Lock) :=
  unique .peak
    (shared .insertion ((List.range threads).flatMap fun i => shared (.data i) []) ++
      if shadowLog then unique .print [] else [])

def writeDummy : List (Op Lock) := shared .total []

/-- The balancing of a round. -/
def balance : Balancing → List (Op Lock)
  | .off => []
  | .on raises injects =>
      shared .peak [] ++ shared .total [] ++ (if raises then unique .peak [] else []) ++
        if injects then writeDummy ++ shared .peak [] ++ shared .total [] else []

/-- A round of `Listen` of receiver `i`. -/
def listen (i : ℕ) (b : Balancing) : List (Op Lock) :=
  shared .total [] ++ balance b ++ shared .insertion (unique (.data i) [])

/-- The locks a thread takes in a call it makes. -/
def body : Thread → Call → Option (List (Op Lock))
  | .main, .initThreadData => some initThreadData
  | .control, .controlThread threads shadowLog => some (controlThread threads shadowLog)
  | .receiver i, .listen b => some (listen i b)
  | .receiver _, .logThreadStats => some logThreadStats
  | _, _ => none

/-! ### The order -/

def rank : Lock → Fin 4
  | .peak => 0
  | .insertion | .total => 1
  | .data _ => 2
  | .print => 3

theorem rank_insertion_lt_data (i : ℕ) : rank .insertion < rank (.data i) := by
  change (1 : Fin 4) < 2
  decide

theorem rank_peak_lt_data (i : ℕ) : rank .peak < rank (.data i) := by
  change (0 : Fin 4) < 2
  decide

section Nests
variable {hs : List Lock} {l : Lock} {ops : List (Op Lock)}

theorem nests_unique (hl : ∀ h ∈ hs, rank h < rank l) (h : Nests rank (l :: hs) ops) :
    Nests rank hs (unique l ops) := h.lock hl

theorem nests_shared (hl : ∀ h ∈ hs, rank h < rank l) (h : Nests rank (l :: hs) ops) :
    Nests rank hs (shared l ops) := h.lock hl

/-- A scope taken with no lock held. -/
theorem nests_unique_nil : Nests rank [] (unique l []) :=
  nests_unique (fun _ h => by cases h) .nil

theorem nests_shared_nil : Nests rank [] (shared l []) :=
  nests_shared (fun _ h => by cases h) .nil

theorem nests_balance (b : Balancing) : Nests rank [] (balance b) := by
  cases b with
  | off => exact .nil
  | on raises injects =>
      refine .append (.append (nests_shared_nil.append nests_shared_nil) ?_) ?_
      · split_ifs
        · exact nests_unique_nil
        · exact .nil
      · split_ifs
        · exact (nests_shared_nil.append nests_shared_nil).append nests_shared_nil
        · exact .nil

theorem nests_controlThread (threads : ℕ) (shadowLog : Bool) :
    Nests rank [] (controlThread threads shadowLog) := by
  refine nests_unique (fun _ h => by cases h) (.append ?_ ?_)
  · refine nests_shared (by decide) (.flatMap fun i _ => nests_shared ?_ .nil)
    intro h hh
    rcases List.mem_pair.mp hh with rfl | rfl
    · exact rank_insertion_lt_data i
    · exact rank_peak_lt_data i
  · split_ifs
    · exact nests_unique (by decide) .nil
    · exact .nil

/-- **Every call** takes its locks in the order of the rank. -/
theorem ascends_body (t : Thread) (c : Call) (ops : List (Op Lock)) (h : body t c = some ops) :
    Ascends rank [] ops := by
  refine Nests.ascends ?_
  cases t with
  | main =>
      cases c with
      | initThreadData =>
          cases h
          exact (nests_unique_nil.append nests_unique_nil).append nests_unique_nil
      | logThreadStats | controlThread | listen => cases h
  | control =>
      cases c with
      | controlThread threads shadowLog =>
          cases h
          exact nests_controlThread threads shadowLog
      | initThreadData | logThreadStats | listen => cases h
  | receiver i =>
      cases c with
      | logThreadStats =>
          cases h
          refine nests_shared_nil.append (nests_shared (fun _ h => by cases h) ?_)
          exact nests_unique (by decide) .nil
      | listen b =>
          cases h
          refine (nests_shared_nil.append (nests_balance b)).append
            (nests_shared (fun _ h => by cases h) (nests_unique ?_ .nil))
          intro h hh
          obtain rfl := List.mem_singleton.mp hh
          exact rank_insertion_lt_data i
      | initThreadData | controlThread => cases h

end Nests

/-! ### Runs -/

/-- **No lock deadlock**: in no state of any run is there a set of threads each waiting for a lock
that another of them holds, or awaits ahead of it. -/
theorem no_lock_deadlock (as : List (LockOrder.Action Thread Call)) :
    EveryState (LockOrder.State.step body) .init as fun s => ¬ s.Deadlock :=
  LockOrder.no_deadlock rank ascends_body as

/-- **A call that has not ended** never leaves every thread stuck: one can ask for its next lock or
release one, or is first in the queue of a lock that nobody holds. -/
theorem locks_go_on (as : List (LockOrder.Action Thread Call)) :
    EveryState (LockOrder.State.step body) .init as fun s => ∀ t, s.todo t ≠ [] →
      ∃ u, (LockOrder.State.step body s (.ask u)).isSome ∨
        (LockOrder.State.step body s (.release u)).isSome ∨
          ∃ l, (s.queue l).head? = some u ∧ s.holders l = [] := by
  intro bs cs s _ hs t ht
  exact (LockOrder.ordered_of_run ascends_body hs).can_go_on ht

end BulletTime.Balance.Locks
