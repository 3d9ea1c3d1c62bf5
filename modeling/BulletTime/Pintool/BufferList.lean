import BulletTime.Lib.FairRun
import Mathlib.Logic.Function.Basic

/-!
# Pintool — BufferList

`BUFFER_LIST_MANAGER`: a list under a lock, a semaphore that says there may be something on it, and
the exit event of `NotifyExit`.  Any number of threads put and get.  A lock scope, an operation on a
semaphore and a test for emptiness outside the lock are one step each.

* `Manager.push`, `Manager.setSem` and `Manager.take`: what the steps do to the manager.
* `step`: the calls, thread by thread; `Fires` is its inversion.
* `Inv`: the buffers got and those on the list are the ones put, in their order, and a list that is
  not empty has its semaphore set, or a thread on the way to set it.

`[about the source]`: the semaphore is set after the lock is given back, and cleared under it.
-/

namespace BulletTime.Pintool
open Transition

/-- `BUFFER_LIST_ELEMENT`.  Pointers are words. -/
structure BufferListElement where
  buf : UInt64
  numElements : UInt64
  appThreadRepresentitive : UInt64
  index : UInt32
  bufField : UInt32
  deriving DecidableEq

namespace BufferList

/-- `BUFFER_LIST_MANAGER`, with `none` for a null `_exitEvent`. -/
structure Manager where
  bufferList : List BufferListElement := []
  bufferSem : Bool := false
  exitEvent : Option Bool := none
  deriving DecidableEq

namespace Manager

/-- The constructor. -/
def new (notifyExitRequired : Bool) : Manager :=
  { exitEvent := if notifyExitRequired then some false else none }

/-- `(_exitEvent != NULL) && PIN_SemaphoreIsSet(_exitEvent)`. -/
def exiting (m : Manager) : Prop := m.exitEvent = some true

instance : DecidablePred exiting := fun m => inferInstanceAs (Decidable (m.exitEvent = some true))

/-- The lock scope of `PutBufferOnList`. -/
def push (e : BufferListElement) (m : Manager) : Manager :=
  { m with bufferList := m.bufferList ++ [e] }

/-- `PIN_SemaphoreSet(_bufferSem)`. -/
def setSem (m : Manager) : Manager := { m with bufferSem := true }

/-- The lock scope of `GetBufferFromList` on a list that is not empty: what is left behind the
front element, the semaphore cleared if that is nothing. -/
def take (m : Manager) (rest : List BufferListElement) : Manager :=
  { m with bufferList := rest, bufferSem := if rest = [] then false else m.bufferSem }

@[simp] theorem push_bufferList (e : BufferListElement) (m : Manager) :
    (m.push e).bufferList = m.bufferList ++ [e] := rfl

@[simp] theorem push_bufferSem (e : BufferListElement) (m : Manager) :
    (m.push e).bufferSem = m.bufferSem := rfl

@[simp] theorem push_exitEvent (e : BufferListElement) (m : Manager) :
    (m.push e).exitEvent = m.exitEvent := rfl

@[simp] theorem setSem_bufferList (m : Manager) : m.setSem.bufferList = m.bufferList := rfl

@[simp] theorem setSem_bufferSem (m : Manager) : m.setSem.bufferSem = true := rfl

@[simp] theorem setSem_exitEvent (m : Manager) : m.setSem.exitEvent = m.exitEvent := rfl

@[simp] theorem take_bufferList (m : Manager) (rest : List BufferListElement) :
    (m.take rest).bufferList = rest := rfl

@[simp] theorem take_exitEvent (m : Manager) (rest : List BufferListElement) :
    (m.take rest).exitEvent = m.exitEvent := rfl

theorem take_bufferSem_of_ne {m : Manager} {rest : List BufferListElement} (h : rest ≠ []) :
    (m.take rest).bufferSem = m.bufferSem :=
  if_neg h

end Manager

/-! ### The calls -/

/-- Where a thread is. -/
inductive Pc where
  /-- Outside the manager's calls. -/
  | idle
  /-- `PutBufferOnList`, past its test of the exit event. -/
  | pushing (e : BufferListElement)
  /-- `PutBufferOnList`, past its lock scope, which pushed buffer number `i`. -/
  | setting (i : ℕ)
  /-- `GetBufferFromList`, at the top of its loop. -/
  | top
  /-- It has found the exit event set, and looks at the list. -/
  | testing
  /-- At `PIN_SemaphoreWait`. -/
  | waiting
  /-- Past the wait, at the lock scope. -/
  | locking
  deriving DecidableEq

/-- Where the one call of `NotifyExit` is. -/
inductive NotifyPc where
  | notCalled
  /-- At the test of the loop. -/
  | testing
  /-- In the body of the loop. -/
  | setting
  /-- Behind the loop. -/
  | finalSet
  | returned
  deriving DecidableEq

variable {ι : Type*} [DecidableEq ι]

/-- The manager, the threads and the call of `NotifyExit`, with the buffers pushed and those got,
each in the order of the lock scopes. -/
structure State (ι : Type*) where
  manager : Manager
  pc : ι → Pc := fun _ => .idle
  /-- The last `GetBufferFromList` of the thread returned `NULL`. -/
  lastNull : ι → Bool := fun _ => false
  notifier : NotifyPc := .notCalled
  pushed : List BufferListElement := []
  got : List BufferListElement := []

/-- A call of a thread, the next step of the thread's call, or of `NotifyExit`. -/
inductive Act (ι : Type*) where
  | put (t : ι) (e : BufferListElement)
  | get (t : ι)
  | run (t : ι)
  | notify

namespace State

/-- Thread `t` goes on at `p`. -/
def goto (s : State ι) (t : ι) (p : Pc) : State ι := { s with pc := Function.update s.pc t p }

/-- `GetBufferFromList` returns `NULL` to thread `t`. -/
def returnNull (s : State ι) (t : ι) : State ι :=
  { s with pc := Function.update s.pc t .idle, lastNull := Function.update s.lastNull t true }

/-- The next step of a thread inside a call. -/
def run (s : State ι) (t : ι) : Option (State ι) :=
  match s.pc t with
  | .idle => none
  | .pushing e =>
      some { s with
        pc := Function.update s.pc t (.setting s.pushed.length)
        manager := s.manager.push e
        pushed := s.pushed ++ [e] }
  | .setting _ =>
      some { s with pc := Function.update s.pc t .idle, manager := s.manager.setSem }
  | .top => some (s.goto t (if s.manager.exiting then .testing else .waiting))
  | .testing => some (if s.manager.bufferList = [] then s.returnNull t else s.goto t .waiting)
  | .waiting => if s.manager.bufferSem then some (s.goto t .locking) else none
  | .locking =>
      match s.manager.bufferList with
      | e :: rest =>
          some { s with
            pc := Function.update s.pc t .idle
            manager := s.manager.take rest
            got := s.got ++ [e] }
      | [] => some (if s.manager.exiting then s.returnNull t else s.goto t .top)

/-- The next step of `NotifyExit`. -/
def notify (s : State ι) : Option (State ι) :=
  match s.notifier with
  | .notCalled =>
      some (if s.manager.exitEvent = none then { s with notifier := .returned }
        else { s with
          manager := { s.manager with exitEvent := some true }
          notifier := .testing })
  | .testing =>
      some { s with notifier := if s.manager.bufferList = [] then .finalSet else .setting }
  | .setting => some { s with manager := s.manager.setSem, notifier := .testing }
  | .finalSet => some { s with manager := s.manager.setSem, notifier := .returned }
  | .returned => none

end State

/-- One step: a call with its test of the exit event, or a step of a call. -/
def step (s : State ι) : Act ι → Option (State ι)
  | .put t e =>
      if s.pc t = .idle then some (if s.manager.exiting then s else s.goto t (.pushing e)) else none
  | .get t =>
      if s.pc t = .idle then
        some { s with
          pc := Function.update s.pc t .top
          lastNull := Function.update s.lastNull t false }
      else none
  | .run t => s.run t
  | .notify => s.notify

/-! ### Inversion of a step -/

/-- The steps of `GetBufferFromList` that leave the manager as it is, and what they found. -/
inductive Moves (m : Manager) : Pc → Pc → Prop where
  | exiting (h : m.exiting) : Moves m .top .testing
  | wait (h : ¬ m.exiting) : Moves m .top .waiting
  | drain (h : m.bufferList ≠ []) : Moves m .testing .waiting
  | wake (h : m.bufferSem = true) : Moves m .waiting .locking
  | repoll (h : m.bufferList = []) : Moves m .locking .top

theorem Moves.ne_setting {m : Manager} {p p' : Pc} (h : Moves m p p') (i : ℕ) :
    p ≠ .setting i := by
  cases h <;> exact Pc.noConfusion

/-- What a step does. -/
inductive Fires (s : State ι) : Act ι → State ι → Prop where
  | refused (t : ι) (e : BufferListElement) (h : s.pc t = .idle) (hx : s.manager.exiting) :
      Fires s (.put t e) s
  | putCall (t : ι) (e : BufferListElement) (h : s.pc t = .idle) :
      Fires s (.put t e) (s.goto t (.pushing e))
  | getCall (t : ι) (h : s.pc t = .idle) :
      Fires s (.get t) { s with
        pc := Function.update s.pc t .top
        lastNull := Function.update s.lastNull t false }
  | push (t : ι) (e : BufferListElement) (h : s.pc t = .pushing e) :
      Fires s (.run t) { s with
        pc := Function.update s.pc t (.setting s.pushed.length)
        manager := s.manager.push e
        pushed := s.pushed ++ [e] }
  | set (t : ι) (i : ℕ) (h : s.pc t = .setting i) :
      Fires s (.run t) { s with pc := Function.update s.pc t .idle, manager := s.manager.setSem }
  | move (t : ι) (p : Pc) (h : Moves s.manager (s.pc t) p) : Fires s (.run t) (s.goto t p)
  | null (t : ι) (h : s.pc t = .testing ∨ s.pc t = .locking) (hl : s.manager.bufferList = []) :
      Fires s (.run t) (s.returnNull t)
  | take (t : ι) (e : BufferListElement) (rest : List BufferListElement) (h : s.pc t = .locking)
      (hl : s.manager.bufferList = e :: rest) :
      Fires s (.run t) { s with
        pc := Function.update s.pc t .idle
        manager := s.manager.take rest
        got := s.got ++ [e] }
  | notifyNone (h : s.notifier = .notCalled) (hx : s.manager.exitEvent = none) :
      Fires s .notify { s with notifier := .returned }
  | notifyExit (h : s.notifier = .notCalled) (hx : s.manager.exitEvent ≠ none) :
      Fires s .notify { s with
        manager := { s.manager with exitEvent := some true }
        notifier := .testing }
  | notifyEmpty (h : s.notifier = .testing) (hl : s.manager.bufferList = []) :
      Fires s .notify { s with notifier := .finalSet }
  | notifyMore (h : s.notifier = .testing) (hl : s.manager.bufferList ≠ []) :
      Fires s .notify { s with notifier := .setting }
  | notifySet (h : s.notifier = .setting) :
      Fires s .notify { s with manager := s.manager.setSem, notifier := .testing }
  | notifyFinal (h : s.notifier = .finalSet) :
      Fires s .notify { s with manager := s.manager.setSem, notifier := .returned }

variable {s u : State ι} {a : Act ι}

theorem fires_of_run {t : ι} (h : s.run t = some u) : Fires s (.run t) u := by
  unfold State.run at h
  cases hp : s.pc t with
  | idle => simp [hp] at h
  | pushing e =>
      simp only [hp, Option.some.injEq] at h
      exact h ▸ .push t e hp
  | setting i =>
      simp only [hp, Option.some.injEq] at h
      exact h ▸ .set t i hp
  | top =>
      simp only [hp, Option.some.injEq] at h
      subst h
      split
      · rename_i hx
        exact .move t _ (hp ▸ .exiting hx)
      · rename_i hx
        exact .move t _ (hp ▸ .wait hx)
  | testing =>
      simp only [hp, Option.some.injEq] at h
      subst h
      split
      · rename_i hl
        exact .null t (.inl hp) hl
      · rename_i hl
        exact .move t _ (hp ▸ .drain hl)
  | waiting =>
      simp only [hp] at h
      split at h
      · rename_i hs
        cases h
        exact .move t _ (hp ▸ .wake hs)
      · cases h
  | locking =>
      cases hl : s.manager.bufferList with
      | cons e rest =>
          simp only [hp, hl, Option.some.injEq] at h
          exact h ▸ .take t e rest hp hl
      | nil =>
          simp only [hp, hl, Option.some.injEq] at h
          subst h
          split
          · exact .null t (.inr hp) hl
          · exact .move t _ (hp ▸ .repoll hl)

theorem fires_of_notify (h : s.notify = some u) : Fires s .notify u := by
  unfold State.notify at h
  cases hn : s.notifier with
  | notCalled =>
      simp only [hn, Option.some.injEq] at h
      subst h
      split
      · rename_i hx
        exact .notifyNone hn hx
      · rename_i hx
        exact .notifyExit hn hx
  | testing =>
      simp only [hn, Option.some.injEq] at h
      subst h
      split
      · rename_i hl
        exact .notifyEmpty hn hl
      · rename_i hl
        exact .notifyMore hn hl
  | setting =>
      simp only [hn, Option.some.injEq] at h
      exact h ▸ .notifySet hn
  | finalSet =>
      simp only [hn, Option.some.injEq] at h
      exact h ▸ .notifyFinal hn
  | returned => simp [hn] at h

/-- **What a step can do.** -/
theorem fires_of_step (h : step s a = some u) : Fires s a u := by
  cases a with
  | put t e =>
      simp only [step] at h
      split at h
      · rename_i hp
        simp only [Option.some.injEq] at h
        subst h
        split
        · rename_i hx
          exact .refused t e hp hx
        · exact .putCall t e hp
      · cases h
  | get t =>
      simp only [step] at h
      split at h
      · rename_i hp
        cases h
        exact .getCall t hp
      · cases h
  | run t => exact fires_of_run h
  | notify => exact fires_of_notify h

/-! ### The invariant -/

/-- A thread has pushed and not yet set the semaphore. -/
def State.Pending (s : State ι) : Prop := ∃ t i, s.pc t = .setting i

/-- The invariant. -/
structure Inv (s : State ι) : Prop where
  /-- The buffers got and those on the list are the ones pushed, in their order. -/
  fifo : s.got ++ s.manager.bufferList = s.pushed
  /-- A list that is not empty has its semaphore set, or will have. -/
  wake : s.manager.bufferList ≠ [] → s.manager.bufferSem = true ∨ s.Pending

/-- The manager as it is built, no call made. -/
def init (ι : Type*) (notifyExitRequired : Bool) : State ι := { manager := .new notifyExitRequired }

omit [DecidableEq ι] in
theorem inv_init (notifyExitRequired : Bool) : Inv (init ι notifyExitRequired) :=
  ⟨rfl, fun h => absurd rfl h⟩

/-- A thread that goes on leaves the others where they are. -/
theorem pending_update {t : ι} {p : Pc} (h : s.Pending) (ht : ∀ i, s.pc t ≠ .setting i) :
    ∃ t' i, Function.update s.pc t p t' = .setting i := by
  obtain ⟨t', i, h'⟩ := h
  have hne : t' ≠ t := fun he => ht i (he ▸ h')
  exact ⟨t', i, by rw [Function.update_of_ne hne]; exact h'⟩

theorem wake_goto {t : ι} {p : Pc} (hi : Inv s) (ht : ∀ i, s.pc t ≠ .setting i)
    (h : s.manager.bufferList ≠ []) : s.manager.bufferSem = true ∨ (s.goto t p).Pending :=
  (hi.wake h).imp id fun hp => pending_update hp ht

/-- **One step keeps the invariant.** -/
theorem inv_step (hi : Inv s) (h : step s a = some u) : Inv u := by
  have hf := fires_of_step h
  cases hf with
  | refused t e hp => exact hi
  | putCall t e hp => exact ⟨hi.fifo, wake_goto hi (by simp [hp])⟩
  | getCall t hp => exact ⟨hi.fifo, wake_goto hi (by simp [hp])⟩
  | push t e hp =>
      refine ⟨?_, fun _ => .inr ⟨t, s.pushed.length, Function.update_self ..⟩⟩
      rw [Manager.push_bufferList, ← List.append_assoc, hi.fifo]
  | set t i hp => exact ⟨hi.fifo, fun _ => .inl rfl⟩
  | move t p hm => exact ⟨hi.fifo, wake_goto hi hm.ne_setting⟩
  | null t hp hl => exact ⟨hi.fifo, fun hne => absurd hl hne⟩
  | take t e rest hp hl =>
      constructor
      · rw [Manager.take_bufferList, List.append_assoc, List.singleton_append, ← hl]
        exact hi.fifo
      · intro hne
        have hwake := wake_goto (t := t) (p := .idle) hi (by simp [hp]) (by simp [hl])
        exact hwake.imp (Manager.take_bufferSem_of_ne hne).trans id
  | notifyNone | notifyExit | notifyEmpty | notifyMore => exact ⟨hi.fifo, hi.wake⟩
  | notifySet | notifyFinal => exact ⟨hi.fifo, fun _ => .inl rfl⟩

theorem inv_of_reachable {notifyExitRequired : Bool}
    (h : Reachable step (init ι notifyExitRequired) s) : Inv s :=
  h.invariant (inv_init _) fun _ _ _ => inv_step

/-! ### Waiting -/

/-- The semaphore stays set while the list is not empty. -/
theorem bufferSem_stays (hs : s.manager.bufferSem = true) (h : step s a = some u)
    (hne : u.manager.bufferList ≠ []) : u.manager.bufferSem = true := by
  have hf := fires_of_step h
  cases hf with
  | set | notifySet | notifyFinal => rfl
  | take t e rest hp hl => exact (Manager.take_bufferSem_of_ne hne).trans hs
  | _ => exact hs

/-- A step of another thread leaves `t` where it is; one of `t` from outside the calls is a call. -/
theorem pc_stays {t : ι} (h : step s a = some u) (hp : s.pc t ≠ .idle)
    (ha : ∀ v, a = .run v → v ≠ t) :
    u.pc t = s.pc t := by
  have hf := fires_of_step h
  cases hf with
  | putCall v e hv | getCall v hv =>
      have hne : t ≠ v := fun he => hp (he ▸ hv)
      exact Function.update_of_ne hne ..
  | push v | set v | move v | null v | take v =>
      exact Function.update_of_ne (ha v rfl).symm ..
  | _ => rfl

/-- The next step of a put that has pushed. -/
theorem run_setting {t : ι} {i : ℕ} (h : s.pc t = .setting i) :
    step s (.run t) =
      some { s with pc := Function.update s.pc t .idle, manager := s.manager.setSem } := by
  simp only [step, State.run, h]

/-- The end of a wait. -/
theorem run_waiting {t : ι} (h : s.pc t = .waiting) (hs : s.manager.bufferSem = true) :
    step s (.run t) = some (s.goto t .locking) := by
  simp only [step, State.run, h, hs, if_true]

/-- The actions a fair run does not put off for ever: the steps inside the calls of the threads. -/
def IsRun (a : Act ι) : Prop := ∃ t, a = .run t

variable {notifyExitRequired : Bool}

/-- In a fair run a list that stays non-empty has its semaphore set some time. -/
theorem bufferSem_eventually (r : FairRun step IsRun (init ι notifyExitRequired)) {n : ℕ}
    (hne : (r.state n).manager.bufferList ≠ []) :
    ∃ m, n ≤ m ∧ (r.state m).manager.bufferSem = true := by
  rcases (inv_of_reachable (r.reachable n)).wake hne with hs | ⟨t, i, hp⟩
  · exact ⟨n, Nat.le_refl n, hs⟩
  · refine r.eventually (P := fun s => s.pc t = .setting i) (Q := fun _ => True)
      (G := fun s => s.manager.bufferSem = true) (a := .run t) ⟨t, rfl⟩ (fun _ _ => trivial) hp
      (fun s b u hp h _ hno => ?_) (fun s hp => ?_) (fun s u hp h => ?_)
    · refine (pc_stays h (by simp [hp]) fun v hb hv => hno ?_).trans hp
      rw [hb, hv, run_setting hp] at h
      cases h
      rfl
    · rw [run_setting hp]
      rfl
    · rw [run_setting hp] at h
      cases h
      rfl

/-- **A get does not wait for ever** on a list that stays non-empty. -/
theorem waiting_ends (r : FairRun step IsRun (init ι notifyExitRequired)) (t : ι) {n : ℕ}
    (hne : ∀ m, n ≤ m → (r.state m).manager.bufferList ≠ []) :
    ∃ m, n ≤ m ∧ (r.state m).pc t ≠ .waiting := by
  obtain ⟨k, hk, hs⟩ := bufferSem_eventually r (hne n (Nat.le_refl n))
  by_cases hpk : (r.state k).pc t = .waiting
  · obtain ⟨m, hm, hgo⟩ := r.eventually (n := k)
      (P := fun s => s.pc t = .waiting ∧ s.manager.bufferSem = true)
      (Q := fun s => s.manager.bufferList ≠ []) (G := fun s => s.pc t ≠ .waiting)
      (a := .run t) ⟨t, rfl⟩ (fun m hm => hne m (Nat.le_trans hk hm)) ⟨hpk, hs⟩
      (fun s b u hP h hne hno => ⟨not_not.mp hno, bufferSem_stays hP.2 h hne⟩)
      (fun s hP => by rw [run_waiting hP.1 hP.2]; rfl)
      (fun s u hP h => by
        rw [run_waiting hP.1 hP.2] at h
        cases h
        simp [State.goto])
    exact ⟨m, Nat.le_trans hk hm, hgo⟩
  · exact ⟨k, hk, hpk⟩

/-- One thread waits on a list that another fills, and gets the first of two buffers. -/
def served : List (Act Bool) :=
  [.get true, .run true, .put false ⟨1, 1, 0, 0, 0⟩, .run false, .run false,
    .put false ⟨2, 1, 0, 1, 0⟩, .run false, .run false, .run true, .run true, .notify]

/-- What `served` leaves behind. -/
def afterServed : State Bool := (exec step (init Bool true) served).get rfl

theorem exec_served : exec step (init Bool true) served = some afterServed :=
  (Option.some_get _).symm

/-- There are fair runs with a get at its wait and a list that is not empty from then on.  In this
one the other thread puts for ever past `NotifyExit`, and is refused. -/
theorem waiting_fairRun : ∃ r : FairRun step IsRun (init Bool true),
    (r.state 4).pc true = .waiting ∧ ∀ m, 4 ≤ m → (r.state m).manager.bufferList ≠ [] := by
  have hput : step afterServed (.put false ⟨3, 1, 0, 2, 0⟩) = some afterServed := rfl
  have hidle : ∀ a, IsRun a → step afterServed a = none := by
    rintro _ ⟨t, rfl⟩
    cases t <;> rfl
  have hlist : ∀ m < served.length, 4 ≤ m →
      ((exec step (init Bool true) (served.take m)).getD afterServed).manager.bufferList ≠ [] := by
    decide
  refine ⟨.idling exec_served hput hidle, rfl, fun m hm => ?_⟩
  rcases Nat.lt_or_ge m served.length with hlt | hge
  · exact hlist m hlt hm
  · rw [FairRun.idling_state_of_le exec_served hput hidle hge]
    exact List.cons_ne_nil _ _

/-- **The buffer list loses nothing and wakes its waiters**, for any threads and any order of their
steps: the buffers got are the first ones pushed, in their order and with all their fields, the
others are on the list; a list that is not empty has its semaphore set, or a put that has pushed and
not yet set it; and no get waits for ever on it. -/
theorem buffers_in_order_and_wakes (ι : Type*) [DecidableEq ι] (notifyExitRequired : Bool) :
    (∀ s, Reachable step (init ι notifyExitRequired) s →
      s.got <+: s.pushed ∧ s.got ++ s.manager.bufferList = s.pushed ∧
        (s.manager.bufferList ≠ [] → s.manager.bufferSem = true ∨ s.Pending)) ∧
    ∀ (r : FairRun step IsRun (init ι notifyExitRequired)) (t : ι) (n : ℕ),
      (∀ m, n ≤ m → (r.state m).manager.bufferList ≠ []) →
        ∃ m, n ≤ m ∧ (r.state m).pc t ≠ .waiting := by
  constructor
  · intro s hs
    have hi := inv_of_reachable hs
    exact ⟨⟨_, hi.fifo⟩, hi.fifo, hi.wake⟩
  · intro r t n hne
    exact waiting_ends r t hne

end BufferList

end BulletTime.Pintool
