import BulletTime.Pintool.BufferList

/-!
# Pintool — BufferExit

`NotifyExit` on a manager built with `notifyExitRequired`: once it has returned, the semaphore
stays set, and no buffer is left on the list when every getter has ended.

* `Timely`: no buffer is pushed after the return, and none is on the list at the last set.
* `ExitInv`: the runs whose steps are timely keep the list empty and the semaphore set.
* `exit_releases_and_drains`: such runs have both properties in every state, and among the runs in
  which all calls have come to their end no others have.

`[about the source]`: a put tests the exit event before it pushes, and the lock scope of a get
clears the semaphore behind the last buffer whether or not the exit event is set.
-/

namespace BulletTime.Pintool.BufferList
open Transition

variable {ι : Type*} [DecidableEq ι] {s u : State ι} {a : Act ι} {getters : ι → Prop}

/-- Every getter has ended: its last `GetBufferFromList` returned `NULL`. -/
def State.Ended (getters : ι → Prop) (s : State ι) : Prop := ∀ t, getters t → s.lastNull t = true

/-- A buffer is on the list whose put has returned. -/
def State.Left (s : State ι) : Prop :=
  ∃ i, s.got.length ≤ i ∧ i < s.pushed.length ∧ ∀ t, s.pc t ≠ .setting i

/-- Once `NotifyExit` has returned, the semaphore is set, and not every getter has ended while a
buffer is left. -/
def State.ExitDone (getters : ι → Prop) (s : State ι) : Prop :=
  s.notifier = .returned → s.manager.bufferSem = true ∧ ¬ (s.Ended getters ∧ s.Left)

/-- A put does not push after `NotifyExit` has returned, and the list is empty when `NotifyExit`
sets the semaphore for the last time. -/
def Timely (s : State ι) : Act ι → Prop
  | .run t => (∃ e, s.pc t = .pushing e) → s.notifier ≠ .returned
  | .notify => s.notifier = .finalSet → s.manager.bufferList = []
  | .put _ _ | .get _ => True

/-! ### Timely runs -/

/-- The invariant of the timely runs. -/
structure ExitInv (s : State ι) : Prop extends Inv s where
  event : s.manager.exitEvent ≠ none
  quiet : s.notifier = .returned → s.manager.bufferSem = true ∧ s.manager.bufferList = []

theorem exitInv_step (hi : ExitInv s) (hc : Timely s a) (h : step s a = some u) : ExitInv u := by
  have hinv := inv_step hi.toInv h
  have hf := fires_of_step h
  refine ⟨hinv, ?_, ?_⟩
  · cases hf with
    | notifyExit => exact Option.some_ne_none true
    | _ => exact hi.event
  · cases hf with
    | push t e hp => exact fun hn => absurd hn (hc ⟨e, hp⟩)
    | set => exact fun hn => ⟨rfl, (hi.quiet hn).2⟩
    | take t e rest hp hl =>
        intro hn
        rw [(hi.quiet hn).2] at hl
        cases hl
    | notifyNone hn hx => exact absurd hx hi.event
    | notifyExit | notifyEmpty | notifyMore | notifySet => exact NotifyPc.noConfusion
    | notifyFinal hn => exact fun _ => ⟨rfl, hc hn⟩
    | _ => exact hi.quiet

omit [DecidableEq ι] in
/-- Nothing is left where the list is empty. -/
theorem left_of_ne_nil (hi : Inv s) (h : s.Left) : s.manager.bufferList ≠ [] := by
  obtain ⟨i, hle, hlt, -⟩ := h
  intro hl
  have hlen := congrArg List.length hi.fifo
  rw [hl, List.append_nil] at hlen
  omega

omit [DecidableEq ι] in
theorem exitDone_of_exitInv (hi : ExitInv s) : s.ExitDone getters := by
  intro hn
  obtain ⟨hs, hl⟩ := hi.quiet hn
  exact ⟨hs, fun h => left_of_ne_nil hi.toInv h.2 hl⟩

/-! ### The other runs -/

/-- Every getter has ended, and every put that pushed has returned. -/
def State.Finished (getters : ι → Prop) (s : State ι) : Prop := s.Ended getters ∧ ¬ s.Pending

/-- A buffer is on the list after the return of `NotifyExit`. -/
def State.Late (s : State ι) : Prop := s.notifier = .returned ∧ s.manager.bufferList ≠ []

theorem late_of_not_timely (hc : ¬ Timely s a) (h : step s a = some u) : u.Late := by
  have hf := fires_of_step h
  cases hf with
  | push t e hp =>
      refine ⟨?_, by simp⟩
      by_contra hn
      exact hc fun _ => hn
  | notifyFinal hn => exact ⟨rfl, fun hl => hc fun _ => hl⟩
  | refused | putCall | getCall => exact absurd trivial hc
  | set t i hp => exact absurd (fun ⟨e, he⟩ => by rw [hp] at he; cases he) hc
  | move t p hm => exact absurd (fun ⟨e, he⟩ => by rw [he] at hm; cases hm) hc
  | null t hp => exact absurd (fun ⟨e, he⟩ => by rw [he] at hp; simp at hp) hc
  | take t e rest hp => exact absurd (fun ⟨e, he⟩ => by rw [hp] at he; cases he) hc
  | notifyNone hn | notifyExit hn | notifyEmpty hn | notifyMore hn | notifySet hn =>
      exact absurd (fun he => by rw [hn] at he; cases he) hc

/-- The last late buffer is taken at the price of the semaphore. -/
theorem late_stays (hl : s.Late) (h : step s a = some u) (hP : u.ExitDone getters) : u.Late := by
  obtain ⟨hn, hne⟩ := hl
  have hf := fires_of_step h
  cases hf with
  | push => exact ⟨hn, by simp⟩
  | take t e rest hp he =>
      refine ⟨hn, fun hr => ?_⟩
      subst hr
      exact Bool.false_ne_true (hP hn).1
  | refused | putCall | getCall | set | move | null => exact ⟨hn, hne⟩
  | notifyNone hn' | notifyExit hn' | notifyEmpty hn' | notifyMore hn' | notifySet hn'
  | notifyFinal hn' =>
      rw [hn'] at hn
      cases hn

omit [DecidableEq ι] in
theorem left_of_late (hi : Inv s) (hl : s.Late) (hp : ¬ s.Pending) : s.Left := by
  have hlen := congrArg List.length hi.fifo
  have hpos := List.length_pos_iff.mpr hl.2
  rw [List.length_append] at hlen
  exact ⟨s.got.length, Nat.le_refl _, by omega, fun t ht => hp ⟨t, _, ht⟩⟩

/-! ### Exit -/

/-- **Exit drains the list and releases every waiter** in the runs whose steps are timely, for any
threads and any order of their steps; a run that has come to its end does so in no other case. -/
theorem exit_releases_and_drains (getters : ι → Prop) (as : List (Act ι)) :
    (EveryStep step (init ι true) as Timely →
      EveryState step (init ι true) as (State.ExitDone getters)) ∧
    ∀ s, exec step (init ι true) as = some s → s.Finished getters →
      EveryState step (init ι true) as (State.ExitDone getters) →
        EveryStep step (init ι true) as Timely := by
  constructor
  · intro hc
    have hinit : ExitInv (init ι true) := ⟨inv_init true, Option.some_ne_none false, nofun⟩
    exact hc.everyState hinit (fun _ _ _ => exitInv_step) fun _ => exitDone_of_exitInv
  · intro s h hfin hP
    by_contra hc
    have hlate : s.Late := (not_everyStep.mp hc).reaches_of_everyState (inv_init true)
      (fun _ _ _ => inv_step) (fun _ _ _ _ => fun hc h _ => late_of_not_timely hc h)
      (fun _ _ _ _ => late_stays) hP h
    have hi : Inv s := inv_of_reachable ⟨as, h⟩
    exact (hP.last h hlate.1).2 ⟨hfin.1, left_of_late hi hlate hfin.2⟩

/-- A buffer of one record. -/
def oneRecord : BufferListElement := ⟨4096, 1, 8192, 0, 0⟩

/-- A put that tests the exit event before it is set, and a get that comes after the return. -/
def lateTake : List (Act (Fin 3)) :=
  [.get 2, .run 2, .put 0 oneRecord, .notify, .notify, .notify, .run 0, .run 0,
    .get 1, .run 1, .run 1, .run 1, .run 1]

/-- The same put, and a get that ends before it pushes. -/
def latePush : List (Act (Fin 3)) :=
  [.put 0 oneRecord, .notify, .notify, .notify, .get 1, .run 1, .run 1, .run 0, .run 0]

/-- After the return the semaphore is cleared and a get left at its wait, or a buffer is left with
every getter ended. -/
theorem exit_strands_waiter_and_buffer :
    (∃ s ∈ exec step (init (Fin 3) true) lateTake,
      s.notifier = .returned ∧ s.manager.bufferSem = false ∧ s.pc 2 = .waiting) ∧
    ∃ s ∈ exec step (init (Fin 3) true) latePush,
      s.notifier = .returned ∧ s.Ended (· = 1) ∧ s.Left := by
  constructor
  · decide
  · have h : ∃ s ∈ exec step (init (Fin 3) true) latePush, s.notifier = .returned ∧
        s.lastNull 1 = true ∧ s.got.length = 0 ∧ s.pushed.length = 1 ∧
          ∀ t, s.pc t ≠ .setting 0 := by decide
    obtain ⟨s, hs, hn, hnull, hgot, hpushed, hpc⟩ := h
    exact ⟨s, hs, hn, fun t ht => ht ▸ hnull, 0, Nat.le_of_eq hgot, hpushed ▸ Nat.one_pos, hpc⟩

end BulletTime.Pintool.BufferList
