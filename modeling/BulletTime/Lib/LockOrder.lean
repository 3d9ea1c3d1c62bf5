import Mathlib.Data.List.Basic
import Mathlib.Logic.Function.Basic
import Mathlib.Order.WellFounded
import BulletTime.Lib.Transition

/-!
# Lib — LockOrder

Threads that take shared and exclusive locks in the order of a rank.

* `Op` and `lock`: what a thread does with locks; `lock l m body` is `body` under a lock.
* `step`: a thread enters a call, asks for its next lock, is granted it, or releases one.  A lock
  goes to any waiting thread its holders admit, so that every policy of granting is among the runs.
* `Ascends`: every lock is asked for above all those held, and none is held at the end.  `Nests` is
  the same of a part of a call, and goes along with `lock`.
* `Deadlock`: threads each waiting for a lock that another of them holds, or awaits ahead of it.
* `no_deadlock`: there is none in any run of calls that ascend.
* `can_go_on`: as long as a call has not ended, some thread can go on.
-/

namespace LockOrder
open Transition

inductive Mode where
  | shared
  | exclusive
  deriving DecidableEq

inductive Op (L : Type*) where
  | acquire (l : L) (m : Mode)
  | release (l : L)
  deriving DecidableEq

variable {T L C R : Type*}

/-- `body` while holding `l`. -/
def lock (l : L) (m : Mode) (body : List (Op L)) : List (Op L) :=
  .acquire l m :: (body ++ [.release l])

structure State (T L : Type*) where
  /-- What is left of a thread's call. -/
  todo : T → List (Op L)
  held : T → List L
  holders : L → List (T × Mode)
  /-- The threads waiting for a lock, in the order they came. -/
  queue : L → List T

inductive Action (T C : Type*) where
  | enter (t : T) (c : C)
  | ask (t : T)
  | grant (t : T)
  | release (t : T)

namespace State

/-- No thread has entered a call. -/
def init : State T L where
  todo _ := []
  held _ := []
  holders _ := []
  queue _ := []

/-- The holders of a lock admit another one in mode `m`. -/
def Admits (s : State T L) (l : L) : Mode → Prop
  | .shared => ∀ h ∈ s.holders l, h.2 = .shared
  | .exclusive => s.holders l = []

instance (s : State T L) (l : L) : ∀ m, Decidable (s.Admits l m)
  | .shared => inferInstanceAs (Decidable (∀ h ∈ s.holders l, h.2 = .shared))
  | .exclusive => decidable_of_iff ((s.holders l).isEmpty = true) List.isEmpty_iff

variable [DecidableEq T] [DecidableEq L]

/-- A step of a thread; `body t c` is the call `c` of thread `t`, if it makes such a call. -/
def step (body : T → C → Option (List (Op L))) (s : State T L) : Action T C → Option (State T L)
  | .enter t c =>
      match s.todo t, body t c with
      | [], some ops => some { s with todo := Function.update s.todo t ops }
      | _, _ => none
  | .ask t =>
      match s.todo t with
      | .acquire l _ :: _ =>
          if t ∈ s.queue l then none
          else some { s with queue := Function.update s.queue l (s.queue l ++ [t]) }
      | _ => none
  | .grant t =>
      match s.todo t with
      | .acquire l m :: ops =>
          if t ∈ s.queue l ∧ s.Admits l m then
            some
              { todo := Function.update s.todo t ops
                held := Function.update s.held t (l :: s.held t)
                holders := Function.update s.holders l ((t, m) :: s.holders l)
                queue := Function.update s.queue l ((s.queue l).filter (· ≠ t)) }
          else none
      | _ => none
  | .release t =>
      match s.todo t with
      | .release l :: ops =>
          some
            { s with
              todo := Function.update s.todo t ops
              held := Function.update s.held t ((s.held t).erase l)
              holders := Function.update s.holders l ((s.holders l).filter (·.1 ≠ t)) }
      | _ => none

/-- `u` holds `l`, or came to wait for it before `t`. -/
def Blocks (s : State T L) (l : L) (u t : T) : Prop :=
  (∃ m, (u, m) ∈ s.holders l) ∨ u ∈ s.queue l ∧ (s.queue l).idxOf u < (s.queue l).idxOf t

/-- Some threads each wait for a lock that another of them blocks. -/
def Deadlock (s : State T L) : Prop :=
  ∃ S : Set T, S.Nonempty ∧ ∀ t ∈ S, ∃ l, t ∈ s.queue l ∧ ∃ u ∈ S, u ≠ t ∧ s.Blocks l u t

end State

/-! ### Calls in the order of a rank -/

section Rank
variable [DecidableEq L] [Preorder R] {rank : L → R}

/-- With `hs` held: every lock is asked for above all those held, and none is held at the end. -/
def Ascends (rank : L → R) : List L → List (Op L) → Prop
  | hs, [] => hs = []
  | hs, .acquire l _ :: ops => (∀ h ∈ hs, rank h < rank l) ∧ Ascends rank (l :: hs) ops
  | hs, .release l :: ops => Ascends rank (hs.erase l) ops

/-- A part of a call that ascends from `hs` and comes back to it. -/
def Nests (rank : L → R) (hs : List L) (ops : List (Op L)) : Prop :=
  ∀ rest, Ascends rank hs rest → Ascends rank hs (ops ++ rest)

variable {hs : List L} {l : L} {m : Mode} {ops ops' : List (Op L)}

theorem Nests.ascends (h : Nests rank [] ops) : Ascends rank [] ops := by
  have hall := h [] rfl
  rwa [List.append_nil] at hall

theorem Nests.nil : Nests rank hs [] := fun _ h => h

theorem Nests.append (h : Nests rank hs ops) (h' : Nests rank hs ops') :
    Nests rank hs (ops ++ ops') := by
  intro rest hrest
  rw [List.append_assoc]
  exact h _ (h' _ hrest)

/-- **A scope** nests where its lock is above those held. -/
theorem Nests.lock (hl : ∀ h ∈ hs, rank h < rank l) (h : Nests rank (l :: hs) ops) :
    Nests rank hs (lock l m ops) := by
  intro rest hrest
  refine ⟨hl, ?_⟩
  rw [List.append_eq, List.append_assoc]
  refine h _ ?_
  change Ascends rank ((l :: hs).erase l) rest
  rwa [List.erase_cons_head]

theorem Nests.flatMap {α : Type*} {f : α → List (Op L)} {as : List α}
    (h : ∀ a ∈ as, Nests rank hs (f a)) : Nests rank hs (as.flatMap f) := by
  induction as with
  | nil => exact .nil
  | cons a as ih =>
      rw [List.flatMap_cons]
      exact (h a List.mem_cons_self).append (ih fun b hb => h b (List.mem_cons_of_mem a hb))

end Rank

/-! ### The invariant -/

namespace State

section Invariant
variable [DecidableEq L] [Preorder R] {rank : L → R} {s s' : State T L}

/-- Every call ascends from what its thread holds, and who is in a queue is about to take that
lock. -/
structure Ordered (rank : L → R) (s : State T L) : Prop where
  ascends : ∀ t, Ascends rank (s.held t) (s.todo t)
  holders : ∀ l h, h ∈ s.holders l → l ∈ s.held h.1
  queue : ∀ l t, t ∈ s.queue l → ∃ m ops, s.todo t = .acquire l m :: ops

theorem ordered_init : Ordered rank (init : State T L) := by
  refine ⟨fun _ => rfl, fun _ _ h => ?_, fun _ _ h => ?_⟩
  · cases h
  · cases h

/-- A waiting thread holds only locks below the one it waits for. -/
theorem Ordered.rank_lt (h : Ordered rank s) {t : T} {k l : L} (hk : k ∈ s.held t)
    (hl : t ∈ s.queue l) : rank k < rank l := by
  obtain ⟨m, ops, htodo⟩ := h.queue l t hl
  have hasc := h.ascends t
  rw [htodo] at hasc
  exact hasc.1 k hk

/-- A thread waits for one lock at a time. -/
theorem Ordered.queue_unique (h : Ordered rank s) {t : T} {k l : L} (hk : t ∈ s.queue k)
    (hl : t ∈ s.queue l) : k = l := by
  obtain ⟨m, ops, hm⟩ := h.queue k t hk
  obtain ⟨m', ops', hm'⟩ := h.queue l t hl
  rw [hm] at hm'
  cases hm'
  rfl

variable [DecidableEq T] {body : T → C → Option (List (Op L))}

theorem Ordered.enter (h : Ordered rank s)
    (hbody : ∀ t c ops, body t c = some ops → Ascends rank [] ops) {t : T} {c : C}
    (hs : step body s (.enter t c) = some s') : Ordered rank s' := by
  simp only [step] at hs
  split at hs
  · rename_i ops htodo hops
    cases hs
    have hheld : s.held t = [] := by
      have hasc := h.ascends t
      rwa [htodo] at hasc
    refine ⟨(Function.forall_update_iff _ fun u ops => Ascends rank (s.held u) ops).mpr
      ⟨?_, fun u _ => h.ascends u⟩, h.holders, fun l u hu => ?_⟩
    · rw [hheld]
      exact hbody t c ops hops
    · have hut : u ≠ t := by
        rintro rfl
        obtain ⟨m, rest, hu'⟩ := h.queue l u hu
        rw [htodo] at hu'
        cases hu'
      dsimp only
      rw [Function.update_of_ne hut]
      exact h.queue l u hu
  · cases hs

theorem Ordered.ask (h : Ordered rank s) {t : T} (hs : step body s (.ask t) = some s') :
    Ordered rank s' := by
  simp only [step] at hs
  split at hs
  · rename_i l m ops htodo
    obtain ⟨-, ⟨⟩⟩ := Option.ite_none_left_eq_some.mp hs
    refine ⟨h.ascends, h.holders, (Function.forall_update_iff _ fun k q => ∀ u ∈ q,
      ∃ m ops, s.todo u = .acquire k m :: ops).mpr ⟨fun u hu => ?_, fun k _ => h.queue k⟩⟩
    rcases List.mem_append.mp hu with hu | hu
    · exact h.queue l u hu
    · obtain rfl := List.mem_singleton.mp hu
      exact ⟨m, ops, htodo⟩
  · cases hs

theorem Ordered.grant (h : Ordered rank s) {t : T} (hs : step body s (.grant t) = some s') :
    Ordered rank s' := by
  simp only [step] at hs
  split at hs
  · rename_i l m ops htodo
    obtain ⟨-, ⟨⟩⟩ := Option.ite_none_right_eq_some.mp hs
    have hasc := h.ascends t
    rw [htodo] at hasc
    refine ⟨fun u => ?_, fun k g hg => ?_, fun k u hu => ?_⟩
    · dsimp only
      by_cases hut : u = t
      · subst hut
        rw [Function.update_self, Function.update_self]
        exact hasc.2
      · rw [Function.update_of_ne hut, Function.update_of_ne hut]
        exact h.ascends u
    · -- the holders of `l` are the old ones and `t`
      have hmem : k ∈ s.held g.1 ∨ k = l ∧ g.1 = t := by
        dsimp only at hg
        by_cases hk : k = l
        · subst hk
          rw [Function.update_self] at hg
          rcases List.mem_cons.mp hg with rfl | hg
          · exact .inr ⟨rfl, rfl⟩
          · exact .inl (h.holders k g hg)
        · rw [Function.update_of_ne hk] at hg
          exact .inl (h.holders k g hg)
      dsimp only
      by_cases hgt : g.1 = t
      · rw [hgt, Function.update_self]
        rcases hmem with hmem | ⟨rfl, -⟩
        · rw [hgt] at hmem
          exact List.mem_cons_of_mem l hmem
        · exact List.mem_cons_self
      · rw [Function.update_of_ne hgt]
        exact hmem.resolve_right fun hk => hgt hk.2
    · -- `t` has left the queue of `l`, and waits in no other
      have hold : u ∈ s.queue k ∧ (k = l → u ≠ t) := by
        dsimp only at hu
        by_cases hk : k = l
        · subst hk
          rw [Function.update_self] at hu
          obtain ⟨hu, hne⟩ := List.mem_filter.mp hu
          exact ⟨hu, fun _ => of_decide_eq_true hne⟩
        · rw [Function.update_of_ne hk] at hu
          exact ⟨hu, fun h => absurd h hk⟩
      obtain ⟨m', ops', hu'⟩ := h.queue k u hold.1
      have hut : u ≠ t := by
        rintro rfl
        rw [htodo] at hu'
        cases hu'
        exact hold.2 rfl rfl
      dsimp only
      rw [Function.update_of_ne hut]
      exact ⟨m', ops', hu'⟩
  · cases hs

theorem Ordered.release (h : Ordered rank s) {t : T} (hs : step body s (.release t) = some s') :
    Ordered rank s' := by
  simp only [step] at hs
  split at hs
  · rename_i l ops htodo
    cases hs
    have hasc := h.ascends t
    rw [htodo] at hasc
    refine ⟨fun u => ?_, fun k g hg => ?_, fun k u hu => ?_⟩
    · dsimp only
      by_cases hut : u = t
      · subst hut
        rw [Function.update_self, Function.update_self]
        exact hasc
      · rw [Function.update_of_ne hut, Function.update_of_ne hut]
        exact h.ascends u
    · -- `t` is no holder of `l` any more
      have hmem : k ∈ s.held g.1 ∧ (k = l → g.1 ≠ t) := by
        dsimp only at hg
        by_cases hk : k = l
        · subst hk
          rw [Function.update_self] at hg
          obtain ⟨hg, hne⟩ := List.mem_filter.mp hg
          exact ⟨h.holders k g hg, fun _ => of_decide_eq_true hne⟩
        · rw [Function.update_of_ne hk] at hg
          exact ⟨h.holders k g hg, fun h => absurd h hk⟩
      dsimp only
      by_cases hgt : g.1 = t
      · have hkl : k ≠ l := fun hk => hmem.2 hk hgt
        rw [hgt, Function.update_self]
        rw [hgt] at hmem
        exact (List.mem_erase_of_ne hkl).mpr hmem.1
      · rw [Function.update_of_ne hgt]
        exact hmem.1
    · -- a thread that waits is not the one that releases
      obtain ⟨m, rest, hu'⟩ := h.queue k u hu
      have hut : u ≠ t := by
        rintro rfl
        rw [htodo] at hu'
        cases hu'
      dsimp only
      rw [Function.update_of_ne hut]
      exact ⟨m, rest, hu'⟩
  · cases hs

theorem Ordered.step (h : Ordered rank s)
    (hbody : ∀ t c ops, body t c = some ops → Ascends rank [] ops) {a : Action T C}
    (hs : step body s a = some s') : Ordered rank s' := by
  cases a with
  | enter t c => exact h.enter hbody hs
  | ask t => exact h.ask hs
  | grant t => exact h.grant hs
  | release t => exact h.release hs

/-- **No deadlock**: from a thread to one that blocks it, the rank goes up, or the place in the same
queue goes down. -/
theorem Ordered.not_deadlock [WellFoundedGT R] (h : Ordered rank s) : ¬ Deadlock s := by
  rintro ⟨S, ⟨t₀, ht₀⟩, hS⟩
  have key : ∀ r n l t, t ∈ S → t ∈ s.queue l → rank l = r → (s.queue l).idxOf t = n → False := by
    intro r
    induction r using WellFoundedGT.induction with
    | ind r ihr =>
        intro n
        induction n using Nat.strong_induction_on with
        | h n ihn =>
            rintro l t ht hl rfl rfl
            obtain ⟨l', hl', u, hu, -, hblock⟩ := hS t ht
            obtain rfl := h.queue_unique hl hl'
            rcases hblock with ⟨m, hm⟩ | ⟨huq, hlt⟩
            · obtain ⟨k, hk, -⟩ := hS u hu
              exact ihr _ (h.rank_lt (h.holders l _ hm) hk) _ k u hu hk rfl rfl
            · exact ihn _ hlt l u hu huq rfl rfl
  obtain ⟨l, hl, -⟩ := hS t₀ ht₀
  exact key _ _ l t₀ ht₀ hl rfl rfl

/-- **Some thread can go on** where some call has not ended: it can ask for a lock or release one,
or it is the first in the queue of a lock that nobody holds. -/
theorem Ordered.can_go_on [WellFoundedGT R] (h : Ordered rank s) {t : T} (ht : s.todo t ≠ []) :
    ∃ u, (State.step body s (.ask u)).isSome ∨ (State.step body s (.release u)).isSome ∨
      ∃ l, (s.queue l).head? = some u ∧ s.holders l = [] := by
  by_contra hstuck
  push Not at hstuck
  refine h.not_deadlock ⟨{u | s.todo u ≠ []}, ⟨t, ht⟩, fun u hu => ?_⟩
  obtain ⟨hask, hrelease, -⟩ := hstuck u
  obtain ⟨op, ops, htodo⟩ := List.exists_cons_of_ne_nil hu
  cases op with
  | release l =>
      rw [State.step, htodo] at hrelease
      exact absurd rfl hrelease
  | acquire l m =>
      have hul : u ∈ s.queue l := by
        by_contra hul
        simp only [State.step, htodo, if_neg hul] at hask
        exact absurd rfl hask
      refine ⟨l, hul, ?_⟩
      obtain ⟨v, vs, hv⟩ := List.exists_cons_of_ne_nil (List.ne_nil_of_mem hul)
      have hvl : v ∈ s.queue l := by
        rw [hv]
        exact List.mem_cons_self
      by_cases hvu : v = u
      -- First in the queue, it waits for a holder.
      · subst hvu
        obtain ⟨g, gs, hg⟩ := List.exists_cons_of_ne_nil ((hstuck v).2.2 l (by rw [hv]; rfl))
        have hgl : g ∈ s.holders l := by
          rw [hg]
          exact List.mem_cons_self
        have hheld : l ∈ s.held g.1 := h.holders l g hgl
        refine ⟨g.1, fun hnil => ?_, fun hgv => ?_, .inl ⟨g.2, hgl⟩⟩
        · have hasc := h.ascends g.1
          rw [hnil] at hasc
          rw [show s.held g.1 = [] from hasc] at hheld
          cases hheld
        · exact lt_irrefl _ (h.rank_lt (hgv ▸ hheld) hvl)
      -- Otherwise it waits behind the first.
      · obtain ⟨m', ops', hv'⟩ := h.queue l v hvl
        refine ⟨v, fun hnil => ?_, hvu, .inr ⟨hvl, ?_⟩⟩
        · rw [hnil] at hv'
          cases hv'
        · rw [hv, List.idxOf_cons_self, List.idxOf_cons_ne _ hvu]
          exact Nat.succ_pos _

end Invariant

end State

section Runs
variable [DecidableEq T] [DecidableEq L] [Preorder R] {rank : L → R}
  {body : T → C → Option (List (Op L))}

theorem ordered_of_run (hbody : ∀ t c ops, body t c = some ops → Ascends rank [] ops)
    {as : List (Action T C)} {s : State T L} (hs : exec (State.step body) .init as = some s) :
    State.Ordered rank s :=
  Reachable.invariant State.ordered_init (fun _ _ _ h hs => h.step hbody hs) ⟨as, hs⟩

variable (rank) in
/-- **No run of ascending calls deadlocks.** -/
theorem no_deadlock [WellFoundedGT R]
    (hbody : ∀ t c ops, body t c = some ops → Ascends rank [] ops) (as : List (Action T C)) :
    EveryState (State.step body) .init as fun s => ¬ s.Deadlock := by
  intro bs cs s _ hs
  exact (ordered_of_run hbody hs).not_deadlock

end Runs

end LockOrder
