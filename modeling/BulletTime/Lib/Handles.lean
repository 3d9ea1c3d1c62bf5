import Mathlib.Data.Finset.Basic
import Mathlib.Data.Finset.Lattice.Lemmas
import Mathlib.Logic.Function.Basic
import BulletTime.Lib.Transition

/-!
# Lib — Handles

Numbers that a system gives out and takes back, and programs that keep them in variables: file
descriptors, addresses of mappings.  A number taken back may be given out again, so a program that
goes on with it hits whatever has got it since.

* `Call`: what one step of a program uses, and what it gets or gives back.
* `Allowed` and `Disciplined`: only variables in use are used and given back, and none in use is
  written over.
* `systemStep`: any programs on one system, which gives out any number that is free.
* `owned_reachable`: in every interleaving a number belongs to the variable in use that holds it.
* `touches_own`: no step of a disciplined program touches a number of another variable.
* `take_inUse` and `drop_inUse`: variables taken into use, and given back, in the order of a list.
-/

namespace Handles
open Transition

variable {ι σ α ν η : Type*}

/-- What a step does to the variables: it assigns the result of a call, `none` where the call
fails, or gives back. -/
inductive Effect (ν η : Type*) where
  | gets (v : ν) (result : Option η)
  | gives (v : ν)
  | nothing

/-- What a step asks of the system. -/
structure Call (ν η : Type*) where
  uses : List ν := []
  effect : Effect ν η := .nothing

/-- A program: its steps, what its variables hold, and which of them are in use. -/
structure Program (σ α ν η : Type*) where
  act : σ → α → Option (Call ν η × σ)
  value : σ → ν → Option η
  inUse : σ → Finset ν

section Program
variable [DecidableEq ν] (P : Program σ α ν η)

/-- What a call may do to the variables.  One that holds no number may be left out of use. -/
def Effect.Allowed (s t : σ) : Effect ν η → Prop
  | .gets v result => v ∉ P.inUse s ∧ (P.inUse t).erase v = P.inUse s ∧
      (result.isSome → v ∈ P.inUse t) ∧ P.value t = Function.update (P.value s) v result
  | .gives v => v ∈ P.inUse s ∧ P.inUse t = (P.inUse s).erase v ∧ P.value t = P.value s
  | .nothing => P.inUse t = P.inUse s ∧ P.value t = P.value s

/-- Each step uses what is in use, and has an effect that is allowed. -/
structure Disciplined : Prop where
  uses : ∀ s a c t, P.act s a = some (c, t) → ∀ v ∈ c.uses, v ∈ P.inUse s
  effect : ∀ s a c t, P.act s a = some (c, t) → c.effect.Allowed P s t

end Program

/-! ### The system -/

/-- Who has been given a number, and where each program stands. -/
structure System (ι σ ν η : Type*) where
  owner : η → Option (ι × ν)
  program : ι → σ

section System
variable [DecidableEq ι] [DecidableEq ν] [DecidableEq η] (P : Program σ α ν η)

/-- What the system does: it gives out a free number, and takes back one it is given. -/
def register (i : ι) (value : ν → Option η) (owner : η → Option (ι × ν)) :
    Effect ν η → Option (η → Option (ι × ν))
  | .gets v (some h) =>
      if owner h = none then some (Function.update owner h (some (i, v))) else none
  | .gets _ none => some owner
  | .gives v => some ((value v).elim owner fun h => Function.update owner h none)
  | .nothing => some owner

/-- One step of program `i`. -/
def systemStep (s : System ι σ ν η) : ι × α → Option (System ι σ ν η)
  | (i, a) => (P.act (s.program i) a).bind fun p =>
      (register i (P.value (s.program i)) s.owner p.1.effect).map fun owner =>
        { owner := owner, program := Function.update s.program i p.2 }

/-- What a variable of a program holds, if it is in use. -/
def held (s : σ) (v : ν) : Option η := if v ∈ P.inUse s then P.value s v else none

/-- A number belongs to the variable in use that holds it. -/
def Owned (s : System ι σ ν η) : Prop :=
  ∀ h i v, s.owner h = some (i, v) ↔ held P (s.program i) v = some h

/-- What a step touches through a variable was given to that variable. -/
def TouchesOwn (s : System ι σ ν η) : ι × α → Prop
  | (i, a) => ∀ c t, P.act (s.program i) a = some (c, t) → ∀ v,
      v ∈ c.uses ∨ c.effect = .gives v → ∀ h, P.value (s.program i) v = some h →
        s.owner h = some (i, v)

end System

/-! ### Owners and variables -/

section Inverse
variable {κ : Type*} [DecidableEq κ] [DecidableEq η] {owner : η → Option κ} {held : κ → Option η}
  {h : η} {k : κ}

/-- Each number has the owner that holds it. -/
def Inverse (owner : η → Option κ) (held : κ → Option η) : Prop :=
  ∀ h k, owner h = some k ↔ held k = some h

theorem Inverse.give_out (hinv : Inverse owner held) (hfree : owner h = none)
    (hk : held k = none) :
    Inverse (Function.update owner h (some k)) (Function.update held k (some h)) := by
  intro x l
  by_cases hx : x = h
  · subst hx
    rw [Function.update_self]
    by_cases hl : l = k
    · subst hl
      rw [Function.update_self]
      exact iff_of_true rfl rfl
    · rw [Function.update_of_ne hl, ← hinv x l, hfree]
      refine iff_of_false (fun e => hl ?_) nofun
      exact (Option.some.inj e).symm
  · rw [Function.update_of_ne hx]
    by_cases hl : l = k
    · subst hl
      rw [Function.update_self, hinv x l, hk]
      refine iff_of_false nofun fun e => hx ?_
      exact (Option.some.inj e).symm
    · rw [Function.update_of_ne hl]
      exact hinv x l

theorem Inverse.take_back (hinv : Inverse owner held) (hk : held k = some h) :
    Inverse (Function.update owner h none) (Function.update held k none) := by
  intro x l
  by_cases hx : x = h
  · subst hx
    rw [Function.update_self]
    refine iff_of_false nofun fun e => ?_
    by_cases hl : l = k
    · subst hl
      rw [Function.update_self] at e
      cases e
    · rw [Function.update_of_ne hl, ← hinv x l, (hinv x k).mpr hk] at e
      exact hl (Option.some.inj e).symm
  · rw [Function.update_of_ne hx]
    by_cases hl : l = k
    · subst hl
      rw [Function.update_self, hinv x l, hk]
      refine iff_of_false (fun e => hx ?_) nofun
      exact (Option.some.inj e).symm
    · rw [Function.update_of_ne hl]
      exact hinv x l

end Inverse

/-! ### In order -/

section Order
variable [DecidableEq ν] {A : Finset ν} {l : List ν} {k : ℕ} {v : ν}

/-- The variables of a list are taken into use in its order. -/
theorem take_inUse (hl : l.Nodup) (hA : ∀ w ∈ l, w ∉ A) (hk : l[k]? = some v) :
    v ∉ A ∪ (l.take k).toFinset ∧ v ∈ A ∪ (l.take (k + 1)).toFinset ∧
      (A ∪ (l.take (k + 1)).toFinset).erase v = A ∪ (l.take k).toFinset := by
  obtain ⟨hlt, hget⟩ := List.getElem?_eq_some_iff.mp hk
  have hv : v ∉ A ∪ (l.take k).toFinset := by
    rw [Finset.mem_union, List.mem_toFinset, not_or]
    refine ⟨hA v (List.mem_of_getElem? hk), fun hmem => ?_⟩
    obtain ⟨j, hj, he⟩ := List.mem_take_iff_getElem.mp hmem
    have := (List.Nodup.getElem_inj_iff hl).mp (he.trans hget.symm)
    omega
  rw [List.take_add_one, hk, Option.toList_some, List.toFinset_append, ← Finset.union_assoc,
    List.toFinset_cons, List.toFinset_nil, Finset.union_insert, Finset.union_empty]
  exact ⟨hv, Finset.mem_insert_self _ _, Finset.erase_insert hv⟩

/-- And given back in its order. -/
theorem drop_inUse (hl : l.Nodup) (hA : ∀ w ∈ l, w ∉ A) (hk : l[k]? = some v) :
    v ∈ A ∪ (l.drop k).toFinset ∧
      A ∪ (l.drop (k + 1)).toFinset = (A ∪ (l.drop k).toFinset).erase v := by
  obtain ⟨hlt, rfl⟩ := List.getElem?_eq_some_iff.mp hk
  have hdrop := List.drop_eq_getElem_cons hlt
  have hnotin : l[k] ∉ (l.drop (k + 1)).toFinset := by
    have hd := List.Pairwise.drop (i := k) hl
    rw [hdrop] at hd
    exact fun h => (List.nodup_cons.mp hd).1 (List.mem_toFinset.mp h)
  rw [hdrop, List.toFinset_cons, Finset.union_insert]
  refine ⟨Finset.mem_insert_self _ _, ?_⟩
  rw [Finset.erase_insert]
  rw [Finset.mem_union, not_or]
  exact ⟨hA _ (List.getElem_mem hlt), hnotin⟩

end Order

/-! ### Disciplined programs -/

section Held
variable [DecidableEq ν] {P : Program σ α ν η} {s t : σ} {v : ν}

/-- A call leaves the other variables of the program. -/
theorem held_of_ne (huse : ∀ w, w ≠ v → (w ∈ P.inUse t ↔ w ∈ P.inUse s))
    (hvalue : ∀ w, w ≠ v → P.value t w = P.value s w) (w : ν) (hw : w ≠ v) :
    held P t w = held P s w := by
  rw [held, held, hvalue w hw]
  exact if_congr (huse w hw) rfl rfl

theorem held_gets {result : Option η} (he : (Effect.gets v result).Allowed P s t) :
    held P s v = none ∧ held P t = Function.update (held P s) v result := by
  obtain ⟨hv, huse, hin, hvalue⟩ := he
  refine ⟨if_neg hv, funext fun w => ?_⟩
  by_cases hw : w = v
  · subst hw
    rw [held, hvalue, Function.update_self, Function.update_self]
    cases result with
    | none => exact ite_self none
    | some h => exact if_pos (hin rfl)
  · rw [Function.update_of_ne hw]
    refine held_of_ne (fun x hx => ?_) (fun x hx => ?_) w hw
    · rw [← huse, Finset.mem_erase, and_iff_right hx]
    · rw [hvalue, Function.update_of_ne hx]

theorem held_gives (he : (Effect.gives v).Allowed P s t) :
    held P s v = P.value s v ∧ held P t = Function.update (held P s) v none := by
  obtain ⟨hv, huse, hvalue⟩ := he
  refine ⟨if_pos hv, funext fun w => ?_⟩
  by_cases hw : w = v
  · subst hw
    rw [held, huse, Function.update_self]
    exact if_neg (Finset.notMem_erase w _)
  · rw [Function.update_of_ne hw]
    refine held_of_ne (fun x hx => ?_) (fun x _ => ?_) w hw
    · rw [huse, Finset.mem_erase, and_iff_right hx]
    · rw [hvalue]

theorem held_nothing (he : Effect.nothing.Allowed P s t) : held P t = held P s := by
  obtain ⟨huse, hvalue⟩ := he
  funext w
  rw [held, held, huse, hvalue]

/-- The variables of all programs. -/
def heldBy (P : Program σ α ν η) (s : System ι σ ν η) (k : ι × ν) : Option η :=
  held P (s.program k.1) k.2

theorem owned_iff {s : System ι σ ν η} : Owned P s ↔ Inverse s.owner (heldBy P s) :=
  ⟨fun hs h k => hs h k.1 k.2, fun hs h i v => hs h (i, v)⟩

/-- A step of one program changes one variable at most. -/
theorem heldBy_update [DecidableEq ι] {s : System ι σ ν η} {i : ι} {t : σ}
    {owner : η → Option (ι × ν)} {v : ν} {r : Option η}
    (ht : held P t = Function.update (held P (s.program i)) v r) :
    heldBy P { owner := owner, program := Function.update s.program i t } =
      Function.update (heldBy P s) (i, v) r := by
  funext k
  obtain ⟨j, w⟩ := k
  rw [heldBy]
  dsimp only
  by_cases hj : j = i
  · subst hj
    rw [Function.update_self, ht]
    by_cases hw : w = v
    · subst hw
      rw [Function.update_self, Function.update_self]
    · have hne : (j, w) ≠ (j, v) := fun e => hw (congrArg Prod.snd e)
      rw [Function.update_of_ne hw, Function.update_of_ne hne, heldBy]
  · have hne : (j, w) ≠ (i, v) := fun e => hj (congrArg Prod.fst e)
    rw [Function.update_of_ne hj, Function.update_of_ne hne, heldBy]

theorem heldBy_eq [DecidableEq ι] {s : System ι σ ν η} {i : ι} {t : σ}
    {owner : η → Option (ι × ν)} (ht : held P t = held P (s.program i)) :
    heldBy P { owner := owner, program := Function.update s.program i t } = heldBy P s := by
  funext k
  rw [heldBy]
  dsimp only
  by_cases hk : k.1 = i
  · rw [hk, Function.update_self, ht, heldBy, hk]
  · rw [Function.update_of_ne hk, heldBy]

/-- Nothing has been given out, and no variable is in use. -/
structure AtStart (P : Program σ α ν η) (s : System ι σ ν η) : Prop where
  owner : ∀ h, s.owner h = none
  inUse : ∀ i, P.inUse (s.program i) = ∅

theorem AtStart.owned {s : System ι σ ν η} (hs : AtStart P s) : Owned P s := by
  intro h i v
  rw [hs.owner, held, hs.inUse, if_neg (Finset.notMem_empty v)]
  exact iff_of_false nofun nofun

theorem Owned.touchesOwn (hP : Disciplined P) {s : System ι σ ν η} (hs : Owned P s) (a : ι × α) :
    TouchesOwn P s a := by
  obtain ⟨i, a⟩ := a
  intro c t hact v hv h hvalue
  have huse : v ∈ P.inUse (s.program i) := by
    rcases hv with hv | hv
    · exact hP.uses _ _ _ _ hact v hv
    · have heff := hP.effect _ _ _ _ hact
      rw [hv] at heff
      exact heff.1
  refine (hs h i v).mpr ?_
  rw [held, if_pos huse]
  exact hvalue

end Held

section Disciplined
variable [DecidableEq ι] [DecidableEq ν] [DecidableEq η] {P : Program σ α ν η}

/-- **Every step** of disciplined programs leaves each number with the variable that holds it. -/
theorem Owned.step (hP : Disciplined P) {s t : System ι σ ν η} {a : ι × α} (hs : Owned P s)
    (h : systemStep P s a = some t) : Owned P t := by
  obtain ⟨i, a⟩ := a
  obtain ⟨⟨c, p⟩, hact, h⟩ := Option.bind_eq_some_iff.mp h
  obtain ⟨owner, hr, rfl⟩ := Option.map_eq_some_iff.mp h
  have heff := hP.effect _ _ _ _ hact
  rw [owned_iff] at hs ⊢
  dsimp only at hr ⊢
  cases he : c.effect with
  | gets v result =>
      rw [he] at hr heff
      obtain ⟨hnone, ht⟩ := held_gets heff
      rw [heldBy_update ht]
      cases result with
      | none =>
          cases hr
          rw [Function.update_eq_self_iff.mpr hnone.symm]
          exact hs
      | some x =>
          rw [register] at hr
          split_ifs at hr with hfree
          cases hr
          exact hs.give_out hfree hnone
  | gives v =>
      rw [he] at hr heff
      obtain ⟨hvalue, ht⟩ := held_gives heff
      cases hr
      rw [heldBy_update ht]
      cases hv : P.value (s.program i) v with
      | none =>
          rw [Function.update_eq_self_iff.mpr (hvalue.trans hv).symm]
          exact hs
      | some x => exact hs.take_back (hvalue.trans hv)
  | nothing =>
      rw [he] at hr heff
      cases hr
      rw [heldBy_eq (held_nothing heff)]
      exact hs

variable {s₀ : System ι σ ν η}

/-- **A number belongs to the variable in use that holds it**, in every interleaving. -/
theorem owned_reachable (hP : Disciplined P) (h₀ : AtStart P s₀) {s : System ι σ ν η}
    (h : Reachable (systemStep P) s₀ s) : Owned P s :=
  h.invariant h₀.owned fun _ _ _ hs ht => hs.step hP ht

/-- **No step touches a number of another variable**, in every interleaving. -/
theorem touches_own (hP : Disciplined P) (h₀ : AtStart P s₀) (as : List (ι × α)) :
    EveryStep (systemStep P) s₀ as (TouchesOwn P) :=
  everyStep_true.implies (I := Owned P) h₀.owned (fun _ _ _ hs _ ht => hs.step hP ht)
    fun _ a hs _ => hs.touchesOwn hP a

end Disciplined

end Handles
