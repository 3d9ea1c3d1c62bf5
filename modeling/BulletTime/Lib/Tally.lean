import Mathlib.Data.List.Perm.Basic
import Mathlib.Tactic.Linarith

/-!
# Lib — Tally

Ordered maps that are added to key by key.  A key is absent until something is added to it.

* `getElem?_addAt`: one addition, at every key.
* `getElem?_merge`: a map added into another one, at every key.
* `getElem?_mergeAll`: a list of maps, and `mergeAll_perm`: their order does not matter.
-/

namespace Tally

variable {α β : Type*} [Ord α] [Std.TransOrd α] [Std.LawfulEqOrd α] [Add β]

/-- `v` added at the key `k`, which is created where it is missing. -/
def addAt (m : Std.ExtTreeMap α β) (k : α) (v : β) : Std.ExtTreeMap α β :=
  match m[k]? with
  | none => m.insert k v
  | some w => m.insert k (w + v)

/-- Every entry of `m` added into `acc`, in the order of the keys. -/
def merge (acc m : Std.ExtTreeMap α β) : Std.ExtTreeMap α β := m.foldl addAt acc

def mergeAll (acc : Std.ExtTreeMap α β) (ms : List (Std.ExtTreeMap α β)) : Std.ExtTreeMap α β :=
  ms.foldl merge acc

/-! ### What is at a key -/

/-- Two values at a key, of which either may be missing. -/
abbrev plus (o o' : Option β) : Option β := Option.merge (· + ·) o o'

theorem getElem?_addAt [DecidableEq α] (m : Std.ExtTreeMap α β) (k j : α) (v : β) :
    (addAt m k v)[j]? = if k = j then plus m[j]? (some v) else m[j]? := by
  by_cases hkj : k = j
  · subst hkj
    rw [if_pos rfl, addAt]
    cases h : m[k]? with
    | none => simp
    | some w => simp
  · rw [if_neg hkj, addAt]
    cases h : m[k]? with
    | none => simp [Std.ExtTreeMap.getElem?_insert, hkj]
    | some w => simp [Std.ExtTreeMap.getElem?_insert, hkj]

/-- Entries at other keys are passed over. -/
theorem getElem?_foldl_of_not_mem (j : α) (l : List (α × β)) (acc : Std.ExtTreeMap α β)
    (h : ∀ v, (j, v) ∉ l) : (l.foldl (fun a p => addAt a p.1 p.2) acc)[j]? = acc[j]? := by
  classical
  induction l generalizing acc with
  | nil => rfl
  | cons p l ih =>
    have hp : p.1 ≠ j := by
      rintro rfl
      exact h p.2 List.mem_cons_self
    rw [List.foldl_cons, ih _ fun v hv => h v (List.mem_cons_of_mem _ hv), getElem?_addAt,
      if_neg hp]

/-- Entries with distinct keys: the one at `j` is added once. -/
theorem getElem?_foldl_of_mem {j : α} {v : β} {l : List (α × β)} (acc : Std.ExtTreeMap α β)
    (hl : l.Pairwise fun p q => p.1 ≠ q.1) (h : (j, v) ∈ l) :
    (l.foldl (fun a p => addAt a p.1 p.2) acc)[j]? = plus acc[j]? (some v) := by
  classical
  induction l generalizing acc with
  | nil => cases h
  | cons p l ih =>
    obtain ⟨hp, hl⟩ := List.pairwise_cons.mp hl
    rw [List.foldl_cons]
    rcases List.mem_cons.mp h with rfl | h
    · rw [getElem?_foldl_of_not_mem j l _ fun w hw => hp (j, w) hw rfl, getElem?_addAt, if_pos rfl]
    · rw [ih _ hl h, getElem?_addAt, if_neg (hp _ h)]

/-- **A map added into another one**, at every key. -/
theorem getElem?_merge (acc m : Std.ExtTreeMap α β) (j : α) :
    (merge acc m)[j]? = plus acc[j]? m[j]? := by
  have hkeys : m.toList.Pairwise fun p q => p.1 ≠ q.1 := by
    refine m.distinct_keys_toList.imp ?_
    intro p q hpq heq
    exact hpq (Std.LawfulEqOrd.compare_eq_iff_eq.mpr heq)
  rw [merge, Std.ExtTreeMap.foldl_eq_foldl_toList]
  cases h : m[j]? with
  | none =>
    refine (getElem?_foldl_of_not_mem j _ _ ?_).trans Option.merge_none_right.symm
    intro v hv
    rw [Std.ExtTreeMap.mem_toList_iff_getElem?_eq_some, h] at hv
    cases hv
  | some v =>
    exact getElem?_foldl_of_mem acc hkeys (Std.ExtTreeMap.mem_toList_iff_getElem?_eq_some.mpr h)

theorem merge_empty (acc : Std.ExtTreeMap α β) : merge acc ∅ = acc := by
  refine Std.ExtTreeMap.ext_getElem? fun j => ?_
  rw [getElem?_merge, Std.ExtTreeMap.getElem?_empty]
  exact Option.merge_none_right

/-- The maps of a list, at every key. -/
theorem getElem?_mergeAll (acc : Std.ExtTreeMap α β) (ms : List (Std.ExtTreeMap α β)) (j : α) :
    (mergeAll acc ms)[j]? = (ms.map fun m => m[j]?).foldl plus acc[j]? := by
  induction ms generalizing acc with
  | nil => rfl
  | cons m ms ih =>
    rw [mergeAll, List.foldl_cons, ← mergeAll, ih, getElem?_merge]
    rfl

/-- **The order of the maps does not matter.** -/
theorem mergeAll_perm [Std.Associative fun x y : β => x + y]
    [Std.Commutative fun x y : β => x + y] {ms ms' : List (Std.ExtTreeMap α β)}
    (h : ms.Perm ms') (acc : Std.ExtTreeMap α β) : mergeAll acc ms = mergeAll acc ms' := by
  have hassoc : ∀ x y z : Option β, plus (plus x y) z = plus x (plus y z) :=
    Std.Associative.assoc
  have hcomm : ∀ x y : Option β, plus x y = plus y x := Std.Commutative.comm
  have hplus : ∀ x y z : Option β, plus (plus z x) y = plus (plus z y) x := by
    intro x y z
    rw [hassoc, hcomm x y, ← hassoc]
  refine Std.ExtTreeMap.ext_getElem? fun j => ?_
  rw [getElem?_mergeAll, getElem?_mergeAll]
  exact (h.map _).foldl_eq' (fun x _ y _ z => hplus x y z) _

end Tally
