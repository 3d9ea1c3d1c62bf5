import Mathlib.Data.List.Basic
import Mathlib.Data.Nat.Find
import Mathlib.Tactic.SplitIfs
import BulletTime.Lib.PosFile

/-!
# Lib — Ring

A list of at most `cap` slots, filled in order and then written over from the first again, and the
file that holds the slots as blocks of one length.

* `Ring`: each slot holds the last item that went to it.
* `Ring.push`: one more item, into slot `n % cap`.
* `writeAt_flatten`: writing a block over one of a file's is setting it in the list of blocks.
* `take_drop_flatten`: what stands at a block's place is the block.
-/

namespace Ring

variable {α : Type*} {cap : ℕ}

/-- `r` is what a ring of `cap` slots holds after the items `xs`. -/
structure Holds (cap : ℕ) (xs r : List α) : Prop where
  length : r.length = min xs.length cap
  last : ∀ j < xs.length, (∀ i < xs.length, i % cap = j % cap → i ≤ j) → r[j % cap]? = xs[j]?

/-- The slots after one more item, the `n`-th. -/
def push (cap n : ℕ) (r : List α) (a : α) : List α :=
  if n < cap then r ++ [a] else r.set (n % cap) a

theorem holds_nil (cap : ℕ) : Holds cap ([] : List α) [] where
  length := (Nat.zero_min cap).symm
  last j hj := absurd hj (Nat.not_lt_zero j)

theorem length_push {xs r : List α} (h : Holds cap xs r) (a : α) :
    (push cap xs.length r a).length = min (xs.length + 1) cap := by
  have hlen := h.length
  unfold push
  split_ifs
  · rw [List.length_append, List.length_singleton]
    omega
  · rw [List.length_set]
    omega

/-- The slot of the new item holds it, the others what they held. -/
theorem getElem?_push {xs r : List α} (h : Holds cap xs r) (hcap : 0 < cap) (a : α) (j : ℕ) :
    (push cap xs.length r a)[j % cap]? =
      if j % cap = xs.length % cap then some a else r[j % cap]? := by
  have hlen := h.length
  have hj := Nat.mod_lt j hcap
  unfold push
  by_cases hn : xs.length < cap
  · rw [if_pos hn, Nat.mod_eq_of_lt hn]
    split_ifs with he
    · rw [he, List.getElem?_append_right (by omega), show xs.length - r.length = 0 by omega]
      rfl
    · rcases Nat.lt_or_ge (j % cap) r.length with hlt | hge
      · exact List.getElem?_append_left hlt
      · rw [List.getElem?_eq_none hge, List.getElem?_eq_none]
        rw [List.length_append, List.length_singleton]
        omega
  · rw [if_neg hn, List.getElem?_set]
    have hlt : xs.length % cap < r.length := by
      have := Nat.mod_lt xs.length hcap
      omega
    by_cases he : j % cap = xs.length % cap
    · rw [if_pos he.symm, if_pos hlt, if_pos he]
    · rw [if_neg fun e => he e.symm, if_neg he]

/-- **One more item.** -/
theorem Holds.push {xs r : List α} (h : Holds cap xs r) (hcap : 0 < cap) (a : α) :
    Holds cap (xs ++ [a]) (push cap xs.length r a) where
  length := by rw [length_push h, List.length_append, List.length_singleton]
  last j hj hlast := by
    rw [List.length_append, List.length_singleton] at hj hlast
    rw [getElem?_push h hcap]
    split_ifs with he
    · -- the last item of the slot is the new one
      obtain rfl : j = xs.length :=
        Nat.le_antisymm (by omega) (hlast xs.length (by omega) he.symm)
      rw [List.getElem?_append_right (Nat.le_refl _), Nat.sub_self]
      rfl
    · have hlt : j < xs.length := by
        by_contra hge
        exact he (congrArg (· % cap) (show j = xs.length by omega))
      rw [List.getElem?_append_left hlt]
      exact h.last j hlt fun i hi hij => hlast i (by omega) hij

/-- What a slot holds is one of the items. -/
theorem Holds.mem {xs r : List α} (h : Holds cap xs r) {k : ℕ} {a : α} (ha : r[k]? = some a) :
    a ∈ xs := by
  obtain ⟨hk, -⟩ := List.getElem?_eq_some_iff.mp ha
  have hlen := h.length
  -- the number of the last item of slot `k`
  have hle : k ≤ xs.length - 1 := by omega
  have hmod : k % cap = k := Nat.mod_eq_of_lt (by omega)
  have hj := Nat.findGreatest_spec (P := (· % cap = k)) hle hmod
  have hjle := Nat.findGreatest_le (P := (· % cap = k)) (xs.length - 1)
  have hlast := h.last (Nat.findGreatest (· % cap = k) (xs.length - 1)) (by omega)
    fun i hi hij => Nat.le_findGreatest (by omega) (hij.trans hj)
  rw [hj, ha] at hlast
  exact List.mem_of_getElem? hlast.symm

end Ring

/-! ### Files of blocks -/

namespace PosFile

variable {α : Type*} {z : α} {size : ℕ} {blocks : List (List α)}

theorem length_flatten_blocks (h : ∀ b ∈ blocks, b.length = size) :
    blocks.flatten.length = blocks.length * size := by
  induction blocks with
  | nil => rw [List.length_nil, Nat.zero_mul]; rfl
  | cons b blocks ih =>
      rw [List.flatten_cons, List.length_append, h b List.mem_cons_self,
        ih fun b' hb' => h b' (List.mem_cons_of_mem _ hb'), List.length_cons, Nat.succ_mul]
      exact Nat.add_comm _ _

/-- The file up to a block, and from it on. -/
theorem take_flatten_blocks (h : ∀ b ∈ blocks, b.length = size) (i : ℕ) :
    blocks.flatten.take (i * size) = (blocks.take i).flatten ∧
      blocks.flatten.drop (i * size) = (blocks.drop i).flatten := by
  induction i generalizing blocks with
  | zero => simp
  | succ i ih =>
      cases blocks with
      | nil => simp
      | cons b blocks =>
          have hb := h b List.mem_cons_self
          obtain ⟨ht, hd⟩ := ih fun b' hb' => h b' (List.mem_cons_of_mem _ hb')
          have hi : (i + 1) * size = b.length + i * size := by rw [hb, Nat.succ_mul, Nat.add_comm]
          rw [hi, List.flatten_cons, List.take_length_add_append, List.drop_length_add_append,
            List.take_succ_cons, List.drop_succ_cons, List.flatten_cons, ht, hd]
          exact ⟨rfl, rfl⟩

/-- **What stands at a block's place** is the block. -/
theorem take_drop_flatten (h : ∀ b ∈ blocks, b.length = size) {i : ℕ} {b : List α}
    (hb : blocks[i]? = some b) : (blocks.flatten.drop (i * size)).take size = b := by
  obtain ⟨hi, rfl⟩ := List.getElem?_eq_some_iff.mp hb
  rw [(take_flatten_blocks h i).2, List.drop_eq_getElem_cons hi, List.flatten_cons,
    ← h _ (List.getElem_mem hi), List.take_left]

/-- **Writing over a block.** -/
theorem writeAt_flatten (h : ∀ b ∈ blocks, b.length = size) {i : ℕ} (hi : i < blocks.length)
    {b : List α} (hb : b.length = size) :
    writeAt z blocks.flatten (i * size) b = (blocks.set i b).flatten := by
  obtain ⟨ht, -⟩ := take_flatten_blocks h i
  obtain ⟨-, hd⟩ := take_flatten_blocks h (i + 1)
  have hle : i * size ≤ blocks.flatten.length := by
    rw [length_flatten_blocks h]
    exact Nat.mul_le_mul_right _ (Nat.le_of_lt hi)
  rw [List.set_eq_take_append_cons_drop, if_pos hi, List.flatten_append, List.flatten_cons]
  unfold writeAt
  split_ifs with hnil
  · -- blocks of no length
    obtain rfl : size = 0 := by rw [← hb, hnil]; rfl
    rw [Nat.mul_zero, List.drop_zero] at hd
    rw [Nat.mul_zero, List.take_zero] at ht
    rw [← ht, hnil, ← hd]
    rfl
  · rw [Nat.sub_eq_zero_of_le hle, List.replicate_zero, List.append_nil, ht, hb, ← Nat.succ_mul,
      hd, List.append_assoc]

/-- **Writing after the last block.** -/
theorem writeAt_flatten_end (h : ∀ b ∈ blocks, b.length = size) (b : List α) :
    writeAt z blocks.flatten (blocks.length * size) b = (blocks ++ [b]).flatten := by
  rw [← length_flatten_blocks h, writeAt_length, List.flatten_append, List.flatten_singleton]

end PosFile
