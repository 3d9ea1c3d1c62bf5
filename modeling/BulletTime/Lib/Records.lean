import Mathlib.Data.Nat.Digits.Defs
import Mathlib.Tactic.SplitIfs

/-!
# Lib — Records

Files of fixed-size records and the words in them, as a little-endian machine lays them out.

* `wordBytes w n`: the `w` bytes of `n`, and `wordOf`, the number that bytes are.
* `wordOf_wordBytes`: a word is read back modulo what its bytes can hold.
* `split size bytes`: the complete records of a file; what is left after the last one is no record.
* `split_flatMap_append`: a file that begins with records is read as these and the rest.
-/

namespace Records

/-! ### Words -/

/-- The `w` bytes of `n`, the lowest first. -/
def wordBytes : ℕ → ℕ → List UInt8
  | 0, _ => []
  | w + 1, n => UInt8.ofNat n :: wordBytes w (n / 256)

/-- The number whose bytes these are. -/
def wordOf (bytes : List UInt8) : ℕ := Nat.ofDigits 256 (bytes.map UInt8.toNat)

theorem length_wordBytes (w n : ℕ) : (wordBytes w n).length = w := by
  induction w generalizing n with
  | zero => rfl
  | succ w ih => rw [wordBytes, List.length_cons, ih]

theorem wordOf_cons (b : UInt8) (bytes : List UInt8) :
    wordOf (b :: bytes) = b.toNat + 256 * wordOf bytes := by
  rw [wordOf, List.map_cons, Nat.ofDigits_cons]
  rfl

/-- **A word is read back**, up to what its bytes can hold. -/
theorem wordOf_wordBytes (w n : ℕ) : wordOf (wordBytes w n) = n % 256 ^ w := by
  induction w generalizing n with
  | zero => rw [Nat.pow_zero, Nat.mod_one]; rfl
  | succ w ih =>
      rw [wordBytes, wordOf_cons, ih, Nat.pow_succ', Nat.mod_mul]
      rfl

/-- The low bytes of a word, and the bytes above them. -/
theorem wordBytes_add (v w n : ℕ) :
    wordBytes (v + w) n = wordBytes v n ++ wordBytes w (n / 256 ^ v) := by
  induction v generalizing n with
  | zero => rw [Nat.zero_add, Nat.pow_zero, Nat.div_one]; rfl
  | succ v ih =>
      rw [Nat.succ_add, wordBytes, ih, Nat.div_div_eq_div_mul, ← Nat.pow_succ']
      rfl

theorem wordOf_zeroes (w : ℕ) : wordOf (List.replicate w 0) = 0 := by
  rw [wordOf, List.map_replicate]
  exact Nat.ofDigits_replicate_zero

/-! ### Files of records -/

variable {α ρ : Type*} {size : ℕ}

/-- The consecutive complete records of `size` items. -/
def split (size : ℕ) (items : List α) : List (List α) :=
  (List.range (items.length / size)).map fun i => (items.drop (i * size)).take size

theorem length_split (size : ℕ) (items : List α) :
    (split size items).length = items.length / size := by
  rw [split, List.length_map, List.length_range]

theorem getElem?_split {items : List α} {i : ℕ} (h : i < items.length / size) :
    (split size items)[i]? = some ((items.drop (i * size)).take size) := by
  rw [split, List.getElem?_map, List.getElem?_range h]
  rfl

/-- **The first record.** -/
theorem split_append (hpos : 0 < size) {record : List α} (h : record.length = size)
    (items : List α) : split size (record ++ items) = record :: split size items := by
  have hlen : (record ++ items).length / size = items.length / size + 1 := by
    rw [List.length_append, h, Nat.add_comm, Nat.add_div_right _ hpos]
  rw [split, hlen, List.range_succ_eq_map, List.map_cons, List.map_map, Nat.zero_mul,
    List.drop_zero, ← h, List.take_left, split]
  refine congrArg (record :: ·) (List.map_congr_left fun i _ => ?_)
  rw [Function.comp_apply, Nat.succ_mul, Nat.add_comm, List.drop_length_add_append]

/-- **The records a file begins with.** -/
theorem split_flatMap_append (hpos : 0 < size) {encode : ρ → List α}
    (h : ∀ r, (encode r).length = size) (records : List ρ) (items : List α) :
    split size (records.flatMap encode ++ items) = records.map encode ++ split size items := by
  induction records with
  | nil => rfl
  | cons r records ih =>
      rw [List.flatMap_cons, List.append_assoc, split_append hpos (h r), ih, List.map_cons,
        List.cons_append]

theorem length_flatMap (encode : ρ → List α) (h : ∀ r, (encode r).length = size)
    (records : List ρ) : (records.flatMap encode).length = records.length * size := by
  rw [List.length_flatMap, List.map_congr_left fun r _ => h r, List.map_const',
    List.sum_replicate_nat]

end Records
