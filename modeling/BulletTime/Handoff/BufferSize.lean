import BulletTime.Consumer.TraceFormat

/-!
# Handoff — BufferSize

How large a hand-off may be.  The number of records of a buffer comes from `-bpages`, any 32-bit
page count; the mapping and the block of an uncompressed file are constants of `consumer.h`.

* `HandOffFits`: the copy stays in the mapping, and the raw block holds all of it.
* `handOffFits_iff`: a hand-off fits exactly when it is no larger than a block.
* `handOffs_fit_iff`: all the hand-offs of a page count fit exactly when it is at most the default.
-/

namespace BulletTime.Handoff
open Consumer

/-- `buf_entry_limit`, for the value of `KnobNumPagesInBuffer`. -/
def bufEntryLimit (numPages : UInt32) : UInt64 := numPages.toUInt64 * 4096 / 24

/-- `numBytes` of `ProcessBuffer`: `bufSizes` holds the size of `MEMREF`. -/
def numBytes (numElements : UInt64) : UInt64 := numElements * 24

/-- `memcpy` to a mapping of `size` bytes; `none` where it writes behind it. -/
def memcpy (size : ℕ) (sharedMem : ℕ → UInt8) (buf : List UInt8) : Option (ℕ → UInt8) :=
  if buf.length ≤ size then some fun j => (buf[j]?).getD (sharedMem j) else none

/-- The block `Listen` writes with compression off. -/
def rawBlock (sharedMem : ℕ → UInt8) (dataSize : ℕ) : List UInt8 :=
  payload (pad sharedMem dataSize) consumerBufferSize

/-- A hand-off of `numElements` records fits: the copy stays within the bytes mapped, and the block
written begins with all the bytes copied. -/
def HandOffFits (numElements : UInt64) : Prop :=
  ∀ (sharedMem : ℕ → UInt8) (buf : List UInt8), buf.length = (numBytes numElements).toNat →
    ∃ sharedMem', memcpy allocationSize sharedMem buf = some sharedMem' ∧
      buf <+: rawBlock sharedMem' buf.length

theorem length_rawBlock (sharedMem : ℕ → UInt8) (dataSize : ℕ) :
    (rawBlock sharedMem dataSize).length = consumerBufferSize := by
  rw [rawBlock, payload, List.length_map, List.length_range]

/-- The block of a copy that is no larger. -/
theorem prefix_rawBlock (sharedMem : ℕ → UInt8) {buf : List UInt8}
    (h : buf.length ≤ consumerBufferSize) :
    buf <+: rawBlock (fun j => (buf[j]?).getD (sharedMem j)) buf.length := by
  rw [List.prefix_iff_eq_take]
  refine List.ext_getElem ?_ fun j hj hj' => ?_
  · rw [List.length_take, length_rawBlock, Nat.min_eq_left h]
  · have hout : ¬ (buf.length ≤ j ∧ j < consumerBufferSize) :=
      fun hc => absurd hc.1 (Nat.not_le.mpr hj)
    rw [List.getElem_take]
    simp only [rawBlock, payload, List.getElem_map, List.getElem_range, pad, if_neg hout,
      List.getElem?_eq_getElem hj, Option.getD_some]

/-- **A hand-off fits** exactly when it is no larger than a block. -/
theorem handOffFits_iff (numElements : UInt64) :
    HandOffFits numElements ↔ (numBytes numElements).toNat ≤ consumerBufferSize := by
  constructor
  · intro h
    obtain ⟨mem, -, hpre⟩ := h (fun _ => 0) (List.replicate (numBytes numElements).toNat 0)
      List.length_replicate
    have hle := hpre.length_le
    rwa [length_rawBlock, List.length_replicate] at hle
  · intro h mem buf hbuf
    have hmap : buf.length ≤ allocationSize := by
      rw [hbuf]
      exact Nat.le_trans h (Nat.le_max_left ..)
    exact ⟨_, if_pos hmap, prefix_rawBlock mem (hbuf ▸ h)⟩

/-! ### The page count -/

theorem toNat_bufEntryLimit (numPages : UInt32) :
    (bufEntryLimit numPages).toNat = numPages.toNat * 4096 / 24 := by
  have hlt : numPages.toNat * 4096 < 2 ^ 64 := by
    calc numPages.toNat * 4096 < 2 ^ 32 * 4096 :=
          Nat.mul_lt_mul_of_pos_right numPages.toNat_lt (by decide)
      _ ≤ 2 ^ 64 := by decide
  rw [bufEntryLimit, UInt64.toNat_div, UInt64.toNat_mul, UInt32.toNat_toUInt64]
  exact congrArg (· / 24) (Nat.mod_eq_of_lt hlt)

/-- A buffer's records are counted in bytes without a carry. -/
theorem toNat_numBytes {numPages : UInt32} {n : UInt64} (h : n ≤ bufEntryLimit numPages) :
    (numBytes n).toNat = n.toNat * 24 := by
  have hn : n.toNat ≤ numPages.toNat * 4096 / 24 := toNat_bufEntryLimit numPages ▸ h
  have hbytes : n.toNat * 24 ≤ numPages.toNat * 4096 :=
    Nat.le_trans (Nat.mul_le_mul_right 24 hn) (Nat.div_mul_le_self _ 24)
  have hlt : n.toNat * 24 < 2 ^ 64 := by
    calc n.toNat * 24 ≤ numPages.toNat * 4096 := hbytes
      _ < 2 ^ 32 * 4096 := Nat.mul_lt_mul_of_pos_right numPages.toNat_lt (by decide)
      _ ≤ 2 ^ 64 := by decide
  rw [numBytes, UInt64.toNat_mul]
  exact Nat.mod_eq_of_lt hlt

/-- The limit of the default page count. -/
theorem bufEntryLimit_default : (bufEntryLimit 256).toNat = Consumer.bufEntryLimit :=
  toNat_bufEntryLimit 256

theorem handOffFits_iff_le {numPages : UInt32} {n : UInt64} (h : n ≤ bufEntryLimit numPages) :
    HandOffFits n ↔ n.toNat ≤ Consumer.bufEntryLimit := by
  rw [handOffFits_iff, toNat_numBytes h]
  exact (Nat.le_div_iff_mul_le (by decide)).symm

/-- **A hand-off always fits** exactly for the page counts up to 256; with a larger one the
hand-offs that fit are the ones a page count of 256 allows. -/
theorem handOffs_fit_iff (numPages : UInt32) :
    ((∀ n ≤ bufEntryLimit numPages, HandOffFits n) ↔ numPages ≤ 256) ∧
      ∀ n ≤ bufEntryLimit numPages, (HandOffFits n ↔ n ≤ bufEntryLimit 256) := by
  have hfits : ∀ n ≤ bufEntryLimit numPages, (HandOffFits n ↔ n ≤ bufEntryLimit 256) := by
    intro n hn
    rw [handOffFits_iff_le hn, ← bufEntryLimit_default, UInt64.le_iff_toNat_le]
  refine ⟨⟨fun h => ?_, fun h n hn => (hfits n hn).mpr (UInt64.le_trans hn ?_)⟩, hfits⟩
  · have hle : bufEntryLimit numPages ≤ bufEntryLimit 256 :=
      (hfits _ (UInt64.le_refl _)).mp (h _ (UInt64.le_refl _))
    rw [UInt64.le_iff_toNat_le, toNat_bufEntryLimit, toNat_bufEntryLimit] at hle
    rw [UInt32.le_iff_toNat_le]
    change _ ≤ 256
    change _ ≤ 256 * 4096 / 24 at hle
    omega
  · rw [UInt64.le_iff_toNat_le, toNat_bufEntryLimit, toNat_bufEntryLimit]
    exact Nat.div_le_div_right (Nat.mul_le_mul_right _ h)

/-- With 257 pages a full buffer is cut off in the file, and with 513 pages the copy runs out of
the mapping. -/
theorem larger_buffers_do_not_fit :
    ¬ (∀ n ≤ bufEntryLimit 257, HandOffFits n) ∧
      ∀ (sharedMem : ℕ → UInt8) (buf : List UInt8),
        buf.length = (numBytes (bufEntryLimit 513)).toNat →
          memcpy allocationSize sharedMem buf = none := by
  constructor
  · intro h
    have hfit := (handOffFits_iff _).mp (h _ (UInt64.le_refl _))
    revert hfit
    decide
  · intro mem buf hbuf
    refine if_neg fun hle => ?_
    rw [hbuf] at hle
    revert hle
    decide

end BulletTime.Handoff
