import Mathlib.Data.List.Basic

/-!
# Lib — PosFile

A file as its sequence of bytes, written through a descriptor that has a running offset or appends.

* `writeAt`: the content after a write at an offset; what lies beyond the written range stays.
* `Fd.write`: the content and the descriptor after a write; an appending descriptor writes at the
  end whatever its offset is.
* `Fd.AtEnd` holds where the next write appends (`write_atEnd`).
* `length_write_lt`: a non-empty write from inside the file makes it grow by less than it writes.
-/

namespace PosFile

variable {α : Type*}

/-- The content of `f` after `data` is written at offset `off`; a gap is filled with `z`. -/
def writeAt (z : α) (f : List α) (off : Nat) (data : List α) : List α :=
  if data = [] then f
  else f.take off ++ List.replicate (off - f.length) z ++ data ++ f.drop (off + data.length)

@[simp] theorem writeAt_nil (z : α) (f : List α) (off : Nat) : writeAt z f off [] = f := rfl

theorem writeAt_length (z : α) (f data : List α) : writeAt z f f.length data = f ++ data := by
  unfold writeAt
  split
  · rename_i h; simp [h]
  · simp

theorem length_writeAt {z : α} {f : List α} {off : Nat} {data : List α} (h : data ≠ []) :
    (writeAt z f off data).length = max f.length (off + data.length) := by
  simp only [writeAt, if_neg h, List.length_append, List.length_take, List.length_replicate,
    List.length_drop]
  omega

/-- An open file description: its offset, and whether it was opened to append. -/
structure Fd where
  offset : Nat
  append : Bool
  deriving DecidableEq, Repr

namespace Fd

/-- Where the next write goes in a file of content `f`. -/
def pos (d : Fd) (f : List α) : Nat := if d.append then f.length else d.offset

/-- Write `data`: the new content and the moved descriptor. -/
def write (z : α) (d : Fd) (f data : List α) : List α × Fd :=
  (writeAt z f (d.pos f) data, { d with offset := d.pos f + data.length })

/-- The next write goes to the end of the file. -/
def AtEnd (d : Fd) (f : List α) : Prop := d.pos f = f.length

theorem atEnd_append {d : Fd} (h : d.append = true) (f : List α) : d.AtEnd f := by
  simp [AtEnd, pos, h]

/-- At the end of the file, a write appends. -/
theorem write_atEnd {z : α} {d : Fd} {f : List α} (h : d.AtEnd f) (data : List α) :
    (d.write z f data).1 = f ++ data := by
  unfold AtEnd at h
  rw [write, h, writeAt_length]

theorem length_write_le {z : α} {d : Fd} {f : List α} (h : d.pos f ≤ f.length) (data : List α) :
    (d.write z f data).1.length ≤ f.length + data.length := by
  by_cases hd : data = []
  · simp [write, hd]
  · simp only [write, length_writeAt hd]
    omega

/-- A write from inside the file overwrites some of it. -/
theorem length_write_lt {z : α} {d : Fd} {f data : List α} (h : d.pos f < f.length)
    (hd : data ≠ []) : (d.write z f data).1.length < f.length + data.length := by
  have := List.length_pos_iff.mpr hd
  simp only [write, length_writeAt hd]
  omega

/-- The offset stays within the file. -/
theorem pos_write_le {z : α} {d : Fd} {f : List α} (h : d.pos f ≤ f.length) (data : List α) :
    (d.write z f data).2.pos (d.write z f data).1 ≤ (d.write z f data).1.length := by
  by_cases hd : data = []
  · subst hd
    simp only [write, pos, writeAt_nil, List.length_nil, Nat.add_zero] at h ⊢
    split <;> simp_all
  · simp only [write, pos, length_writeAt hd] at h ⊢
    split
    · exact Nat.le_refl _
    · rename_i ha
      simp only [if_neg ha] at h ⊢
      omega

end Fd

end PosFile
