import Mathlib.Data.List.Basic
import BulletTime.Lib.LastOf

/-!
# Lib — PosixPath

Paths as strings of bytes, and where they lead.

* `components`: the names between the slashes; an empty one and `.` lead nowhere.
* `Same`: two paths from the same start along the same names.
* `parent`: the path of the directory a file stands in.
-/

namespace PosixPath
open LastOf

/-- The names of a path, without the empty ones and `.`. -/
def components (path : List UInt8) : List (List UInt8) :=
  (path.splitOn 47).filter fun c => c ≠ [] ∧ c ≠ [46]

/-- The paths lead the same way: both from the root or both not, along the same names. -/
def Same (p q : List UInt8) : Prop :=
  (p.head? = some 47 ↔ q.head? = some 47) ∧ components p = components q

instance (p q : List UInt8) : Decidable (Same p q) := inferInstanceAs (Decidable (_ ∧ _))

/-- The directory of a file: what stands before the last slash. -/
def parent (path : List UInt8) : List UInt8 :=
  match lastOf 47 path with
  | some i => path.take i
  | none => [46]

variable {p q r : List UInt8}

theorem Same.refl (p : List UInt8) : Same p p := ⟨Iff.rfl, rfl⟩

theorem components_append_slash (p q : List UInt8) :
    components (p ++ 47 :: q) = components p ++ components q := by
  rw [components, List.splitOn_append_cons_self, List.filter_append]
  rfl

/-- A path of one name. -/
theorem components_of_notMem (h : 47 ∉ p) :
    components p = if p = [] ∨ p = [46] then [] else [p] := by
  rw [components, List.splitOn_eq_singleton h, List.filter_singleton]
  simp only [ne_eq, ← not_or]
  by_cases hp : p = [] ∨ p = [46] <;> simp [hp]

/-- It leads nowhere where the name is empty or a period. -/
theorem components_eq_nil_iff (h : 47 ∉ p) : components p = [] ↔ p = [] ∨ p = [46] := by
  rw [components_of_notMem h]
  split_ifs with hp
  · exact iff_of_true rfl hp
  · exact iff_of_false not_false hp

theorem parent_append_slash (p : List UInt8) (h : 47 ∉ q) : parent (p ++ 47 :: q) = p := by
  rw [parent, lastOf_append_cons p h]
  exact List.take_left

/-- A name below one directory and below another one leads the same way only where they do. -/
theorem Same.components_eq (h : Same (p ++ 47 :: r) (q ++ 47 :: r)) :
    components p = components q := by
  have heq := h.2
  rw [components_append_slash, components_append_slash] at heq
  exact List.append_cancel_right heq

/-- **A detour**: the name between two slashes leads nowhere exactly where it is empty or a
period. -/
theorem same_detour_iff (h : 47 ∉ q) :
    Same (p ++ 47 :: q ++ 47 :: r) (p ++ 47 :: r) ↔ q = [] ∨ q = [46] := by
  have hhead : ∀ l : List UInt8, (p ++ 47 :: l).head? = (p ++ [47]).head? := by
    intro l
    cases p <;> rfl
  rw [Same, List.append_assoc, List.cons_append, hhead, hhead r, components_append_slash,
    components_append_slash, components_append_slash, List.append_cancel_left_eq,
    List.append_left_eq_self, components_eq_nil_iff h]
  exact and_iff_right Iff.rfl

end PosixPath
