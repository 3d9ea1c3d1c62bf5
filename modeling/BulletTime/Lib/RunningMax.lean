import Mathlib.Order.Lattice
import Mathlib.Order.MinMax

/-!
# Lib — RunningMax

The largest of a starting value and the values seen so far, kept as a program keeps it: raised by
each value above it.

* `runningMax_snoc`: seeing one more value.
* `runningMax_le_iff` and `lt_runningMax_iff`: bounds from above, and who exceeds a bound.
-/

namespace RunningMax

variable {α : Type*} [LinearOrder α]

/-- The largest of `z` and the members of `l`. -/
def runningMax (z : α) (l : List α) : α := l.foldl max z

@[simp] theorem runningMax_nil (z : α) : runningMax z [] = z := rfl

theorem runningMax_snoc (z : α) (l : List α) (a : α) :
    runningMax z (l ++ [a]) = max (runningMax z l) a := by
  rw [runningMax, List.foldl_append]
  rfl

theorem runningMax_le_iff {z c : α} {l : List α} :
    runningMax z l ≤ c ↔ z ≤ c ∧ ∀ a ∈ l, a ≤ c := by
  induction l generalizing z with
  | nil => exact ⟨fun h => ⟨h, nofun⟩, fun h => h.1⟩
  | cons a l ih =>
      have hcons : runningMax z (a :: l) = runningMax (max z a) l := rfl
      rw [hcons, ih, max_le_iff, List.forall_mem_cons, and_assoc]

theorem lt_runningMax_iff {z c : α} {l : List α} :
    c < runningMax z l ↔ c < z ∨ ∃ a ∈ l, c < a := by
  rw [← not_le, runningMax_le_iff, not_and_or, not_le]
  push Not
  rfl

theorem start_le_runningMax (z : α) (l : List α) : z ≤ runningMax z l :=
  (runningMax_le_iff.mp le_rfl).1

theorem le_runningMax {z a : α} {l : List α} (h : a ∈ l) : a ≤ runningMax z l :=
  (runningMax_le_iff.mp le_rfl).2 a h

/-- One more value, or none. -/
theorem runningMax_append_toList (z : α) (l : List α) (o : Option α) :
    runningMax z (l ++ o.toList) = o.elim (runningMax z l) (max (runningMax z l)) := by
  cases o with
  | none => rw [Option.toList_none, List.append_nil]; rfl
  | some a => exact runningMax_snoc z l a

end RunningMax
