import Mathlib.Algebra.BigOperators.Group.Finset.Piecewise
import Mathlib.Data.Nat.ModEq
import BulletTime.Lib.Transition

/-!
# Lib — Accounts

Quantities spread over the parts of a state, counted modulo `n`.

* `sum_update`, `sum_update_modEq`: one part is replaced by another.
* `exec_modEq`: what every step adds, a run adds up.
-/

namespace Accounts
open Transition

theorem modEq_of_eq {a b n : ℕ} (h : a = b) : a ≡ b [MOD n] := by rw [h]

section Sum

variable {ι π : Type*} [Fintype ι] [DecidableEq ι]

/-- The sum over all parts, when the part `t` becomes `x`. -/
theorem sum_update (w : π → ℕ) (f : ι → π) (t : ι) (x : π) :
    (∑ u, w (Function.update f t x u)) + w (f t) = (∑ u, w (f u)) + w x := by
  have hupdate : (fun u => w (Function.update f t x u)) =
      Function.update (fun u => w (f u)) t (w x) := Function.comp_update w f t x
  have hrest := Finset.add_sum_erase Finset.univ (fun u => w (f u)) (Finset.mem_univ t)
  rw [hupdate, Finset.sum_update_of_mem (Finset.mem_univ t), Finset.sdiff_singleton_eq_erase,
    ← hrest, add_assoc, add_comm, add_comm (w (f t))]

/-- A part that grows by `a` makes the sum grow by `a`. -/
theorem sum_update_modEq {w : π → ℕ} {f : ι → π} {t : ι} {x : π} {a n : ℕ}
    (h : w x ≡ w (f t) + a [MOD n]) :
    ∑ u, w (Function.update f t x u) ≡ (∑ u, w (f u)) + a [MOD n] := by
  refine Nat.ModEq.add_right_cancel' (w (f t)) ?_
  rw [sum_update, add_assoc, add_comm a]
  exact h.add_left _

end Sum

section Run

variable {σ α : Type*} {step : σ → α → Option σ} {m : σ → ℕ} {amount : α → ℕ} {n : ℕ}

/-- **What every step adds, a run adds up.** -/
theorem exec_modEq
    (hstep : ∀ {s a t}, step s a = some t → m t ≡ m s + amount a [MOD n])
    {as : List α} {s t : σ} (h : exec step s as = some t) :
    m t ≡ m s + (as.map amount).sum [MOD n] := by
  induction as generalizing s with
  | nil =>
    cases h
    exact Nat.ModEq.rfl
  | cons a as ih =>
    obtain ⟨u, hu, h⟩ := Option.bind_eq_some_iff.mp h
    rw [List.map_cons, List.sum_cons, ← add_assoc]
    exact (ih h).trans ((hstep hu).add_right _)

end Run

end Accounts
