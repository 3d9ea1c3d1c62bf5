import Mathlib.Data.Int.Basic
import Mathlib.Tactic.Ring
import Mathlib.Tactic.Linarith

/-!
# Lib — Word

Signed words as the balanced residues of integers.

* `bmod_mem_iff`: a balanced residue lies in an interval inside the word's range exactly when the
  integer lies in one of the interval's translates.
* `div_mul_add_mod_mul_div`: a fraction of `x` computed from the quotient and the remainder of `x`
  is the fraction of `x`, rounded down once.
-/

namespace Word

/-- The balanced residue of `x` modulo `m` is in `[a, b)`, an interval of the residues, exactly when
`x` is in a translate of `[a, b)` by a multiple of `m`. -/
theorem bmod_mem_iff {x a b : Int} {m : Nat} (hm : 0 < m) (ha : -(m / 2 : Int) ≤ a)
    (hb : b ≤ (m + 1) / 2) :
    (a ≤ x.bmod m ∧ x.bmod m < b) ↔ ∃ k : Int, m * k + a ≤ x ∧ x < m * k + b := by
  constructor
  · rintro ⟨h₁, h₂⟩
    refine ⟨(x - x.bmod m) / m, ?_⟩
    have hdvd : (m : Int) ∣ x - x.bmod m := by
      rw [← Int.dvd_neg, Int.neg_sub]
      exact Int.dvd_bmod_sub_self
    rw [Int.mul_ediv_cancel' hdvd]
    omega
  · rintro ⟨k, h₁, h₂⟩
    have hx : x.bmod m = x - m * k := by
      refine (Int.bmod_eq_iff hm).mpr ⟨by omega, by omega, ⟨-k, by ring⟩⟩
    omega

theorem div_mul_add_mod_mul_div {d : Int} (hd : 0 < d) (x n : Int) :
    x / d * n + x % d * n / d = x * n / d := by
  have hx : x * n = x % d * n + x / d * n * d := by
    calc x * n = (d * (x / d) + x % d) * n := by rw [Int.mul_ediv_add_emod]
      _ = x % d * n + x / d * n * d := by ring
  rw [hx, Int.add_mul_ediv_right _ _ hd.ne', add_comm]

end Word
