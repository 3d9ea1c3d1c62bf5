import Mathlib.Data.Int.Basic
import Mathlib.Tactic.NormNum

/-!
# Lib — Checked

Signed 64-bit arithmetic that reports overflow: an operation is defined exactly where its integer
result is a word, and there it is the operation of the wrapping words.

* `ofInt_eq_some`, `exists_toInt_eq`: the word of an integer in range.
* `add_eq_some`, `mul_eq_some`, `div_eq_some`, `mod_eq_some`: an operation, by its integer result.
* `eq_of_add`, `eq_of_mul`, `eq_of_div`, `eq_of_mod`: where it is defined, the words wrap to it.
-/

namespace Checked

/-- The word of `z`, if there is one. -/
def ofInt (z : Int) : Option Int64 :=
  if -0x8000000000000000 ≤ z ∧ z < 0x8000000000000000 then some (Int64.ofInt z) else none

theorem ofInt_eq_some {z : Int} {y : Int64} : ofInt z = some y ↔ y.toInt = z := by
  have hlo := y.le_toInt
  have hhi := y.toInt_lt
  rw [ofInt]
  split
  · rename_i h
    rw [Option.some.injEq]
    constructor
    · rintro rfl
      exact Int64.toInt_ofInt_of_le h.1 h.2
    · rintro rfl
      exact Int64.ofInt_toInt y
  · rename_i h
    constructor
    · intro hn
      cases hn
    · intro hz
      exact absurd (show _ ∧ _ from ⟨by omega, by omega⟩) h

theorem exists_toInt_eq {z : Int} (h₀ : -0x8000000000000000 ≤ z) (h₁ : z < 0x8000000000000000) :
    ∃ y : Int64, y.toInt = z :=
  ⟨Int64.ofInt z, Int64.toInt_ofInt_of_le h₀ h₁⟩

def add (a b : Int64) : Option Int64 := ofInt (a.toInt + b.toInt)

def mul (a b : Int64) : Option Int64 := ofInt (a.toInt * b.toInt)

/-- The quotient, truncated: undefined for a zero divisor. -/
def div (a b : Int64) : Option Int64 :=
  if b = 0 then none else ofInt (a.toInt.tdiv b.toInt)

/-- The remainder of the truncated quotient: undefined where the quotient is. -/
def mod (a b : Int64) : Option Int64 := (div a b).bind fun _ => ofInt (a.toInt.tmod b.toInt)

section

variable {a b c : Int64}

theorem add_eq_some : add a b = some c ↔ c.toInt = a.toInt + b.toInt := ofInt_eq_some

theorem mul_eq_some : mul a b = some c ↔ c.toInt = a.toInt * b.toInt := ofInt_eq_some

theorem div_eq_some (hb : b ≠ 0) : div a b = some c ↔ c.toInt = a.toInt.tdiv b.toInt := by
  rw [div, if_neg hb]
  exact ofInt_eq_some

theorem mod_eq_some (hb : b ≠ 0) (hn : b ≠ -1) :
    mod a b = some c ↔ c.toInt = a.toInt.tmod b.toInt := by
  have hq : div a b = some (a / b) := by
    rw [div_eq_some hb, Int64.toInt_div_of_ne_right _ _ hn]
  rw [mod, hq]
  exact ofInt_eq_some

/-- A word is the balanced residue of itself. -/
theorem bmod_toInt (c : Int64) : c.toInt.bmod (2 ^ 64) = c.toInt := by
  have hlo := c.le_toInt
  have hhi := c.toInt_lt
  exact Int.bmod_eq_of_le (by omega) (by omega)

theorem eq_of_add (h : add a b = some c) : c = a + b := by
  rw [← Int64.toInt_inj, Int64.toInt_add, ← add_eq_some.mp h, bmod_toInt]

theorem eq_of_mul (h : mul a b = some c) : c = a * b := by
  rw [← Int64.toInt_inj, Int64.toInt_mul, ← mul_eq_some.mp h, bmod_toInt]

theorem eq_of_div (h : div a b = some c) : c = a / b := by
  rw [div] at h
  split at h
  · cases h
  · rw [← Int64.toInt_inj, Int64.toInt_div, ← ofInt_eq_some.mp h, bmod_toInt]

theorem eq_of_mod (h : mod a b = some c) : c = a % b := by
  obtain ⟨q, -, hc⟩ := Option.bind_eq_some_iff.mp h
  rw [← Int64.toInt_inj, Int64.toInt_mod, ofInt_eq_some.mp hc]

end

end Checked
