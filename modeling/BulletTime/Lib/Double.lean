import Mathlib.Algebra.Order.Field.Rat
import Mathlib.Tactic.SplitIfs

/-!
# Lib — Double

Floating-point arithmetic without rounding: the finite values are rationals, and what overflow,
division by zero and undefined operations give is as in IEEE 754.  Zero has no sign.

* `Double`: a rational, an infinity or nan, with its four operations and its comparison.
* `Double.Nonneg`: a finite value that is not negative; kept by sums, products and quotients by
  anything but zero.
* `isFinite_fin_add`, `isFinite_fin_mul` and `isFinite_div_iff`: where an operation leaves the
  finite values.
-/

/-- A `double`. -/
inductive Double where
  | fin (q : ℚ)
  | inf (negative : Bool)
  | nan
  deriving DecidableEq

namespace Double

/-- The sign of a rational, zero being positive. -/
def negative (q : ℚ) : Bool := decide (q < 0)

def add : Double → Double → Double
  | .fin p, .fin q => .fin (p + q)
  | .inf a, .fin _ | .fin _, .inf a => .inf a
  | .inf a, .inf b => if a = b then .inf a else .nan
  | .nan, _ | _, .nan => .nan

def neg : Double → Double
  | .fin q => .fin (-q)
  | .inf a => .inf !a
  | .nan => .nan

def mul : Double → Double → Double
  | .fin p, .fin q => .fin (p * q)
  | .inf a, .fin q | .fin q, .inf a => if q = 0 then .nan else .inf (a ^^ negative q)
  | .inf a, .inf b => .inf (a ^^ b)
  | .nan, _ | _, .nan => .nan

def div : Double → Double → Double
  | .fin p, .fin q =>
      if q ≠ 0 then .fin (p / q) else if p = 0 then .nan else .inf (negative p)
  | .inf a, .fin q => .inf (a ^^ negative q)
  | .fin _, .inf _ => .fin 0
  | .inf _, .inf _ => .nan
  | .nan, _ | _, .nan => .nan

/-- `x < y`, which nothing is with nan. -/
def lt : Double → Double → Bool
  | .fin p, .fin q => decide (p < q)
  | .fin _, .inf b => !b
  | .inf a, .fin _ => a
  | .inf a, .inf b => a && !b
  | .nan, _ | _, .nan => false

/-- `x == y`, which nothing is with nan. -/
def eq : Double → Double → Bool
  | .fin p, .fin q => decide (p = q)
  | .inf a, .inf b => a == b
  | _, _ => false

def isNan : Double → Bool
  | .nan => true
  | _ => false

def isInf : Double → Bool
  | .inf _ => true
  | _ => false

instance : Add Double := ⟨add⟩
instance : Sub Double := ⟨fun x y => add x (neg y)⟩
instance : Mul Double := ⟨mul⟩
instance : Div Double := ⟨div⟩

section Finite
variable {p q : ℚ} {x y : Double}

theorem fin_add : fin p + fin q = fin (p + q) := rfl

theorem fin_sub : fin p - fin q = fin (p - q) := congrArg fin (sub_eq_add_neg p q).symm

theorem fin_mul : fin p * fin q = fin (p * q) := rfl

theorem fin_div (h : q ≠ 0) : fin p / fin q = fin (p / q) := if_pos h

theorem fin_div_inf (b : Bool) : fin p / inf b = fin 0 := rfl

theorem fin_div_zero (p : ℚ) :
    fin p / fin 0 = if p = 0 then nan else inf (negative p) := by
  change (if (0 : ℚ) ≠ 0 then fin (p / 0) else _) = _
  exact if_neg (not_not.mpr rfl)

/-- A finite value. -/
def IsFinite (x : Double) : Prop := ∃ q, x = fin q

theorem isFinite_fin (q : ℚ) : IsFinite (fin q) := ⟨q, rfl⟩

theorem not_isFinite_nan : ¬ IsFinite nan := by
  rintro ⟨q, h⟩
  cases h

theorem not_isFinite_inf (b : Bool) : ¬ IsFinite (inf b) := by
  rintro ⟨q, h⟩
  cases h

theorem isFinite_iff : IsFinite x ↔ ¬ (x.isNan || x.isInf) = true := by
  cases x with
  | fin q => exact iff_of_true ⟨q, rfl⟩ Bool.false_ne_true
  | inf b => exact iff_of_false (not_isFinite_inf b) (not_not.mpr rfl)
  | nan => exact iff_of_false not_isFinite_nan (not_not.mpr rfl)

/-- Adding to a finite value. -/
theorem isFinite_fin_add : IsFinite (fin p + x) ↔ IsFinite x := by
  cases x with
  | fin q => exact iff_of_true ⟨_, rfl⟩ ⟨_, rfl⟩
  | inf b => exact iff_of_false (not_isFinite_inf b) (not_isFinite_inf b)
  | nan => exact iff_of_false not_isFinite_nan not_isFinite_nan

theorem isFinite_of_add (h : IsFinite (x + y)) : IsFinite y := by
  cases x with
  | fin p => exact isFinite_fin_add.mp h
  | nan => cases y <;> exact absurd h not_isFinite_nan
  | inf a =>
      cases y with
      | fin q => exact isFinite_fin q
      | nan => exact absurd h not_isFinite_nan
      | inf b =>
          change IsFinite (if a = b then inf a else nan) at h
          split_ifs at h
          · exact absurd h (not_isFinite_inf a)
          · exact absurd h not_isFinite_nan

/-- A finite value times one that is not finite is not finite, zero included. -/
theorem isFinite_fin_mul : IsFinite (fin p * x) ↔ IsFinite x := by
  cases x with
  | fin q => exact iff_of_true ⟨_, rfl⟩ ⟨_, rfl⟩
  | inf b =>
      refine iff_of_false ?_ (not_isFinite_inf b)
      by_cases hp : p = 0
      · rw [show fin p * inf b = nan from if_pos hp]
        exact not_isFinite_nan
      · rw [show fin p * inf b = inf (b ^^ negative p) from if_neg hp]
        exact not_isFinite_inf _
  | nan => exact iff_of_false not_isFinite_nan not_isFinite_nan

/-- A quotient of finite values is not finite where the divisor is zero. -/
theorem not_isFinite_fin_div_zero (p : ℚ) : ¬ IsFinite (fin p / fin 0) := by
  rw [fin_div_zero]
  split_ifs
  · exact not_isFinite_nan
  · exact not_isFinite_inf _

/-- **A finite quotient** is one of a finite value by anything but zero and nan. -/
theorem isFinite_div_iff : IsFinite (x / y) ↔ IsFinite x ∧ y ≠ fin 0 ∧ y ≠ nan := by
  cases x with
  | fin p =>
      refine Iff.trans ?_ (and_iff_right (isFinite_fin p)).symm
      cases y with
      | fin q =>
          by_cases hq : q = 0
          · subst hq
            exact iff_of_false (not_isFinite_fin_div_zero p) fun h => h.1 rfl
          · rw [fin_div hq]
            exact iff_of_true (isFinite_fin _) ⟨fun h => hq (fin.inj h), nofun⟩
      | inf b => exact iff_of_true ⟨0, rfl⟩ ⟨nofun, nofun⟩
      | nan => exact iff_of_false not_isFinite_nan fun h => h.2 rfl
  | inf a =>
      refine iff_of_false ?_ fun h => not_isFinite_inf a h.1
      cases y with
      | fin q => exact not_isFinite_inf _
      | inf b => exact not_isFinite_nan
      | nan => exact not_isFinite_nan
  | nan =>
      refine iff_of_false ?_ fun h => not_isFinite_nan h.1
      cases y <;> exact not_isFinite_nan

/-- What a quotient of finite values may be divided by again. -/
theorem fin_div_fin_ne : fin p / fin q ≠ fin 0 ∧ fin p / fin q ≠ nan ↔ p ≠ 0 := by
  by_cases hq : q = 0
  · subst hq
    rw [fin_div_zero]
    split_ifs with hp
    · exact iff_of_false (fun h => h.2 rfl) fun h => h hp
    · exact iff_of_true ⟨nofun, nofun⟩ hp
  · rw [fin_div hq, ne_eq, fin.injEq, div_eq_zero_iff, or_iff_left hq]
    exact and_iff_left nofun

end Finite

/-! ### Finite values that are not negative -/

/-- A finite value that is not negative. -/
def Nonneg (x : Double) : Prop := ∃ q, 0 ≤ q ∧ x = fin q

section Nonneg
variable {p q : ℚ} {x y : Double}

theorem nonneg_fin (h : 0 ≤ q) : Nonneg (fin q) := ⟨q, h, rfl⟩

theorem Nonneg.isFinite (h : Nonneg x) : IsFinite x := by
  obtain ⟨q, -, rfl⟩ := h
  exact ⟨q, rfl⟩

theorem Nonneg.add (hx : Nonneg x) (hy : Nonneg y) : Nonneg (x + y) := by
  obtain ⟨p, hp, rfl⟩ := hx
  obtain ⟨q, hq, rfl⟩ := hy
  exact ⟨p + q, add_nonneg hp hq, rfl⟩

theorem Nonneg.mul (hx : Nonneg x) (hy : Nonneg y) : Nonneg (x * y) := by
  obtain ⟨p, hp, rfl⟩ := hx
  obtain ⟨q, hq, rfl⟩ := hy
  exact ⟨p * q, mul_nonneg hp hq, rfl⟩

theorem Nonneg.div (hx : Nonneg x) (hy : Nonneg y) (h : y ≠ fin 0) : Nonneg (x / y) := by
  obtain ⟨p, hp, rfl⟩ := hx
  obtain ⟨q, hq, rfl⟩ := hy
  have hq0 : q ≠ 0 := fun e => h (congrArg fin e)
  exact ⟨p / q, div_nonneg hp hq, fin_div hq0⟩

end Nonneg

end Double
