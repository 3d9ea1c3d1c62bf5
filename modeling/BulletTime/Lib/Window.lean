import Mathlib.Algebra.BigOperators.Group.List.Basic
import Mathlib.Algebra.BigOperators.Ring.List
import Mathlib.Algebra.Order.BigOperators.Group.List
import Mathlib.Algebra.Order.Field.Basic
import Mathlib.Tactic.Ring

/-!
# Lib — Window

A counter that adds what it sees, and is scaled at the end of each period, or reset if it has seen
nothing in it.  The history of the items is a list of periods, the current one first.

* `windowed`: the sum over the current period and the busy ones before it, back to the last idle
  period, each weighted by the factor to the number of periods since.
* `windowed_push`, `windowed_tick`, `windowed_tick_idle`: adding, scaling and resetting are what
  the three events do to that sum, so a counter that does so is that sum.
* `exists_div_le` and `exists_le_div`: the quotient of two such sums lies between the quotients of
  the items.
-/

namespace Window

variable {α : Type*} {K : Type*} [Field K]

/-- Seeing an item in the current period. -/
def push (a : α) : List (List α) → List (List α)
  | [] => [[a]]
  | cur :: past => (cur ++ [a]) :: past

/-- The end of a period. -/
def tick (h : List (List α)) : List (List α) := [] :: h

/-- The items of the current period. -/
def current : List (List α) → List α
  | [] => []
  | cur :: _ => cur

/-- The current period and the busy periods directly before it. -/
def sinceIdle : List (List α) → List (List α)
  | [] => []
  | cur :: past => cur :: past.takeWhile fun p => !p.isEmpty

/-- The sum over the periods `ps`, the `k`-th weighted by `q ^ k`. -/
def discounted (q : K) (f : α → K) (ps : List (List α)) : K :=
  (ps.zipIdx.map fun p => q ^ p.2 * (p.1.map f).sum).sum

/-- The discounted sum since the last idle period. -/
def windowed (q : K) (f : α → K) (h : List (List α)) : K := discounted q f (sinceIdle h)

@[simp] theorem current_push (a : α) (h : List (List α)) :
    current (push a h) = current h ++ [a] := by
  cases h <;> rfl

@[simp] theorem current_tick (h : List (List α)) : current (tick h) = [] := rfl

@[simp] theorem discounted_nil (q : K) (f : α → K) : discounted q f [] = 0 := rfl

/-- The oldest weights are one factor further away. -/
theorem discounted_cons (q : K) (f : α → K) (p : List α) (ps : List (List α)) :
    discounted q f (p :: ps) = (p.map f).sum + q * discounted q f ps := by
  have hshift : ∀ l : List (List α × ℕ),
      (l.map fun x => q ^ (x.2 + 1) * (x.1.map f).sum).sum =
        q * (l.map fun x => q ^ x.2 * (x.1.map f).sum).sum := by
    intro l
    induction l with
    | nil => simp
    | cons x l ih => rw [List.map_cons, List.map_cons, List.sum_cons, List.sum_cons, ih]; ring
  rw [discounted, List.zipIdx_cons, List.map_cons, List.sum_cons, pow_zero, one_mul,
    List.zipIdx_succ, List.map_map, discounted, ← hshift]
  rfl

theorem discounted_empty (q : K) (f : α → K) : discounted q f [[]] = 0 := by
  rw [discounted_cons, discounted_nil, mul_zero, add_zero]
  rfl

theorem discounted_push (q : K) (f : α → K) (a : α) (ps : List (List α)) :
    discounted q f (push a ps) = discounted q f ps + f a := by
  cases ps with
  | nil =>
      have h : push a [] = [[a]] := rfl
      rw [h, discounted_cons, List.map_singleton, List.sum_singleton, discounted_nil, mul_zero,
        add_zero, zero_add]
  | cons cur past =>
      have h : push a (cur :: past) = (cur ++ [a]) :: past := rfl
      rw [h, discounted_cons, discounted_cons, List.map_append, List.sum_append,
        List.map_singleton, List.sum_singleton, add_right_comm]

theorem discounted_tick (q : K) (f : α → K) (ps : List (List α)) :
    discounted q f (tick ps) = discounted q f ps * q := by
  rw [tick, discounted_cons, List.map_nil, List.sum_nil, zero_add, mul_comm]

theorem discounted_mul_left (q c : K) (f : α → K) (ps : List (List α)) :
    discounted q (fun a => c * f a) ps = c * discounted q f ps := by
  induction ps with
  | nil => rw [discounted_nil, discounted_nil, mul_zero]
  | cons p ps ih => rw [discounted_cons, discounted_cons, ih, List.sum_map_mul_left]; ring

/-! ### Since the last idle period -/

@[simp] theorem windowed_empty (q : K) (f : α → K) : windowed q f [[]] = 0 := discounted_empty q f

/-- **Adding.** -/
theorem windowed_push (q : K) (f : α → K) (a : α) (h : List (List α)) :
    windowed q f (push a h) = windowed q f h + f a := by
  have hpush : sinceIdle (push a h) = push a (sinceIdle h) := by
    cases h <;> rfl
  rw [windowed, hpush, discounted_push, windowed]

/-- **Scaling** at the end of a busy period. -/
theorem windowed_tick (q : K) (f : α → K) {h : List (List α)} (hc : current h ≠ []) :
    windowed q f (tick h) = windowed q f h * q := by
  cases h with
  | nil => exact absurd rfl hc
  | cons cur past =>
      have hbusy : (!cur.isEmpty) = true := by
        rw [Bool.not_eq_true', List.isEmpty_eq_false_iff]
        exact hc
      have htick : sinceIdle (tick (cur :: past)) = tick (sinceIdle (cur :: past)) := by
        rw [tick, sinceIdle, List.takeWhile_cons, if_pos hbusy]
        rfl
      rw [windowed, htick, discounted_tick, windowed]

/-- **Resetting** at the end of an idle period. -/
theorem windowed_tick_idle (q : K) (f : α → K) {h : List (List α)} (hc : current h = []) :
    windowed q f (tick h) = 0 := by
  cases h with
  | nil => exact discounted_empty q f
  | cons cur past =>
      obtain rfl : cur = [] := hc
      exact discounted_empty q f

/-! ### Quotients -/

section Order
variable [LinearOrder K] [IsStrictOrderedRing K] {q : K} {f g : α → K} {ps : List (List α)}

theorem discounted_le (hq : 0 ≤ q) (h : ∀ a ∈ ps.flatten, f a ≤ g a) :
    discounted q f ps ≤ discounted q g ps := by
  induction ps with
  | nil => exact le_rfl
  | cons p ps ih =>
      rw [List.flatten_cons] at h
      rw [discounted_cons, discounted_cons]
      exact add_le_add (List.sum_le_sum fun a ha => h a (List.mem_append_left _ ha))
        (mul_le_mul_of_nonneg_left (ih fun a ha => h a (List.mem_append_right _ ha)) hq)

theorem discounted_lt (hq : 0 < q) (hne : ps.flatten ≠ []) (h : ∀ a ∈ ps.flatten, f a < g a) :
    discounted q f ps < discounted q g ps := by
  induction ps with
  | nil => exact absurd rfl hne
  | cons p ps ih =>
      rw [List.flatten_cons] at h hne
      have hp := fun a ha => h a (List.mem_append_left _ ha)
      have hps := fun a ha => h a (List.mem_append_right _ ha)
      rw [discounted_cons, discounted_cons]
      by_cases hnil : p = []
      · -- the items are in the older periods
        subst hnil
        exact add_lt_add_right (mul_lt_mul_of_pos_left (ih hne hps) hq) _
      · exact add_lt_add_of_lt_of_le (List.sum_lt_sum_of_ne_nil hnil _ _ hp)
          (mul_le_mul_of_nonneg_left (discounted_le hq.le fun a ha => (hps a ha).le) hq.le)

theorem discounted_pos (hq : 0 < q) (hne : ps.flatten ≠ []) (h : ∀ a ∈ ps.flatten, 0 < g a) :
    0 < discounted q g ps := by
  have hlt := discounted_lt (f := fun _ => 0 * 0) hq hne (by simpa using h)
  rwa [discounted_mul_left, zero_mul] at hlt

/-- **The quotient of the sums** is at least that of some item. -/
theorem exists_div_le (hq : 0 < q) (hne : ps.flatten ≠ []) (hg : ∀ a ∈ ps.flatten, 0 < g a) :
    ∃ a ∈ ps.flatten, f a / g a ≤ discounted q f ps / discounted q g ps := by
  by_contra hall
  push Not at hall
  set r := discounted q f ps / discounted q g ps with hr
  have hlt : discounted q (fun a => r * g a) ps < discounted q f ps :=
    discounted_lt hq hne fun a ha => (lt_div_iff₀ (hg a ha)).mp (hall a ha)
  rw [discounted_mul_left, hr, div_mul_cancel₀ _ (discounted_pos hq hne hg).ne'] at hlt
  exact lt_irrefl _ hlt

/-- **The quotient of the sums** is at most that of some item. -/
theorem exists_le_div (hq : 0 < q) (hne : ps.flatten ≠ []) (hg : ∀ a ∈ ps.flatten, 0 < g a) :
    ∃ a ∈ ps.flatten, discounted q f ps / discounted q g ps ≤ f a / g a := by
  by_contra hall
  push Not at hall
  set r := discounted q f ps / discounted q g ps with hr
  have hlt : discounted q f ps < discounted q (fun a => r * g a) ps :=
    discounted_lt hq hne fun a ha => (div_lt_iff₀ (hg a ha)).mp (hall a ha)
  rw [discounted_mul_left, hr, div_mul_cancel₀ _ (discounted_pos hq hne hg).ne'] at hlt
  exact lt_irrefl _ hlt

end Order

end Window
