import BulletTime.Kernel.SleepDilation
import BulletTime.Lib.Checked

/-!
# Kernel — SplitProduct

`mult_frac` splits the product into the quotient's and the remainder's part.  Here its arithmetic is
run again with every operation checked for overflow.

* `multFrac_of_checked`: where no intermediate overflows, the checked result is the handlers'.
* `multFracChecked_eq_some`: in a fraction of 1000, none overflows exactly when the exact product is
  in range, and the result is the exact product.
* `split_multiplication_exact`: what a handler leaves in `regs->di` is the exact product, monotone
  in the request and in the factor, at the factor it returns early for included.
-/

namespace BulletTime.Kernel

/-! ### The checked computation -/

/-- `mult_frac(x, n, d)`, undefined where an intermediate result overflows. -/
def multFracChecked (x : Int64) (n d : UInt32) : Option Int64 := do
  let q ← Checked.div x (ofUnsigned d)
  let r ← Checked.mod x (ofUnsigned d)
  let qn ← Checked.mul q (ofUnsigned n)
  let rn ← Checked.mul r (ofUnsigned n)
  let frac ← Checked.div rn (ofUnsigned d)
  Checked.add qn frac

/-- The checked computation, step by step. -/
theorem multFracChecked_steps {x y : Int64} {n d : UInt32} :
    multFracChecked x n d = some y ↔
      ∃ q, Checked.div x (ofUnsigned d) = some q ∧
      ∃ r, Checked.mod x (ofUnsigned d) = some r ∧
      ∃ qn, Checked.mul q (ofUnsigned n) = some qn ∧
      ∃ rn, Checked.mul r (ofUnsigned n) = some rn ∧
      ∃ frac, Checked.div rn (ofUnsigned d) = some frac ∧ Checked.add qn frac = some y := by
  simp only [multFracChecked, Option.bind_eq_bind, Option.bind_eq_some_iff]

/-- Where no intermediate overflows, the checked result is the wrapping one. -/
theorem multFrac_of_checked {x y : Int64} {n d : UInt32} (h : multFracChecked x n d = some y) :
    y = multFrac x n d := by
  obtain ⟨q, hq, r, hr, qn, hqn, rn, hrn, frac, hfrac, hy⟩ := multFracChecked_steps.mp h
  rw [Checked.eq_of_add hy, Checked.eq_of_div hfrac, Checked.eq_of_mul hrn, Checked.eq_of_mul hqn,
    Checked.eq_of_mod hr, Checked.eq_of_div hq]
  rfl

theorem toNat_denominator : (dilationDenominator.toNat : Int) = 1000 := rfl

/-- **The checked computation is the exact product**, defined exactly where that is a word. -/
theorem multFracChecked_eq_some {x y : Int64} (hx : 0 < x.toInt) (f : UInt32) :
    multFracChecked x f dilationDenominator = some y ↔ y.toInt = x.toInt * f.toNat / 1000 := by
  have hd₀ : ofUnsigned dilationDenominator ≠ 0 := by decide
  have hd₁ : ofUnsigned dilationDenominator ≠ -1 := by decide
  have hsplit := Word.div_mul_add_mod_mul_div (show (0 : Int) < 1000 by decide) x.toInt f.toNat
  have hq₀ : 0 ≤ x.toInt / 1000 := Int.ediv_nonneg hx.le (by decide)
  obtain ⟨hrf₀, hrf₁⟩ := remainder_mul_bounds x.toInt f
  simp only [multFracChecked_steps, Checked.div_eq_some hd₀, Checked.mod_eq_some hd₀ hd₁,
    Checked.mul_eq_some, Checked.add_eq_some, toInt_ofUnsigned, toNat_denominator,
    Int.tdiv_eq_ediv_of_nonneg hx.le, Int.tmod_eq_emod_of_nonneg hx.le]
  constructor
  · rintro ⟨q, hq, r, hr, qn, hqn, rn, hrn, frac, hfrac, hy⟩
    rw [hr] at hrn
    rw [hrn, Int.tdiv_eq_ediv_of_nonneg hrf₀] at hfrac
    rw [hy, hqn, hq, hfrac, hsplit]
  · intro hy
    -- both parts lie between 0 and the exact product
    have hqf₀ : 0 ≤ x.toInt / 1000 * f.toNat := Int.mul_nonneg hq₀ (Int.natCast_nonneg _)
    have hfrac₀ : 0 ≤ x.toInt % 1000 * f.toNat / 1000 := Int.ediv_nonneg hrf₀ (by decide)
    have hxlt := x.toInt_lt
    have hylt := y.toInt_lt
    obtain ⟨q, hq⟩ := Checked.exists_toInt_eq (z := x.toInt / 1000) (by omega) (by omega)
    obtain ⟨r, hr⟩ := Checked.exists_toInt_eq (z := x.toInt % 1000) (by omega) (by omega)
    obtain ⟨qn, hqn⟩ := Checked.exists_toInt_eq (z := x.toInt / 1000 * f.toNat) (by omega)
      (by omega)
    obtain ⟨rn, hrn⟩ := Checked.exists_toInt_eq (z := x.toInt % 1000 * f.toNat) (by omega)
      (by omega)
    obtain ⟨frac, hfrac⟩ := Checked.exists_toInt_eq (z := x.toInt % 1000 * f.toNat / 1000)
      (by omega) (by omega)
    refine ⟨q, hq, r, hr, qn, by rw [hqn, hq], rn, by rw [hrn, hr], frac, ?_, ?_⟩
    · rw [hfrac, hrn, Int.tdiv_eq_ediv_of_nonneg hrf₀]
    · rw [hy, hqn, hfrac, hsplit]

/-- A sleep without end at a factor of 2.0 overflows. -/
example : multFracChecked 0x7fffffffffffffff 2000 dilationDenominator = none := by decide +kernel

/-! ### What a handler leaves in `regs->di` -/

/-- `regs->di` when the handler `h` returns. -/
def leftIn (h : Params → Task → UInt64 → Option UInt64) (m : Params) (curr : Task)
    (di : UInt64) : UInt64 :=
  (h m curr di).getD di

/-- A finite positive request of an interruptible task. -/
def SchedTimed (_ : Params) (curr : Task) (di : UInt64) : Prop :=
  0 < di.toInt64 ∧ di.toInt64 ≠ maxScheduleTimeout ∧ curr.state &&& taskInterruptible ≠ 0

/-- A positive request of a task the module targets. -/
def HrtimerTimed (m : Params) (curr : Task) (di : UInt64) : Prop :=
  0 < di.toInt64 ∧ ¬ (m.targetPid > 0 ∧ curr.tgid ≠ m.targetPid)

/-- On the requests `timed` admits whose exact product is in range, the handler `h` leaves the exact
product, computed without overflow, and keeps the order of requests and factors. -/
structure SplitExact (h : Params → Task → UInt64 → Option UInt64)
    (timed : Params → Task → UInt64 → Prop) : Prop where
  noOverflow : ∀ m curr di, timed m curr di → exactProduct m di < 0x8000000000000000 →
    multFracChecked di.toInt64 m.dilationFactor dilationDenominator =
      some (multFrac di.toInt64 m.dilationFactor dilationDenominator)
  exact : ∀ m curr di, timed m curr di → exactProduct m di < 0x8000000000000000 →
    (leftIn h m curr di).toInt64.toInt = exactProduct m di
  ordered : ∀ m m' curr curr' di di', timed m curr di → timed m' curr' di' →
    di.toInt64 ≤ di'.toInt64 → m.dilationFactor ≤ m'.dilationFactor →
    exactProduct m' di' < 0x8000000000000000 →
    (leftIn h m curr di).toInt64 ≤ (leftIn h m' curr' di').toInt64

section

variable {m : Params} {curr : Task} {di : UInt64}

theorem toInt_pos_of_pos (h : 0 < di.toInt64) : 0 < di.toInt64.toInt := by
  rw [Int64.lt_iff_toInt_lt] at h
  exact h

theorem exactProduct_nonneg (h : 0 < di.toInt64) : 0 ≤ exactProduct m di :=
  Int.ediv_nonneg (Int.mul_nonneg (toInt_pos_of_pos h).le (Int.natCast_nonneg _)) (by decide)

theorem multFracChecked_of_inRange (hdi : 0 < di.toInt64)
    (hlt : exactProduct m di < 0x8000000000000000) :
    multFracChecked di.toInt64 m.dilationFactor dilationDenominator =
      some (multFrac di.toInt64 m.dilationFactor dilationDenominator) := by
  have h₀ : 0 ≤ exactProduct m di := exactProduct_nonneg hdi
  obtain ⟨y, hy⟩ := Checked.exists_toInt_eq (z := exactProduct m di) (by omega) hlt
  have hc := (multFracChecked_eq_some (toInt_pos_of_pos hdi) m.dilationFactor).mpr hy
  rw [hc, multFrac_of_checked hc]

theorem multFrac_of_inRange (hdi : 0 < di.toInt64)
    (hlt : exactProduct m di < 0x8000000000000000) :
    (multFrac di.toInt64 m.dilationFactor dilationDenominator).toInt = exactProduct m di :=
  (multFracChecked_eq_some (toInt_pos_of_pos hdi) _).mp (multFracChecked_of_inRange hdi hlt)

/-- At the factor 1.0 the exact product is the request. -/
theorem exactProduct_denominator (h : m.dilationFactor = dilationDenominator) :
    exactProduct m di = di.toInt64.toInt := by
  rw [exactProduct, h]
  exact Int.mul_ediv_cancel _ (by decide)

/-- The exact product grows with the request and with the factor. -/
theorem exactProduct_le {m' : Params} {di' : UInt64} (hdi : 0 < di.toInt64)
    (hle : di.toInt64 ≤ di'.toInt64) (hf : m.dilationFactor ≤ m'.dilationFactor) :
    exactProduct m di ≤ exactProduct m' di' := by
  have hx : di.toInt64.toInt ≤ di'.toInt64.toInt := Int64.le_iff_toInt_le.mp hle
  have hn : (m.dilationFactor.toNat : Int) ≤ m'.dilationFactor.toNat := by
    exact_mod_cast UInt32.le_iff_toNat_le.mp hf
  refine Int.ediv_le_ediv (by decide) (Int.mul_le_mul hx hn (Int.natCast_nonneg _) ?_)
  exact (toInt_pos_of_pos hdi).le.trans hx

end

/-- A handler that stores the product for every timed request at a factor other than 1.0, and
leaves the others alone, leaves the exact product. -/
theorem splitExact_of_stores {h : Params → Task → UInt64 → Option UInt64}
    {timed : Params → Task → UInt64 → Prop}
    (hpos : ∀ {m curr di}, timed m curr di → 0 < di.toInt64)
    (hunit : ∀ {m curr di}, m.dilationFactor = dilationDenominator → h m curr di = none)
    (hstore : ∀ {m curr di}, timed m curr di → m.dilationFactor ≠ dilationDenominator →
      h m curr di = some (multFrac di.toInt64 m.dilationFactor dilationDenominator).toUInt64) :
    SplitExact h timed := by
  have hexact : ∀ m curr di, timed m curr di → exactProduct m di < 0x8000000000000000 →
      (leftIn h m curr di).toInt64.toInt = exactProduct m di := by
    intro m curr di ht hlt
    by_cases hf : m.dilationFactor = dilationDenominator
    · rw [leftIn, hunit hf, exactProduct_denominator hf]
      rfl
    · rw [leftIn, hstore ht hf, Option.getD_some, Int64.toInt64_toUInt64]
      exact multFrac_of_inRange (hpos ht) hlt
  refine ⟨?_, hexact, ?_⟩
  · intro m curr di ht hlt
    exact multFracChecked_of_inRange (hpos ht) hlt
  · intro m m' curr curr' di di' ht ht' hle hf hlt
    have hprod := exactProduct_le (hpos ht) hle hf
    rw [Int64.le_iff_toInt_le, hexact m curr di ht (hprod.trans_lt hlt),
      hexact m' curr' di' ht' hlt]
    exact hprod

theorem handlerPreSchedTimeout_unit {m : Params} {curr : Task} {di : UInt64}
    (h : m.dilationFactor = dilationDenominator) : handlerPreSchedTimeout m curr di = none := by
  simp [handlerPreSchedTimeout, h]

theorem handlerPreHrtimerNanosleep_unit {m : Params} {curr : Task} {di : UInt64}
    (h : m.dilationFactor = dilationDenominator) :
    handlerPreHrtimerNanosleep m curr di = none := by
  simp [handlerPreHrtimerNanosleep, h]

/-- **Split multiplication is exact and order-preserving**, in both handlers. -/
theorem split_multiplication_exact :
    SplitExact handlerPreSchedTimeout SchedTimed ∧
      SplitExact handlerPreHrtimerNanosleep HrtimerTimed := by
  constructor
  · refine splitExact_of_stores (fun ht => ht.1) handlerPreSchedTimeout_unit ?_
    rintro m curr di ⟨hpos, hmax, hint⟩ hf
    exact handlerPreSchedTimeout_eq_some.mpr ⟨⟨hmax, hint, hf, Int64.not_le.mpr hpos⟩, rfl⟩
  · refine splitExact_of_stores (fun ht => ht.1) handlerPreHrtimerNanosleep_unit ?_
    rintro m curr di ⟨hpos, htarget⟩ hf
    exact handlerPreHrtimerNanosleep_eq_some.mpr ⟨⟨htarget, hf, Int64.not_le.mpr hpos⟩, rfl⟩

end BulletTime.Kernel
