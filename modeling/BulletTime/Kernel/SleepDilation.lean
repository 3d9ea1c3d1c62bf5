import Mathlib.Data.Int.Basic
import Mathlib.Tactic.NormNum
import BulletTime.Lib.Word

/-!
# Kernel — SleepDilation

The two kprobe handlers of the kernel module.  `long` and `ktime_t` are 64-bit words with wrapping
arithmetic, read from the unsigned register `regs->di`.

* `multFrac_toInt`: the dilated value is the exact product `⌊x·f/1000⌋`, wrapped to 64 bits.
* `dilated_sleep_not_shortened_iff`: the value a handler stores is positive and no shorter than the
  request exactly when the exact product lies in a window above the request, below the sign bit.

`[about the source]`: a handler's result is the value it stores in `regs->di`, `none` where it
returns before.
-/

namespace BulletTime.Kernel

/-- The module's two parameters. -/
structure Params where
  dilationFactor : UInt32 := 1000
  targetPid : Int32 := 0
  deriving DecidableEq

/-- What the handlers read of `current`. -/
structure Task where
  state : UInt32
  tgid : Int32
  deriving DecidableEq

/-- `DILATION_DENOMINATOR`. -/
def dilationDenominator : UInt32 := 1000

/-- `TASK_INTERRUPTIBLE`. -/
def taskInterruptible : UInt32 := 1

/-- `MAX_SCHEDULE_TIMEOUT`, which is `LONG_MAX`. -/
def maxScheduleTimeout : Int64 := Int64.maxValue

/-- An `unsigned int` operand converted to the 64-bit type of the other one. -/
def ofUnsigned (n : UInt32) : Int64 := n.toUInt64.toInt64

/-- `mult_frac(x, n, d)` in the type of `x`. -/
def multFrac (x : Int64) (n d : UInt32) : Int64 :=
  let q := x / ofUnsigned d
  let r := x % ofUnsigned d
  q * ofUnsigned n + r * ofUnsigned n / ofUnsigned d

/-- `handler_pre_sched_timeout`. -/
def handlerPreSchedTimeout (m : Params) (curr : Task) (di : UInt64) : Option UInt64 :=
  let timeout := di.toInt64
  -- indefinite sleeps
  if timeout = maxScheduleTimeout then none
  else if curr.state &&& taskInterruptible = 0 then none
  else if m.dilationFactor = dilationDenominator then none
  else if timeout ≤ 0 then none
  else some (multFrac timeout m.dilationFactor dilationDenominator).toUInt64

/-- `handler_pre_hrtimer_nanosleep`. -/
def handlerPreHrtimerNanosleep (m : Params) (curr : Task) (di : UInt64) : Option UInt64 :=
  if m.targetPid > 0 ∧ curr.tgid ≠ m.targetPid then none
  else if m.dilationFactor = dilationDenominator then none
  else
    let rqtp := di.toInt64
    if rqtp ≤ 0 then none
    else some (multFrac rqtp m.dilationFactor dilationDenominator).toUInt64

/-! ### The value stored -/

/-- `⌊x·f/1000⌋` over the integers, for the request `x` in `di`. -/
def exactProduct (m : Params) (di : UInt64) : Int :=
  di.toInt64.toInt * m.dilationFactor.toNat / 1000

theorem toInt_ofUnsigned (n : UInt32) : (ofUnsigned n).toInt = n.toNat := by
  have hlt : n.toUInt64.toBitVec.toNat < 2 ^ 32 := by
    rw [UInt64.toNat_toBitVec, UInt32.toNat_toUInt64]
    exact n.toNat_lt
  have h : (ofUnsigned n).toInt = n.toUInt64.toBitVec.toInt := rfl
  rw [h, BitVec.toInt_eq_toNat_of_lt (by omega), UInt64.toNat_toBitVec, UInt32.toNat_toUInt64]

/-- The remainder's part of the product is far from the sign bit. -/
theorem remainder_mul_bounds (x : Int) (f : UInt32) :
    0 ≤ x % 1000 * f.toNat ∧ x % 1000 * f.toNat < 1000 * 2 ^ 32 := by
  have hr₀ : 0 ≤ x % 1000 := Int.emod_nonneg x (by decide)
  have hr₁ : x % 1000 < 1000 := Int.emod_lt_of_pos x (by decide)
  have hf : (f.toNat : Int) < 2 ^ 32 := by exact_mod_cast f.toNat_lt
  exact ⟨Int.mul_nonneg hr₀ (Int.natCast_nonneg _),
    Int.mul_lt_mul' hr₁.le hf (Int.natCast_nonneg _) (by decide)⟩

/-- **The dilated value is the exact product, wrapped.** -/
theorem multFrac_toInt {x : Int64} (hx : 0 < x.toInt) (f : UInt32) :
    (multFrac x f dilationDenominator).toInt = (x.toInt * f.toNat / 1000).bmod (2 ^ 64) := by
  have hd : (ofUnsigned dilationDenominator).toInt = 1000 := toInt_ofUnsigned _
  have hd1 : ofUnsigned dilationDenominator ≠ -1 := by decide
  have hq : (x / ofUnsigned dilationDenominator).toInt = x.toInt / 1000 := by
    rw [Int64.toInt_div_of_ne_right _ _ hd1, hd, Int.tdiv_eq_ediv_of_nonneg hx.le]
  have hr : (x % ofUnsigned dilationDenominator).toInt = x.toInt % 1000 := by
    rw [Int64.toInt_mod, hd, Int.tmod_eq_emod_of_nonneg hx.le]
  -- only the product with the quotient can wrap
  obtain ⟨hrf₀, hrf₁⟩ := remainder_mul_bounds x.toInt f
  have hrf : (x % ofUnsigned dilationDenominator * ofUnsigned f).toInt
      = x.toInt % 1000 * f.toNat := by
    rw [Int64.toInt_mul, hr, toInt_ofUnsigned]
    exact Int.bmod_eq_of_le (by omega) (by omega)
  have hfrac : (x % ofUnsigned dilationDenominator * ofUnsigned f
      / ofUnsigned dilationDenominator).toInt = x.toInt % 1000 * f.toNat / 1000 := by
    rw [Int64.toInt_div_of_ne_right _ _ hd1, hrf, hd, Int.tdiv_eq_ediv_of_nonneg hrf₀]
  simp only [multFrac, Int64.toInt_add, Int64.toInt_mul, hq, hfrac, toInt_ofUnsigned,
    Int.bmod_add_bmod, Word.div_mul_add_mod_mul_div (show (0 : Int) < 1000 by decide)]

/-- `schedule_timeout`'s handler lets the request through. -/
def SchedAdmits (m : Params) (curr : Task) (di : UInt64) : Prop :=
  di.toInt64 ≠ maxScheduleTimeout ∧ curr.state &&& taskInterruptible ≠ 0 ∧
    m.dilationFactor ≠ dilationDenominator ∧ ¬ di.toInt64 ≤ 0

/-- `hrtimer_nanosleep`'s handler lets the request through. -/
def HrtimerAdmits (m : Params) (curr : Task) (di : UInt64) : Prop :=
  ¬ (m.targetPid > 0 ∧ curr.tgid ≠ m.targetPid) ∧ m.dilationFactor ≠ dilationDenominator ∧
    ¬ di.toInt64 ≤ 0

theorem handlerPreSchedTimeout_eq_some {m : Params} {curr : Task} {di v : UInt64} :
    handlerPreSchedTimeout m curr di = some v ↔ SchedAdmits m curr di ∧
      v = (multFrac di.toInt64 m.dilationFactor dilationDenominator).toUInt64 := by
  simp only [handlerPreSchedTimeout, SchedAdmits]
  split_ifs <;> simp_all [eq_comm (a := v)]

theorem handlerPreHrtimerNanosleep_eq_some {m : Params} {curr : Task} {di v : UInt64} :
    handlerPreHrtimerNanosleep m curr di = some v ↔ HrtimerAdmits m curr di ∧
      v = (multFrac di.toInt64 m.dilationFactor dilationDenominator).toUInt64 := by
  simp only [handlerPreHrtimerNanosleep, HrtimerAdmits]
  split_ifs with h₁ h₂ h₃
  · constructor
    · intro h; cases h
    · intro h; exact absurd h₁ h.1.1
  · simp [h₂]
  · simp [h₃]
  · rw [Option.some.injEq, eq_comm]
    exact ⟨fun h => ⟨⟨h₁, h₂, h₃⟩, h⟩, fun h => h.2⟩

/-- The stored sleep is positive and at least the requested one. -/
def NotShortened (di v : UInt64) : Prop := 0 < v.toInt64 ∧ di.toInt64 ≤ v.toInt64

/-- The exact product, less some multiple of 2^64, lies from the request up to `hi`. -/
def InWindow (m : Params) (di : UInt64) (hi : Int) : Prop :=
  ∃ k : Int, 2 ^ 64 * k + di.toInt64.toInt ≤ exactProduct m di ∧
    exactProduct m di < 2 ^ 64 * k + hi

/-- A positive request is stored as a value in `[di, hi)` exactly when the exact product is in the
window. -/
theorem stored_mem_iff {m : Params} {di : UInt64} {hi : Int} (hdi : ¬ di.toInt64 ≤ 0)
    (hhi : hi ≤ 2 ^ 63) :
    (di.toInt64.toInt ≤ (multFrac di.toInt64 m.dilationFactor dilationDenominator).toInt ∧
      (multFrac di.toInt64 m.dilationFactor dilationDenominator).toInt < hi) ↔
      InWindow m di hi := by
  have hpos : 0 < di.toInt64.toInt := by
    rw [Int64.le_iff_toInt_le] at hdi
    simpa using hdi
  rw [multFrac_toInt hpos, Word.bmod_mem_iff (by decide) (by omega) (by omega)]
  rfl

theorem toInt_maxScheduleTimeout : maxScheduleTimeout.toInt = 2 ^ 63 - 1 := by decide

theorem notShortened_iff {di : UInt64} {x : Int64} (hdi : ¬ di.toInt64 ≤ 0) :
    NotShortened di x.toUInt64 ↔ di.toInt64.toInt ≤ x.toInt := by
  rw [NotShortened, Int64.toInt64_toUInt64 x, Int64.le_iff_toInt_le, Int64.lt_iff_toInt_lt]
  rw [Int64.le_iff_toInt_le] at hdi
  have h0 : (0 : Int64).toInt = 0 := rfl
  omega

/-- **A dilated sleep is not shortened** exactly when the exact product does not overflow into the
values below the request: `schedule_timeout` must also stay below `MAX_SCHEDULE_TIMEOUT`. -/
theorem dilated_sleep_not_shortened_iff (m : Params) (curr : Task) (di : UInt64) :
    ((∀ v, handlerPreSchedTimeout m curr di = some v →
        NotShortened di v ∧ v.toInt64 ≠ maxScheduleTimeout) ↔
      (SchedAdmits m curr di → InWindow m di (2 ^ 63 - 1))) ∧
    ((∀ v, handlerPreHrtimerNanosleep m curr di = some v → NotShortened di v) ↔
      (HrtimerAdmits m curr di → InWindow m di (2 ^ 63))) := by
  set x := multFrac di.toInt64 m.dilationFactor dilationDenominator with hx
  have hlt : x.toInt < 2 ^ 63 := x.toInt_lt
  have hsched : SchedAdmits m curr di →
      (NotShortened di x.toUInt64 ∧ x.toUInt64.toInt64 ≠ maxScheduleTimeout ↔
        InWindow m di (2 ^ 63 - 1)) := by
    rintro ⟨-, -, -, hdi⟩
    rw [notShortened_iff hdi, Int64.toInt64_toUInt64 x, ← stored_mem_iff hdi (by decide), ← hx,
      ne_eq, ← Int64.toInt_inj, toInt_maxScheduleTimeout]
    omega
  have hhr : HrtimerAdmits m curr di → (NotShortened di x.toUInt64 ↔ InWindow m di (2 ^ 63)) := by
    rintro ⟨-, -, hdi⟩
    rw [notShortened_iff hdi, ← stored_mem_iff hdi (le_refl _), ← hx]
    omega
  constructor
  · constructor
    · intro h ha
      exact (hsched ha).mp (h _ (handlerPreSchedTimeout_eq_some.mpr ⟨ha, rfl⟩))
    · intro h v hv
      obtain ⟨ha, rfl⟩ := handlerPreSchedTimeout_eq_some.mp hv
      exact (hsched ha).mpr (h ha)
  · constructor
    · intro h ha
      exact (hhr ha).mp (h _ (handlerPreHrtimerNanosleep_eq_some.mpr ⟨ha, rfl⟩))
    · intro h v hv
      obtain ⟨ha, rfl⟩ := handlerPreHrtimerNanosleep_eq_some.mp hv
      exact (hhr ha).mpr (h ha)

/-- A sleep without end, `KTIME_MAX`, at a factor of 2.0 is stored as -2 ns. -/
theorem infinite_sleep_shortened :
    handlerPreHrtimerNanosleep ⟨2000, 0⟩ ⟨1, 1⟩ 0x7fffffffffffffff = some 0xfffffffffffffffe ∧
      ¬ NotShortened 0x7fffffffffffffff 0xfffffffffffffffe := by
  refine ⟨by decide +kernel, ?_⟩
  unfold NotShortened
  decide +kernel

/-- Below the sign bit the product does not wrap. -/
theorem inWindow_of_lt {m : Params} {di : UInt64} {hi : Int} (hf : 1000 ≤ m.dilationFactor.toNat)
    (hdi : ¬ di.toInt64 ≤ 0) (h : exactProduct m di < hi) : InWindow m di hi := by
  have hpos : 0 < di.toInt64.toInt := by
    rw [Int64.le_iff_toInt_le] at hdi
    simpa using hdi
  have hge : di.toInt64.toInt ≤ exactProduct m di := by
    refine Int.le_ediv_of_mul_le (by decide) (Int.mul_le_mul_of_nonneg_left ?_ hpos.le)
    exact_mod_cast hf
  exact ⟨0, by omega, by omega⟩

end BulletTime.Kernel
