import Mathlib.Algebra.BigOperators.Ring.Finset
import Mathlib.Algebra.Order.BigOperators.Group.List
import Mathlib.Data.Rat.Floor
import BulletTime.Consumer.CpuMonitor

/-!
# Consumer — ScaledCounts

What the calls of `get_deltas` return over a run, with the arithmetic on `double`s taken exact.  A
counter that ran for part of an interval is scaled up by the ratio of the two times.

* `exactCount`: the count of an interval in the natural numbers, never below what the counter
  advanced (`rawIncrement_le_exactCount`).
* `calculateScaledDelta_exact`: the code's count is that one wherever `long long` holds it.
* `Conserves`: each count covers the counter's advance, and the counts of a run sum to its last
  value, plus what the scaling added.

`[about the source]`: a difference of 2^63 or more is a negative `long long`.
-/

namespace BulletTime.Consumer

/-- A `double` converted to an integer, towards zero. -/
def truncate (q : ℚ) : ℤ := if 0 ≤ q then ⌊q⌋ else ⌈q⌉

/-- `static_cast<long long>(value_delta * ratio)`.  Outside `long long` the conversion is undefined,
and gives what `undef` says. -/
def longScale (undef : ℚ → ℤ) (valueDelta timeEnabledDelta timeRunningDelta : ℤ) : ℤ :=
  let ratio : ℚ := timeEnabledDelta / timeRunningDelta
  let scaled := truncate (valueDelta * ratio)
  if -2 ^ 63 ≤ scaled ∧ scaled < 2 ^ 63 then scaled else undef (valueDelta * ratio)

/-! ### One interval -/

/-- The counter between two readings: nothing goes back, and it ran no longer than it was
enabled. -/
structure Reading.Grows (p q : Reading) : Prop where
  value : p.value ≤ q.value
  timeEnabled : p.timeEnabled ≤ q.timeEnabled
  timeRunning : p.timeRunning ≤ q.timeRunning
  running_le : q.timeRunning.toNat - p.timeRunning.toNat ≤
    q.timeEnabled.toNat - p.timeEnabled.toNat

/-- What the counter advanced. -/
def rawIncrement (p q : Reading) : ℕ := q.value.toNat - p.value.toNat

/-- The time the counter was enabled. -/
def enabledFor (p q : Reading) : ℕ := q.timeEnabled.toNat - p.timeEnabled.toNat

/-- The time the counter ran. -/
def ranFor (p q : Reading) : ℕ := q.timeRunning.toNat - p.timeRunning.toNat

/-- The interval is one the code scales. -/
def Multiplexed (p q : Reading) : Prop :=
  0 < ranFor p q ∧ ranFor p q < enabledFor p q ∧ enabledFor p q < 2 ^ 63

instance (p q : Reading) : Decidable (Multiplexed p q) :=
  inferInstanceAs (Decidable (_ ∧ _ ∧ _))

/-- The count of the interval, scaled and rounded down. -/
def exactCount (p q : Reading) : ℕ :=
  if Multiplexed p q then rawIncrement p q * enabledFor p q / ranFor p q else rawIncrement p q

/-- **Scaling never loses.** -/
theorem rawIncrement_le_exactCount (p q : Reading) : rawIncrement p q ≤ exactCount p q := by
  unfold exactCount
  split
  · rename_i h
    obtain ⟨hr, he, -⟩ := h
    calc rawIncrement p q = rawIncrement p q * ranFor p q / ranFor p q :=
          (Nat.mul_div_cancel _ hr).symm
      _ ≤ rawIncrement p q * enabledFor p q / ranFor p q :=
          Nat.div_le_div_right (Nat.mul_le_mul_left _ he.le)
  · exact le_rfl

/-- A word below 2^64 read as `long long`. -/
theorem bmod_word {d : ℕ} (hd : d < 2 ^ 64) :
    (d : ℤ).bmod (2 ^ 64) = if d < 2 ^ 63 then (d : ℤ) else (d : ℤ) - 2 ^ 64 := by
  split
  · exact Int.bmod_eq_of_le (by omega) (by omega)
  · refine (Int.bmod_eq_iff (by omega)).mpr ⟨by omega, by omega, -1, by omega⟩

/-- The difference of two words that do not go back. -/
theorem longDelta_eq {a b : UInt64} (h : a ≤ b) :
    longDelta b a =
      if b.toNat - a.toNat < 2 ^ 63 then ((b.toNat - a.toNat : ℕ) : ℤ)
      else ((b.toNat - a.toNat : ℕ) : ℤ) - 2 ^ 64 := by
  have hd : longDelta b a = (b - a).toBitVec.toInt := rfl
  rw [hd, BitVec.toInt_eq_toNat_bmod, UInt64.toNat_toBitVec, UInt64.toNat_sub_of_le _ _ h]
  exact bmod_word ((Nat.sub_le _ _).trans_lt b.toNat_lt)

/-- The difference as `long long`, where that holds it. -/
theorem longDelta_eq_of_lt {a b : UInt64} (h : a ≤ b) (hlt : b.toNat - a.toNat < 2 ^ 63) :
    longDelta b a = ((b.toNat - a.toNat : ℕ) : ℤ) := by
  rw [longDelta_eq h, if_pos hlt]

/-- The test for multiplexing, on words that do not go back. -/
theorem multiplexed_iff {p q : Reading} (h : p.Grows q) :
    (0 < longDelta q.timeRunning p.timeRunning ∧
      longDelta q.timeRunning p.timeRunning < longDelta q.timeEnabled p.timeEnabled) ↔
      Multiplexed p q := by
  rw [longDelta_eq h.timeRunning, longDelta_eq h.timeEnabled]
  have hle := h.running_le
  have hr := q.timeRunning.toNat_lt
  have he := q.timeEnabled.toNat_lt
  unfold Multiplexed ranFor enabledFor
  split_ifs <;> omega

theorem truncate_scaled (v e r : ℕ) : truncate ((v : ℚ) * ((e : ℚ) / r)) = (v * e / r : ℕ) := by
  rw [truncate, if_pos (by positivity), ← mul_div_assoc, ← Nat.cast_mul,
    Rat.floor_natCast_div_natCast, Int.natCast_ediv]

/-- **The code's count is the exact one** where `long long` holds that. -/
theorem calculateScaledDelta_exact (undef : ℚ → ℤ) {p q : Reading} (h : p.Grows q)
    (hfit : exactCount p q < 2 ^ 63) :
    (calculateScaledDelta (longScale undef) q p).1 = exactCount p q := by
  have hv : longDelta q.value p.value = rawIncrement p q :=
    longDelta_eq_of_lt h.value ((rawIncrement_le_exactCount p q).trans_lt hfit)
  by_cases hm : Multiplexed p q
  · obtain ⟨hr, hlt, he⟩ := hm
    rw [exactCount, if_pos ⟨hr, hlt, he⟩] at hfit ⊢
    rw [calculateScaledDelta, if_pos ((multiplexed_iff h).mpr ⟨hr, hlt, he⟩), hv,
      longDelta_eq_of_lt h.timeEnabled he, longDelta_eq_of_lt h.timeRunning (hlt.trans he)]
    change longScale undef _ (enabledFor p q : ℕ) (ranFor p q : ℕ) = _
    unfold longScale
    simp only [Int.cast_natCast, truncate_scaled]
    generalize rawIncrement p q * enabledFor p q / ranFor p q = n at hfit ⊢
    exact if_pos ⟨by omega, by exact_mod_cast hfit⟩
  · rw [calculateScaledDelta, if_neg ((multiplexed_iff h).not.mpr hm), exactCount, if_neg hm]
    exact hv

/-! ### Runs -/

/-- A counter's field of `CPU_Counts`. -/
def countOf : Counter → CPUCounts → ℤ
  | .userInstr, c => c.userInstructions
  | .kernelInstr, c => c.kernelInstructions
  | .userCycles, c => c.userCycles
  | .kernelCycles, c => c.kernelCycles

@[simp] theorem countOf_countsOf (k : Counter) (delta : Counter → ℤ × Bool) :
    countOf k (countsOf delta) = (delta k).1 := by
  cases k <;> rfl

/-- The reads of the call deliver `s`. -/
def DeltaCall.Delivers (c : DeltaCall) (s : Counter → Reading) : Prop :=
  ∀ k, c.reads k = .delivered (s k)

/-- What `f` makes of each reading and the one before it. -/
def intervals {β : Type*} (f : Reading → Reading → β) (p : Reading) (rs : List Reading) : List β :=
  List.zipWith f (p :: rs) rs

@[simp] theorem intervals_nil {β : Type*} (f : Reading → Reading → β) (p : Reading) :
    intervals f p [] = [] := rfl

@[simp] theorem intervals_cons {β : Type*} (f : Reading → Reading → β) (p q : Reading)
    (rs : List Reading) : intervals f p (q :: rs) = f p q :: intervals f q rs := rfl

/-- **The counts of one counter** are those of the intervals between its readings. -/
theorem returned_countOf {scale : ℤ → ℤ → ℤ → ℤ} {calls : List DeltaCall}
    {samples : List (Counter → Reading)} (k : Counter)
    (h : List.Forall₂ DeltaCall.Delivers calls samples) (m : CPUMonitor) :
    (returned scale m calls).map (Option.map (countOf k)) =
      (intervals (fun p q => (calculateScaledDelta scale q p).1) (m.last k).toReading
        (samples.map (· k))).map some := by
  induction h generalizing m with
  | nil => rfl
  | @cons c s cs ss hd _ ih =>
      obtain ⟨hcounts, hkept⟩ := getDeltas_delivered scale m c.locals hd
      rw [returned, List.map_cons, List.map_cons, intervals_cons, List.map_cons, ih, hcounts,
        hkept k, Option.map_some, countOf_countsOf]

/-- The advances of a counter that does not go back sum to its last value. -/
theorem sum_rawIncrement {p : Reading} {rs : List Reading}
    (h : List.IsChain Reading.Grows (p :: rs)) :
    (intervals rawIncrement p rs).sum + p.value.toNat = (rs.getLastD p).value.toNat := by
  induction rs generalizing p with
  | nil => exact Nat.zero_add _
  | cons q rs ih =>
      obtain ⟨hq, hrs⟩ := List.isChain_cons_cons.mp h
      rw [intervals_cons, List.sum_cons, List.getLastD_cons, ← ih hrs, rawIncrement]
      have hle : p.value.toNat ≤ q.value.toNat := hq.value
      omega

theorem calculateScaledDelta_intervals (undef : ℚ → ℤ) {p : Reading} {rs : List Reading}
    (h : List.IsChain Reading.Grows (p :: rs))
    (hfit : ∀ n ∈ intervals exactCount p rs, n < 2 ^ 63) :
    intervals (fun p q => (calculateScaledDelta (longScale undef) q p).1) p rs =
      (intervals exactCount p rs).map (↑) := by
  induction rs generalizing p with
  | nil => rfl
  | cons q rs ih =>
      obtain ⟨hq, hrs⟩ := List.isChain_cons_cons.mp h
      rw [intervals_cons, List.forall_mem_cons] at hfit
      rw [intervals_cons, intervals_cons, List.map_cons, ih hrs hfit.2,
        calculateScaledDelta_exact undef hq hfit.1]

theorem forall₂_exactCount (p : Reading) (rs : List Reading) :
    List.Forall₂ (· ≤ ·) (intervals rawIncrement p rs) (intervals exactCount p rs) := by
  induction rs generalizing p with
  | nil => exact .nil
  | cons q rs ih => exact .cons (rawIncrement_le_exactCount p q) (ih q)

/-- Lists of which one lies below the other have the same sum only if they are equal. -/
theorem sum_eq_iff_of_forall₂_le {as bs : List ℕ} (h : List.Forall₂ (· ≤ ·) as bs) :
    bs.sum = as.sum ↔ bs = as := by
  refine ⟨fun he => ?_, congrArg _⟩
  induction h with
  | nil => rfl
  | @cons a b as bs hab h ih =>
      have hle := h.sum_le_sum
      rw [List.sum_cons, List.sum_cons] at he
      rw [ih (by omega), show b = a by omega]

/-- The counts `xs` of a counter that starts at 0 and then reads `rs`: each covers the counter's
advance, and together they cover its last value, which they exceed by what the scaling added. -/
structure Conserves (rs : List Reading) (xs : List ℤ) : Prop where
  each : List.Forall₂ (fun (raw : ℕ) x => (raw : ℤ) ≤ x ∧ 0 ≤ x) (intervals rawIncrement {} rs) xs
  total : ((rs.getLastD {}).value.toNat : ℤ) ≤ xs.sum
  exact_iff : xs.sum = ((rs.getLastD {}).value.toNat : ℤ) ↔
    xs = (intervals rawIncrement {} rs).map (↑)

theorem conserves_exactCount {rs : List Reading}
    (h : List.IsChain Reading.Grows ({} :: rs)) :
    Conserves rs ((intervals exactCount {} rs).map (↑)) := by
  have hle := forall₂_exactCount {} rs
  have hsum : (rs.getLastD {}).value.toNat = (intervals rawIncrement {} rs).sum :=
    (sum_rawIncrement h).symm
  have hcast : ((intervals exactCount {} rs).map ((↑) : ℕ → ℤ)).sum =
      ((intervals exactCount {} rs).sum : ℕ) := (Nat.cast_list_sum _).symm
  refine ⟨?_, ?_, ?_⟩
  · rw [List.forall₂_map_right_iff]
    exact hle.imp fun raw x h => ⟨by exact_mod_cast h, Int.natCast_nonneg x⟩
  · rw [hcast, hsum]
    exact_mod_cast hle.sum_le_sum
  · rw [hcast, hsum, Nat.cast_inj, sum_eq_iff_of_forall₂_le hle]
    exact (List.map_injective_iff.mpr Nat.cast_injective).eq_iff.symm

/-- **Scaled deltas conserve the counts**: over any run of calls that deliver growing readings of a
counter, wherever `long long` holds its exact counts. -/
theorem scaled_deltas_conserve (undef : ℚ → ℤ) (k : Counter) {calls : List DeltaCall}
    {samples : List (Counter → Reading)} (hread : List.Forall₂ DeltaCall.Delivers calls samples)
    (hgrow : List.IsChain Reading.Grows ({} :: samples.map (· k)))
    (hfit : ∀ n ∈ intervals exactCount {} (samples.map (· k)), n < 2 ^ 63) :
    ∃ xs : List ℤ, (returned (longScale undef) {} calls).map (Option.map (countOf k)) =
      xs.map some ∧ Conserves (samples.map (· k)) xs := by
  refine ⟨_, ?_, conserves_exactCount hgrow⟩
  rw [returned_countOf k hread, ← calculateScaledDelta_intervals undef hgrow hfit]

/-- A call that delivers the same reading for all four counters. -/
def deliverAll (r : Reading) : DeltaCall := { reads := fun _ => .delivered r }

instance (p q : Reading) : Decidable (p.Grows q) :=
  decidable_of_iff (p.value ≤ q.value ∧ p.timeEnabled ≤ q.timeEnabled ∧
    p.timeRunning ≤ q.timeRunning ∧ q.timeRunning.toNat - p.timeRunning.toNat ≤
      q.timeEnabled.toNat - p.timeEnabled.toNat)
    ⟨fun ⟨hv, he, hr, hle⟩ => ⟨hv, he, hr, hle⟩, fun ⟨hv, he, hr, hle⟩ => ⟨hv, he, hr, hle⟩⟩

/-- An interval in which the counter ran half of the time, after one in which it always ran. -/
theorem scaled_deltas_conserve_half :
    ∃ xs : List ℤ, (returned (longScale fun _ => 0) {}
        [deliverAll ⟨10, 4, 4⟩, deliverAll ⟨20, 12, 8⟩]).map (Option.map (countOf .userInstr)) =
          xs.map some ∧ Conserves [⟨10, 4, 4⟩, ⟨20, 12, 8⟩] xs :=
  @scaled_deltas_conserve (fun _ => 0) .userInstr _ [fun _ => ⟨10, 4, 4⟩, fun _ => ⟨20, 12, 8⟩]
    (.cons (fun _ => rfl) (.cons (fun _ => rfl) .nil)) (by decide) (by decide)

/-- A counter that advances by 2^63 in one interval is reported with a negative count. -/
theorem scaled_delta_negative :
    List.IsChain Reading.Grows [{}, ⟨0x8000000000000000, 1, 1⟩] ∧
      rawIncrement {} ⟨0x8000000000000000, 1, 1⟩ = 2 ^ 63 ∧
      (returned (longScale fun _ => 0) {} [deliverAll ⟨0x8000000000000000, 1, 1⟩]).map
        (Option.map (countOf .userInstr)) = [some (-2 ^ 63)] :=
  ⟨by decide +kernel, by decide +kernel,
    (@returned_countOf (longScale fun _ => 0) _ [fun _ => ⟨0x8000000000000000, 1, 1⟩] .userInstr
      (.cons (fun _ => rfl) .nil) {}).trans (by decide +kernel)⟩

end BulletTime.Consumer
