import Mathlib.Algebra.BigOperators.Group.List.Basic
import Mathlib.Tactic.Linarith
import BulletTime.Balance.Atomic

/-!
# Balance — Kernel factor

The kernel dilation factor against the slowdown of the buffers processed.

* `slowdownLaw`: the factor the slowdown asks for, from the history of the buffers and the columns
  of the data table.
* `Measures`: the windowed times of a thread are those of its history, and it is idle where it has
  processed nothing.
* `factor_follows_slowdown`: the factor written is the law's, along every run whose buffers are all
  measured.
-/

namespace BulletTime.Balance
open Transition RunningMax Window

/-! ### The law -/

/-- The sum of a column of the data table. -/
def columnSum (s : Shared) (f : InsertEntry → ℕ) : ℕ :=
  ((List.range s.nInsert).map fun i => f (s.insert i)).sum

/-- Instructions in user mode for each instruction of the application. -/
def costLaw (s : Shared) : ℚ :=
  if columnSum s (·.applicationIns) = 0 then 1
  else columnSum s (·.userspaceIns) / columnSum s (·.applicationIns)

/-- The generation and the write times of a thread since it was last idle. -/
def genTimes (h : List (List Processed)) : ℚ := windowed (1 / 4) (fun b => (b.genTime : ℚ)) h

def ioTimes (h : List (List Processed)) : ℚ := windowed (1 / 4) (fun b => (b.realWTime : ℚ)) h

/-- The slowdown of a thread that has processed a buffer in the period. -/
def slowdownOf (h : List (List Processed)) : Option ℚ :=
  if current h = [] ∨ ¬ 0 < genTimes h then none
  else some ((genTimes h + ioTimes h) / genTimes h)

/-- The largest slowdown, at least one. -/
def maxSlowdownLaw (s : State) : ℚ :=
  runningMax 1 ((List.range s.shared.nPeak).filterMap fun i => slowdownOf (s.hist i))

/-- The factor times 1000, before it is rounded. -/
def product (s : State) : ℚ := 1000 * costLaw s.shared * maxSlowdownLaw s

/-- **The factor the slowdown asks for.** -/
def slowdownLaw (s : State) : ℕ := max 1000 ⌊product s⌋₊

/-- At the end of a period the factor written is that of the law, if it fits an unsigned int. -/
def FactorFollows (cfg : Config) (s : State) : Action → Prop
  | .period => cfg.kernelDilation = true → product s < 2 ^ 32 →
      (period cfg s.shared).knob = some (slowdownLaw s)
  | _ => True

/-- Every buffer is measured: balancing is on, a buffer is processed next to a second thread, and a
thread that has processed a buffer in a period is not taken for idle at its end.  The sums of the
columns fit in a word. -/
def Measured (cfg : Config) (s : State) : Action → Prop
  | .spawn => True
  | .handOff _ _ => Balanced cfg s.shared
  | .period => cfg.overheadBalancing = true ∧
      (∀ i < s.shared.nPeak, current (s.hist i) ≠ [] →
        (s.shared.peak i).nWork ≠ (s.shared.peak i).lastWork) ∧
      columnSum s.shared (·.applicationIns) < 2 ^ 64 ∧
      columnSum s.shared (·.userspaceIns) < 2 ^ 64

/-! ### The invariant -/

/-- The windowed times of a thread, and what the next period will take for idle. -/
structure Measures (e : PeakEntry) (h : List (List Processed)) : Prop where
  gen : e.nGenTime = genTimes h
  io : e.nIoTime = ioTimes h
  idle : current h = [] → e.nWork = e.lastWork

theorem measures_fresh : Measures {} [[]] :=
  ⟨(windowed_empty _ _).symm, (windowed_empty _ _).symm, fun _ => rfl⟩

/-- **A balanced round** measures the buffer. -/
theorem Measures.push {s : Shared} {i : ℕ} {x : Sample} {w a b : ℚ} {h : List (List Processed)}
    (hm : Measures (s.peak i) h) :
    Measures { (peakScope i x s w).peak i with nInjectedTime := a, totalInjectedTime := b }
      (Window.push ⟨x.data.genTime, x.realWTime⟩ h) := by
  rw [peakScope_self]
  refine ⟨?_, ?_, fun hc => ?_⟩
  · rw [genTimes, windowed_push, ← genTimes, ← hm.gen]
  · rw [ioTimes, windowed_push, ← ioTimes, ← hm.io]
  · rw [current_push] at hc
    simp at hc

theorem Measures.other {e : PeakEntry} {a b : ℚ} {h : List (List Processed)} (hm : Measures e h) :
    Measures { e with nInjectedTime := a, totalInjectedTime := b } h :=
  ⟨hm.gen, hm.io, hm.idle⟩

/-- **A period** scales what is busy and resets what is idle. -/
theorem Measures.tick {e : PeakEntry} {h : List (List Processed)} (hm : Measures e h)
    (hbusy : current h ≠ [] → e.nWork ≠ e.lastWork) : Measures e.decay (tick h) := by
  -- The code's test for idleness agrees with the history on both sides.
  by_cases hc : current h = []
  · have hi : e.idle = true := beq_iff_eq.mpr (hm.idle hc)
    refine ⟨?_, ?_, fun _ => rfl⟩
    · rw [genTimes, windowed_tick_idle _ _ hc, PeakEntry.decay, PeakEntry.scaled, if_pos hi]
    · rw [ioTimes, windowed_tick_idle _ _ hc, PeakEntry.decay, PeakEntry.scaled, if_pos hi]
  · have hi : ¬ e.idle = true := fun h => hbusy hc (beq_iff_eq.mp h)
    refine ⟨?_, ?_, fun _ => rfl⟩
    · rw [genTimes, windowed_tick _ _ hc, ← genTimes, ← hm.gen, PeakEntry.decay, PeakEntry.scaled,
        if_neg hi]
      rfl
    · rw [ioTimes, windowed_tick _ _ hc, ← ioTimes, ← hm.io, PeakEntry.decay, PeakEntry.scaled,
        if_neg hi]
      rfl

/-- Every registered thread is measured. -/
def AllMeasured (s : State) : Prop :=
  ∀ i < s.shared.nPeak, Measures (s.shared.peak i) (s.hist i)

section Run
variable {cfg : Config} {s t : State}

theorem AllMeasured.step {a : Action} (hm : AllMeasured s) (hC : Measured cfg s a)
    (hs : step cfg s a = some t) : AllMeasured t := by
  intro j hj
  cases a with
  | spawn =>
      cases hs
      dsimp only
      rw [Shared.peak_initThreadData]
      by_cases h : j = s.shared.nPeak
      · rw [if_pos h, h, Function.update_self]
        exact measures_fresh
      · rw [if_neg h, Function.update_of_ne h]
        exact hm j (lt_of_le_of_ne (Nat.lt_succ_iff.mp hj) h)
  | handOff i x =>
      obtain ⟨hi, extra, he, hh, -⟩ := step_handOff hs
      have hr := handOff_round cfg i x s.shared he
      rw [hh]
      rw [hr.sizes.1] at hj
      by_cases h : j = i
      · subst h
        obtain ⟨w, a, b, -, -, hp⟩ := hr.self hC
        rw [hp, Function.update_self]
        exact (hm j hj).push
      · obtain ⟨a, b, hp⟩ := hr.peak_of_ne h
        rw [hp, Function.update_of_ne h]
        exact (hm j hj).other
  | period =>
      cases step_period hs
      obtain ⟨ho, hbusy, -⟩ := hC
      dsimp only at hj ⊢
      rw [period_nPeak] at hj
      rw [period_peak, if_pos ⟨ho, hj⟩]
      exact (hm j hj).tick (hbusy j hj)

/-! ### What a period writes -/

theorem addWord_mod (a b : ℕ) : addWord (a % 2 ^ 64) b = (a + b) % 2 ^ 64 := by
  rw [addWord_natCast, Nat.mod_add_mod]

/-- The sum the period computes is the column's, on a word. -/
theorem sumInsert_eq (s : Shared) (f : InsertEntry → ℕ) :
    sumInsert s f = columnSum s f % 2 ^ 64 := by
  unfold sumInsert columnSum
  induction s.nInsert with
  | zero => rfl
  | succ n ih =>
      rw [List.range_succ, List.foldl_append, List.map_append, List.sum_append, ih]
      exact (addWord_mod ..).trans (by simp)

theorem instrumentation_eq {s : Shared} (ha : columnSum s (·.applicationIns) < 2 ^ 64)
    (hu : columnSum s (·.userspaceIns) < 2 ^ 64) : instrumentation s = costLaw s := by
  unfold instrumentation costLaw
  rw [sumInsert_eq, sumInsert_eq, Nat.mod_eq_of_lt ha, Nat.mod_eq_of_lt hu]
  by_cases h : columnSum s (·.applicationIns) = 0
  · rw [if_pos h, if_neg (by rw [h]; exact lt_irrefl 0)]
  · rw [if_neg h, if_pos (Nat.pos_of_ne_zero h)]

/-- The slowdown the loop counts is that of the history. -/
theorem Measures.countedSlowdown {e : PeakEntry} {h : List (List Processed)} (hm : Measures e h)
    (hbusy : current h ≠ [] → e.nWork ≠ e.lastWork) : e.countedSlowdown = slowdownOf h := by
  have hidle : e.idle = true ↔ current h = [] :=
    ⟨fun hi => not_not.mp fun hc => hbusy hc (beq_iff_eq.mp hi),
      fun hc => beq_iff_eq.mpr (hm.idle hc)⟩
  rw [PeakEntry.countedSlowdown, slowdownOf, PeakEntry.slowdown, hm.gen, hm.io]
  simp only [hidle]

theorem maxSlowdown_eq (hm : AllMeasured s) (hbusy : ∀ i < s.shared.nPeak,
    current (s.hist i) ≠ [] → (s.shared.peak i).nWork ≠ (s.shared.peak i).lastWork) :
    (periodLoop s.shared s.shared.nPeak).2.maxSlowdown = maxSlowdownLaw s := by
  rw [periodLoop_maxSlowdown, maxSlowdownLaw]
  refine congrArg _ (List.filterMap_congr fun i hi => ?_)
  have hlt := List.mem_range.mp hi
  exact (hm i hlt).countedSlowdown (hbusy i hlt)

theorem toUnsigned_eq {q : ℚ} (h0 : 0 ≤ q) (h : q < 2 ^ 32) : toUnsigned q = ⌊q⌋₊ := by
  have hlt : ⌊q⌋₊ < 2 ^ 32 := (Nat.floor_lt h0).mpr (by exact_mod_cast h)
  exact Nat.mod_eq_of_lt hlt

theorem product_nonneg (s : State) : 0 ≤ product s := by
  have hc : 0 ≤ costLaw s.shared := by
    unfold costLaw
    split_ifs
    · exact zero_le_one
    · positivity
  have hs : 1 ≤ maxSlowdownLaw s := (runningMax_le_iff.mp le_rfl).1
  exact mul_nonneg (mul_nonneg (by norm_num) hc) (zero_le_one.trans hs)

/-- **One period** of measured threads writes the law's factor. -/
theorem period_factor (hm : AllMeasured s) (hC : Measured cfg s .period) :
    FactorFollows cfg s .period := by
  intro hk hlt
  obtain ⟨ho, hbusy, ha, hu⟩ := hC
  have hknob : (period cfg s.shared).knob = some (rebalance s.shared).dilationFactor := by
    unfold period
    dsimp only
    rw [if_pos ho, if_pos hk]
  have hq : instrumentation s.shared *
      (periodLoop s.shared s.shared.nPeak).2.maxSlowdown * 1000 = product s := by
    rw [instrumentation_eq ha hu, maxSlowdown_eq hm hbusy, product]
    ring
  rw [hknob, rebalance]
  dsimp only
  rw [hq, toUnsigned_eq (product_nonneg s) hlt, slowdownLaw, max_comm]

/-- **The factor follows the slowdown** along every run whose buffers are all measured. -/
theorem factor_follows_slowdown {as : List Action}
    (hC : EveryStep (step cfg) {} as (Measured cfg)) :
    EveryStep (step cfg) {} as (FactorFollows cfg) := by
  refine hC.implies (I := AllMeasured) (fun _ hi => absurd hi (Nat.not_lt_zero _))
    (fun _ _ _ hm ha hs => hm.step ha hs) ?_
  intro s a hm ha
  cases a with
  | spawn => trivial
  | handOff i x => trivial
  | period => exact period_factor hm ha

end Run

/-! ### One buffer -/

instance (cfg : Config) (s : State) : ∀ a, Decidable (Measured cfg s a)
  | .spawn => isTrue trivial
  | .handOff _ _ => inferInstanceAs (Decidable (Balanced _ _))
  | .period => inferInstanceAs (Decidable (_ ∧ _ ∧ _ ∧ _))

/-- Writing the buffer takes as long as generating it. -/
def slowSample : Sample where
  data := { genTime := 1000, insExec := 1000, fcallsExec := 1 }
  counts := ⟨1000, 1000, 60000, 60000, false⟩
  realWTime := 1000

/-- Two threads, one of which processes a buffer. -/
def oneBuffer : List Action := [.spawn, .spawn, .handOff 0 slowSample]

theorem factor_follows_slowdown_oneBuffer :
    EveryStep (step {}) {} (oneBuffer ++ [.period]) (FactorFollows {}) :=
  factor_follows_slowdown (by decide +kernel)

/-- `--app-dilation 0`. -/
def kernelOnly : Config := { appDilation := false }

/-- Without app dilation the slowdown of two is ignored. -/
theorem factor_ignores_slowdown :
    ∃ s, exec (step kernelOnly) {} oneBuffer = some s ∧ slowdownLaw s = 2000 ∧
      (period kernelOnly s.shared).knob = some 1000 ∧
        ¬ EveryStep (step kernelOnly) {} (oneBuffer ++ [.period]) (FactorFollows kernelOnly) := by
  have hrun : (exec (step kernelOnly) {} oneBuffer).map (fun s =>
      (slowdownLaw s, (period kernelOnly s.shared).knob, product s)) =
        some (2000, some 1000, 2000) := by
    decide +kernel
  obtain ⟨s, hs, hp⟩ := Option.map_eq_some_iff.mp hrun
  simp only [Prod.mk.injEq] at hp
  obtain ⟨hlaw, hknob, hprod⟩ := hp
  refine ⟨s, hs, hlaw, hknob, fun h => ?_⟩
  have hf := h oneBuffer .period [] s rfl hs rfl (by rw [hprod]; norm_num)
  rw [hlaw, hknob] at hf
  cases hf

end BulletTime.Balance
