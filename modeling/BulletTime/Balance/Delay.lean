import Mathlib.Tactic.Linarith
import BulletTime.Balance.Atomic

/-!
# Balance — Delay

Who is delayed.  A delay is measured against the remembered peak, which is raised by a hand-off and
recomputed by a period only, while the ratio it was raised to may have fallen since.

* `Eligible` and `ratioOf`: who is compared, and by what.
* `extraBuffers_isSome_iff`: a delay is injected where the peak is above 5/4 of the thread's ratio.
* `slowest_never_delayed_iff`: along a run no delay hits a thread with the largest ratio exactly
  where no ratio shown since the last period is above 5/4 of such a thread's.
-/

namespace BulletTime.Balance
open Transition RunningMax

/-- The thread counts calls and has work in the window. -/
def Eligible (s : Shared) (i : ℕ) : Prop :=
  i < s.nPeak ∧ 0 < (s.total i).totalFcalls ∧ 0 < (s.peak i).nWork

/-- `n_buffers[i] / n_work[i]`. -/
def ratioOf (s : Shared) (i : ℕ) : ℚ := (s.peak i).nBuffers / (s.peak i).nWork

/-- The ratio thread `i` is at once it has processed a buffer of work `w`. -/
def ratioWith (s : Shared) (i : ℕ) (w : ℚ) : ℚ :=
  ((s.peak i).nBuffers + 1) / ((s.peak i).nWork + w)

/-- The hand-offs of the run are of positive work. -/
def PositiveWork (_ : State) : Action → Prop
  | .handOff _ x => ∃ w, x.work = some w ∧ 0 < w
  | _ => True

/-- The windowed counters are not negative. -/
def Nonneg (s : Shared) : Prop := ∀ i, 0 ≤ (s.peak i).nBuffers ∧ 0 ≤ (s.peak i).nWork

/-! ### The counters -/

section Counters
variable {cfg : Config} {i j : ℕ} {x : Sample} {s t : Shared} {extra : Option ℚ}

theorem Round.counters_of_ne (h : Round cfg i x s t extra) (hj : j ≠ i) :
    (t.peak j).nBuffers = (s.peak j).nBuffers ∧ (t.peak j).nWork = (s.peak j).nWork := by
  obtain ⟨a, b, hp⟩ := h.peak_of_ne hj
  rw [hp]
  exact ⟨rfl, rfl⟩

theorem Round.counters_self (h : Round cfg i x s t extra) (hb : Balanced cfg s) {w : ℚ}
    (hw : x.work = some w) :
    (t.peak i).nBuffers = (s.peak i).nBuffers + 1 ∧ (t.peak i).nWork = (s.peak i).nWork + w := by
  obtain ⟨w', a, b, hw', -, hp⟩ := h.self hb
  cases hw.symm.trans hw'
  rw [hp, peakScope_self]
  exact ⟨rfl, rfl⟩

/-- One step of positive work. -/
theorem Nonneg.step {s t : State} {a : Action} (h : Nonneg s.shared) (hw : PositiveWork s a)
    (hs : step cfg s a = some t) : Nonneg t.shared := by
  have hq : (0 : ℚ) ≤ scaleFactor := by norm_num [scaleFactor]
  refine step_peak (P := fun e => 0 ≤ e.nBuffers ∧ 0 ≤ e.nWork) ⟨le_rfl, le_rfl⟩
    (fun _ _ _ h => h) ?_ ?_ h hs
  · rintro e ⟨hB, hW⟩
    unfold PeakEntry.decay PeakEntry.scaled
    split_ifs
    · exact ⟨le_rfl, le_rfl⟩
    · exact ⟨mul_nonneg hB hq, mul_nonneg hW hq⟩
  · rintro i x w rfl - hx ⟨hB, hW⟩
    obtain ⟨w', hx', hpos⟩ := hw
    obtain rfl : w = w' := Option.some.inj (hx.symm.trans hx')
    rw [peakScope_self]
    exact ⟨add_nonneg hB zero_le_one, add_nonneg hW hpos.le⟩

end Counters

/-! ### The ratio shown -/

section Shown
variable {cfg : Config} {i : ℕ} {x : Sample} {s : Shared} {w : ℚ}

/-- A balanced round of a thread that counts calls shows the thread's new ratio. -/
theorem roundRatio_eq (hb : Balanced cfg s) (hf : newFcalls i x s ≠ 0) (hw : x.work = some w)
    (hpos : 0 < (s.peak i).nWork + w) : roundRatio cfg i x s = some (ratioWith s i w) := by
  have hratio : newRatio i x s w = some (ratioWith s i w) := by
    rw [newRatio, peakScope_self]
    exact if_neg hpos.ne'
  rw [roundRatio, if_pos hb, hw, Option.bind_some, shownRatio, if_neg hf, hratio]

theorem roundRatio_eq_none (h : Balanced cfg s → newFcalls i x s = 0) :
    roundRatio cfg i x s = none := by
  unfold roundRatio
  split_ifs with hb
  · refine Option.bind_eq_none_iff.mpr fun w _ => ?_
    exact if_pos (h hb)
  · rfl

/-- **When a delay is injected.** -/
theorem extraBuffers_isSome_iff {m r : ℚ} (hr : 0 < r) :
    (extraBuffers (max m r) r).isSome ↔ 5 / 4 * r < m := by
  have hquot : ∀ a : ℚ, a / r - 1 > 1 / 4 ↔ 5 / 4 * r < a := by
    intro a
    rw [gt_iff_lt, lt_sub_iff_add_lt, lt_div_iff₀ hr]
    norm_num
  unfold extraBuffers
  simp only [hquot]
  by_cases h : r < m
  · rw [max_eq_left h.le, if_pos h]
    split_ifs with h' <;> simp [h']
  · rw [max_eq_right (not_lt.mp h), if_neg (lt_irrefl r)]
    refine ⟨nofun, fun h' => absurd h' (not_lt.mpr ?_)⟩
    linarith [not_lt.mp h]

/-- The threads other than `i` are compared as before the round. -/
theorem Round.others {t : Shared} {extra : Option ℚ} (h : Round cfg i x s t extra) {j : ℕ}
    (hj : j ≠ i) : (Eligible t j ↔ Eligible s j) ∧ ratioOf t j = ratioOf s j := by
  obtain ⟨hB, hW⟩ := h.counters_of_ne hj
  rw [Eligible, Eligible, ratioOf, ratioOf, h.sizes.1, h.fcalls_of_ne hj, hB, hW]
  exact ⟨Iff.rfl, rfl⟩

theorem Round.ratioOf_self {t : Shared} {extra : Option ℚ} (h : Round cfg i x s t extra)
    (hb : Balanced cfg s) (hw : x.work = some w) : ratioOf t i = ratioWith s i w := by
  obtain ⟨hB, hW⟩ := h.counters_self hb hw
  rw [ratioOf, hB, hW, ratioWith]

/-- A round whose work is a number ends. -/
theorem exists_handOff (hw : x.work = some w) (cfg : Config) (i : ℕ) (s : Shared) :
    ∃ t extra, handOff cfg i x s = some (t, extra) := by
  unfold handOff
  dsimp only
  rw [hw, Option.map_some]
  split_ifs <;> exact ⟨_, _, rfl⟩

end Shown

/-! ### The slowest thread -/

/-- A hand-off injects a delay only if some other eligible thread has a larger ratio after it. -/
def NeverDelaysSlowest (cfg : Config) (s : State) : Action → Prop
  | .handOff i x => ∀ t extra, handOff cfg i x s.shared = some (t, some extra) →
      ∃ j, j ≠ i ∧ Eligible t j ∧ ratioOf t i < ratioOf t j
  | _ => True

/-- Where a hand-off leaves its thread with the largest ratio, no ratio shown since the last period
is above 5/4 of it. -/
def PeakIsCurrent (cfg : Config) (s : State) : Action → Prop
  | .handOff i x => Balanced cfg s.shared → newFcalls i x s.shared ≠ 0 → ∀ w, x.work = some w →
      (∀ j, j ≠ i → Eligible s.shared j → ratioOf s.shared j ≤ ratioWith s.shared i w) →
      ∀ ρ ∈ s.shown, ρ ≤ 5 / 4 * ratioWith s.shared i w
  | _ => True

section Slowest
variable {cfg : Config} {s t : State}

/-- What a balanced round of positive work by a counted thread injects. -/
theorem inject_isSome_iff {i : ℕ} {x : Sample} {t : Shared} {extra : Option ℚ} {w : ℚ}
    (hm : s.shared.maxBufferWorkRatio = runningMax 0 s.shown) (hn : Nonneg s.shared)
    (hr : Round cfg i x s.shared t extra) (hb : Balanced cfg s.shared)
    (hf : newFcalls i x s.shared ≠ 0) (hw : x.work = some w) (hpos : 0 < w) :
    extra.isSome ↔ ∃ ρ ∈ s.shown, 5 / 4 * ratioWith s.shared i w < ρ := by
  obtain ⟨hB, hW⟩ := hn i
  have hratio : 0 < ratioWith s.shared i w := div_pos (by linarith) (by linarith)
  rw [hr.inject, roundRatio_eq hb hf hw (by linarith), Option.bind_some,
    extraBuffers_isSome_iff hratio, hm, lt_runningMax_iff]
  exact or_iff_right (not_lt.mpr (by linarith))

/-- **One hand-off** delays a slowest thread exactly where the peak is out of date. -/
theorem never_delays_slowest_step_iff (hm : s.shared.maxBufferWorkRatio = runningMax 0 s.shown)
    (hn : Nonneg s.shared) {a : Action} (hw : PositiveWork s a) :
    NeverDelaysSlowest cfg s a ↔ PeakIsCurrent cfg s a := by
  cases a with
  | spawn => exact Iff.rfl
  | period => exact Iff.rfl
  | handOff i x =>
      obtain ⟨w, hw, hpos⟩ := hw
      by_cases hb : Balanced cfg s.shared ∧ newFcalls i x s.shared ≠ 0
      · obtain ⟨hb, hf⟩ := hb
        obtain ⟨u, o, hsome⟩ := exists_handOff hw cfg i s.shared
        have hr := handOff_round cfg i x s.shared hsome
        have hself := hr.ratioOf_self hb hw
        have hi := inject_isSome_iff hm hn hr hb hf hw hpos
        constructor
        -- A ratio shown above 5/4 of the thread's makes the peak exceed it, so a delay is injected.
        · intro h _ _ w' hw' hle ρ hρ
          obtain rfl : w = w' := Option.some.inj (hw.symm.trans hw')
          by_contra hlt
          obtain ⟨e, rfl⟩ := Option.isSome_iff_exists.mp (hi.mpr ⟨ρ, hρ, not_le.mp hlt⟩)
          obtain ⟨j, hj, hel, hgt⟩ := h u e hsome
          rw [(hr.others hj).2, hself] at hgt
          exact absurd hgt (not_lt.mpr (hle j hj ((hr.others hj).1.mp hel)))
        · intro h t e he
          obtain ⟨rfl, rfl⟩ := Prod.mk.inj (Option.some.inj (hsome.symm.trans he))
          obtain ⟨ρ, hρ, hgt⟩ := hi.mp rfl
          by_contra hnone
          push Not at hnone
          refine absurd hgt (not_lt.mpr (h hb hf w hw (fun j hj hel => ?_) ρ hρ))
          have hle := hnone j hj ((hr.others hj).1.mpr hel)
          rwa [(hr.others hj).2, hself] at hle
      -- A round that shows no ratio injects nothing.
      · have hnone : roundRatio cfg i x s.shared = none :=
          roundRatio_eq_none fun h => not_not.mp fun hf => hb ⟨h, hf⟩
        refine ⟨fun _ hb' hf' => absurd ⟨hb', hf'⟩ hb, fun _ t e he => ?_⟩
        have hinj := (handOff_round cfg i x s.shared he).inject
        rw [hnone] at hinj
        cases hinj

/-- **A slowest thread is delayed exactly where the peak is out of date**, along every run whose
hand-offs are of positive work. -/
theorem slowest_never_delayed_iff (as : List Action)
    (hw : EveryStep (step cfg) {} as PositiveWork) :
    EveryStep (step cfg) {} as (NeverDelaysSlowest cfg) ↔
      EveryStep (step cfg) {} as (PeakIsCurrent cfg) := by
  refine EveryStep.congr (I := fun s => Reachable (step cfg) {} s ∧ Nonneg s.shared)
    ⟨.refl _, fun _ => ⟨le_rfl, le_rfl⟩⟩ ?_ ?_ hw
  · rintro s a t ⟨hs, hn⟩ hw ht
    exact ⟨hs.next ht, hn.step hw ht⟩
  · rintro s a ⟨hs, hn⟩ hw
    exact never_delays_slowest_step_iff (max_eq_shown hs) hn hw

end Slowest

/-! ### A peak of one's own -/

/-- Thread 0 shows ratio 1, and then 1/5. -/
def ownPeak : List Action :=
  [.spawn, .spawn, .handOff 0 (evenSample 1 1)] ++ [.handOff 0 (evenSample 9 1)]

theorem positiveWork_ownPeak : EveryStep (step {}) {} ownPeak PositiveWork := by
  refine everyStep_of_forall fun a ha s => ?_
  simp only [ownPeak, List.cons_append, List.nil_append, List.mem_cons, List.not_mem_nil, or_false]
    at ha
  rcases ha with rfl | rfl | rfl | rfl
  · trivial
  · trivial
  · exact ⟨1, work_evenSample 1 1, by norm_num⟩
  · exact ⟨9, work_evenSample 9 1, by norm_num⟩

theorem slowest_never_delayed_iff_ownPeak :
    EveryStep (step {}) {} ownPeak (NeverDelaysSlowest {}) ↔
      EveryStep (step {}) {} ownPeak (PeakIsCurrent {}) :=
  slowest_never_delayed_iff ownPeak positiveWork_ownPeak

/-- Thread 0 is delayed against its own old ratio, while no other thread has processed a buffer. -/
theorem slowest_thread_delayed :
    (∃ s, exec (step {}) {} ownPeak = some s) ∧ EveryStep (step {}) {} ownPeak PositiveWork ∧
      (∀ i x, Action.handOff i x ∈ ownPeak → x.data.fcallsExec ≠ 0) ∧
        ¬ EveryStep (step {}) {} ownPeak (NeverDelaysSlowest {}) := by
  refine ⟨Option.isSome_iff_exists.mp (by decide +kernel), positiveWork_ownPeak, fun i x hx => ?_,
    fun h => ?_⟩
  · simp only [ownPeak, List.cons_append, List.nil_append, List.mem_cons, List.not_mem_nil,
      or_false, reduceCtorEq, false_or, Action.handOff.injEq] at hx
    rcases hx with ⟨-, rfl⟩ | ⟨-, rfl⟩ <;> decide
  · have hrun : ((exec (step {}) {} [.spawn, .spawn, .handOff 0 (evenSample 1 1)]).bind fun s =>
        handOff {} 0 (evenSample 9 1) s.shared).map
          (fun p => (p.2, p.1.nPeak, (p.1.total 1).totalFcalls)) = some (some 4, 2, 0) := by
      decide +kernel
    obtain ⟨⟨t, extra⟩, ht, hp⟩ := Option.map_eq_some_iff.mp hrun
    obtain ⟨s, hs, ht⟩ := Option.bind_eq_some_iff.mp ht
    simp only [Prod.mk.injEq] at hp
    obtain ⟨rfl, hn, hf⟩ := hp
    obtain ⟨j, hj, ⟨hlt, hcalls, -⟩, -⟩ := h _ _ [] s rfl hs t 4 ht
    obtain rfl : j = 1 := by omega
    omega

end BulletTime.Balance
