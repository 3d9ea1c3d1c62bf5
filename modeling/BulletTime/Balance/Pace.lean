import BulletTime.Balance.Cover

/-!
# Balance — Pace

What the delays are for: with the dummy buffers counted in, every thread pays as many buffers for
its work as the one that needs most.

* `padded_between`: one delay, against the peak it is measured by.
* `delays_level`: along every run of positive work, the ratio a balanced hand-off leaves its thread,
  times the buffers it has been worth, is no more than a fifth below any eligible thread's ratio,
  and not above the peak.
* `Steady`: balanced runs in which each thread does the same work in every buffer.
* `processed_eq`: `total_buffers_processed` is the number of hand-offs.
* `steady_pace`: in such a run the buffers of each thread and its dummy ones add up to what its work
  calls for at the pace of the slowest.
-/

namespace BulletTime.Balance.Pace
open Transition RunningMax

/-! ### One delay -/

/-- The buffers a hand-off is worth: its own and the dummy ones. -/
def worth (extra : Option ℚ) : ℚ := 1 + extra.getD 0

/-- **A delay** brings the ratio up to the peak, or to no less than 4/5 of it. -/
theorem padded_between {m r : ℚ} (hr : 0 < r) :
    4 / 5 * max m r ≤ worth (extraBuffers (max m r) r) * r ∧
      worth (extraBuffers (max m r) r) * r ≤ max m r := by
  have hle : r ≤ max m r := le_max_right m r
  unfold worth extraBuffers
  dsimp only
  split_ifs with hgt hquarter
  · have hpeak : (1 + (max m r / r - 1)) * r = max m r := by
      rw [add_sub_cancel, div_mul_cancel₀ _ hr.ne']
    rw [Option.getD_some, hpeak]
    exact ⟨by linarith, le_rfl⟩
  · have hlt : max m r / r ≤ 5 / 4 := by linarith
    rw [div_le_iff₀ hr] at hlt
    rw [Option.getD_none, add_zero, one_mul]
    exact ⟨by linarith, hle⟩
  · rw [Option.getD_none, add_zero, one_mul]
    exact ⟨by linarith [not_lt.mp hgt], hle⟩

/-! ### The peak of the atomic machine -/

section Atomic
variable {cfg : Config} {s t : State}

/-- The peak covers every thread. -/
structure Covers (s : State) : Prop where
  nonneg : Nonneg s.shared
  covered : ∀ i, Covered s.shared i

theorem covers_start : Covers {} where
  nonneg _ := ⟨le_rfl, le_rfl⟩
  covered _ h := absurd h.1 (Nat.not_lt_zero _)

/-- A balanced round of a thread that counts calls raises the peak to the thread's new ratio. -/
theorem round_peak {i : ℕ} {x : Sample} {s t : Shared} {extra : Option ℚ} {w : ℚ}
    (h : Round cfg i x s t extra) (hb : Balanced cfg s) (hf : newFcalls i x s ≠ 0)
    (hw : x.work = some w) (hpos : 0 < (s.peak i).nWork + w) :
    t.maxBufferWorkRatio = max s.maxBufferWorkRatio (ratioOf t i) ∧
      extra = extraBuffers (max s.maxBufferWorkRatio (ratioOf t i)) (ratioOf t i) := by
  have hr := roundRatio_eq hb hf hw hpos
  have hmax := h.maxRatio
  have hinject := h.inject
  rw [hr] at hmax hinject
  rw [h.ratioOf_self hb hw]
  exact ⟨hmax, hinject⟩

theorem Covers.handOff {i : ℕ} {x : Sample} {t : Shared} {extra : Option ℚ} (hc : Covers s)
    (hw : PositiveWork s (.handOff i x)) (h : Round cfg i x s.shared t extra) (j : ℕ) :
    Covered t j := by
  obtain ⟨w, hw, hpos⟩ := hw
  have hle : s.shared.maxBufferWorkRatio ≤ t.maxBufferWorkRatio := by
    rw [h.maxRatio]
    cases roundRatio cfg i x s.shared with
    | none => exact le_rfl
    | some r => exact le_max_left _ _
  by_cases hb : Balanced cfg s.shared
  · by_cases hj : j = i
    · subst hj
      rintro ⟨-, hf, -⟩
      obtain ⟨w', a, b, -, hcalls, -⟩ := h.self hb
      rw [hcalls] at hf
      rw [(round_peak h hb hf.ne' hw (by linarith [(hc.nonneg j).2])).1]
      exact le_max_right _ _
    · intro hel
      obtain ⟨hiff, hratio⟩ := h.others hj
      rw [hratio]
      exact (hc.covered j (hiff.mp hel)).trans hle
  · exact ((h.unbalanced hb).keeps hle j).covered (hc.covered j)

/-- A thread that is registered has no calls and no work yet. -/
theorem covered_spawn {s : Shared} {j : ℕ} (hc : Covered s j) : Covered s.initThreadData j := by
  rintro ⟨hlt, hf, hwork⟩
  have hp : j ≠ s.nPeak := by
    rintro rfl
    rw [Shared.peak_initThreadData, if_pos rfl] at hwork
    exact absurd hwork (lt_irrefl 0)
  have ht : j ≠ s.nTotal := by
    rintro rfl
    rw [Shared.total_initThreadData, if_pos rfl] at hf
    exact absurd hf (lt_irrefl 0)
  rw [Shared.total_initThreadData, if_neg ht] at hf
  rw [Shared.peak_initThreadData, if_neg hp] at hwork
  rw [ratioOf, Shared.peak_initThreadData, if_neg hp]
  exact hc ⟨lt_of_le_of_ne (Nat.lt_succ_iff.mp hlt) hp, hf, hwork⟩

/-- **The peak covers every eligible thread** of the atomic machine. -/
theorem Covers.next {a : Action} (hc : Covers s) (hw : PositiveWork s a)
    (h : step cfg s a = some t) : Covers t := by
  refine ⟨hc.nonneg.step hw h, ?_⟩
  cases a with
  | spawn =>
      cases h
      exact fun j => covered_spawn (hc.covered j)
  | handOff i x =>
      obtain ⟨-, extra, he, -⟩ := step_handOff h
      exact hc.handOff hw (handOff_round cfg i x s.shared he)
  | period =>
      cases step_period h
      intro j
      by_cases ho : cfg.overheadBalancing = true
      · exact period_cover ho (p := .idle) (hc.covered j) id
      · exact (keeps_period ho).covered (hc.covered j)

/-- A balanced hand-off leaves an eligible thread a ratio `n_buffers / n_work` that, times what the
hand-off is worth, is between 4/5 of the ratio of any eligible thread and the peak.  (The dummy
buffers are not added to the counter, and `1 + extra` times the ratio is not the ratio of the
counter and them.) -/
def Level (cfg : Config) (s : State) : Action → Prop
  | .handOff i x => Balanced cfg s.shared → ∀ t extra,
      handOff cfg i x s.shared = some (t, extra) → Eligible t i →
        worth extra * ratioOf t i ≤ t.maxBufferWorkRatio ∧
          ∀ j, Eligible t j → 4 / 5 * ratioOf t j ≤ worth extra * ratioOf t i
  | _ => True

theorem Covers.level {a : Action} (hc : Covers s) (hw : PositiveWork s a) : Level cfg s a := by
  cases a with
  | spawn | period => trivial
  | handOff i x =>
      intro hb t extra h hel
      have hr := handOff_round cfg i x s.shared h
      have hcovered := hc.handOff hw hr
      obtain ⟨w, hw, hpos⟩ := hw
      obtain ⟨hB, hW⟩ := hc.nonneg i
      obtain ⟨w', a, b, -, hcalls, -⟩ := hr.self hb
      obtain ⟨hmax, rfl⟩ := round_peak hr hb (hcalls ▸ hel.2.1.ne') hw (by linarith)
      have hratio : 0 < ratioOf t i := by
        rw [hr.ratioOf_self hb hw]
        exact div_pos (by linarith) (by linarith)
      obtain ⟨hlow, hhigh⟩ := padded_between (m := s.shared.maxBufferWorkRatio) hratio
      rw [← hmax] at hlow hhigh ⊢
      refine ⟨hhigh, fun j hj => ?_⟩
      have hle := hcovered j hj
      linarith

/-- **The delays level the threads**, along every run whose hand-offs are of positive work. -/
theorem delays_level {as : List Action} (hw : EveryStep (step cfg) {} as PositiveWork) :
    EveryStep (step cfg) {} as (Level cfg) :=
  hw.implies (I := Covers) covers_start (fun _ _ _ hc hw hs => hc.next hw hs)
    fun _ _ hc hw => hc.level hw

end Atomic

/-! ### The dummy buffers of a round -/

section Dummies
variable (cfg : Config) (i : ℕ) (x : Sample) (s : Shared)

/-- `total_dummy_buffers[j]`. -/
def dummies (s : Shared) (j : ℕ) : ℚ := (s.total j).totalDummyBuffers

/-- `total_buffers_processed[j]`. -/
def processed (s : Shared) (j : ℕ) : ℕ := (s.total j).totalBuffersProcessed

/-- A scope under `total_lock` that leaves an entry alone. -/
theorem entry_modTotal {α : Type*} (g : TotalEntry → α) (f : TotalEntry → TotalEntry)
    (hf : ∀ e, g (f e) = g e) (j : ℕ) : g ((s.modTotal i f).total j) = g (s.total j) := by
  by_cases h : j = i
  · subst h
    rw [Shared.total_modTotal_self, hf]
  · rw [Shared.total_modTotal_of_ne _ _ h]

theorem dummies_dummyScope (extra : ℚ) (j : ℕ) :
    dummies (dummyScope i s extra) j = dummies s j + if j = i then extra else 0 := by
  by_cases h : j = i
  · subst h
    rw [if_pos rfl, dummies, dummyScope, Shared.total_modTotal_self, dummies]
  · rw [if_neg h, add_zero, dummies, dummyScope, Shared.total_modTotal_of_ne _ _ h, dummies]

theorem dummies_injectScope (j : ℕ) : dummies (injectScope i x s) j = dummies s j := rfl

/-- A delay adds its extra buffers to its own thread. -/
theorem dummies_delay (l : Locals) (r : ℚ) (j : ℕ) : dummies (delay i x s l r).1 j =
    dummies s j + if j = i then (delay i x s l r).2.getD 0 else 0 := by
  have hraise : dummies (if r > l.maxRatioSnapshot then raiseScope i s r else s) j =
      dummies s j := by
    split_ifs <;> rfl
  unfold delay
  dsimp only
  split
  · have hwrite : ∀ extra s, dummies (writeDummy i x s extra) j = dummies s j :=
      fun extra s => entry_modTotal i _ (·.totalDummyBuffers) _ (fun _ => by rfl) j
    rw [dummies_dummyScope, Option.getD_some, dummies_injectScope, hwrite, hraise]
  · rw [Option.getD_none, ite_self, add_zero, hraise]

theorem dummies_balance (w : ℚ) (j : ℕ) : dummies (balance i x s w).1 j =
    dummies s j + if j = i then (balance i x s w).2.getD 0 else 0 := by
  have htotal : dummies (totalScope i x (peakScope i x s w)) j = dummies s j :=
    entry_modTotal i _ (·.totalDummyBuffers) _ (fun _ => by rfl) j
  rw [balance_eq]
  split
  · rw [dummies_delay, htotal]
  · rw [Option.getD_none, ite_self, add_zero, htotal]

/-- **A round** adds its extra buffers to its own thread. -/
theorem dummies_handOff {t : Shared} {extra : Option ℚ}
    (h : handOff cfg i x s = some (t, extra)) (j : ℕ) :
    dummies t j = dummies s j + if j = i then extra.getD 0 else 0 := by
  have hcount : dummies (countScope cfg i x s) j = dummies s j :=
    entry_modTotal i _ (·.totalDummyBuffers) _ (fun _ => by rfl) j
  rcases handOff_cases cfg i x s h with ⟨-, rfl, rfl⟩ | ⟨w, -, -, rfl, rfl⟩
  · rw [Option.getD_none, ite_self, add_zero]
    exact hcount
  · rw [← hcount]
    exact dummies_balance i x _ w j

/-! ### The buffers of a run -/

theorem processed_countScope (j : ℕ) : processed (countScope cfg i x s) j =
    if j = i then addOne (processed s j) else processed s j := by
  by_cases h : j = i
  · subst h
    rw [if_pos rfl, processed, countScope, Shared.total_modTotal_self, processed]
  · rw [if_neg h, processed, countScope, Shared.total_modTotal_of_ne _ _ h, processed]

/-- The balancing counts no buffer. -/
theorem processed_balance (w : ℚ) (j : ℕ) :
    processed (balance i x s w).1 j = processed s j := by
  have htotal : processed (totalScope i x (peakScope i x s w)) j = processed s j :=
    entry_modTotal i _ (·.totalBuffersProcessed) _ (fun _ => by rfl) j
  have hwrite : ∀ extra s, processed (writeDummy i x s extra) j = processed s j :=
    fun extra s => entry_modTotal i _ (·.totalBuffersProcessed) _ (fun _ => by rfl) j
  have hdummy : ∀ extra s, processed (dummyScope i s extra) j = processed s j :=
    fun extra s => entry_modTotal i _ (·.totalBuffersProcessed) _ (fun _ => by rfl) j
  rw [balance_eq]
  split
  · rename_i r _
    unfold delay
    dsimp only
    split <;> split_ifs
    · exact (hdummy _ _).trans ((hwrite _ _).trans htotal)
    · exact (hdummy _ _).trans ((hwrite _ _).trans htotal)
    · exact htotal
    · exact htotal
  · exact htotal

/-- **A round** counts one buffer of its own thread. -/
theorem processed_handOff {t : Shared} {extra : Option ℚ}
    (h : handOff cfg i x s = some (t, extra)) (j : ℕ) :
    processed t j = if j = i then addOne (processed s j) else processed s j := by
  rw [← processed_countScope cfg i x s j]
  rcases handOff_cases cfg i x s h with ⟨-, rfl, -⟩ | ⟨w, -, -, rfl, -⟩
  · rfl
  · exact processed_balance i x _ w j

end Dummies

/-- A hand-off of thread `i`. -/
def isHandOff (i : ℕ) : Action → Bool
  | .handOff j _ => i == j
  | .spawn | .period => false

/-- The buffers thread `i` has handed off in the run. -/
def handOffs (as : List Action) (i : ℕ) : ℕ := as.countP (isHandOff i)

theorem handOffs_snoc (as : List Action) (a : Action) (i : ℕ) :
    handOffs (as ++ [a]) i = handOffs as i + if isHandOff i a then 1 else 0 := by
  rw [handOffs, List.countP_append, List.countP_singleton, handOffs]

/-- The other steps hand nothing off. -/
theorem handOffs_spawn (as : List Action) (i : ℕ) : handOffs (as ++ [.spawn]) i = handOffs as i :=
  handOffs_snoc as .spawn i

theorem handOffs_period (as : List Action) (i : ℕ) :
    handOffs (as ++ [.period]) i = handOffs as i :=
  handOffs_snoc as .period i

/-- **The buffers processed** are the hand-offs of the run, up to what the counter can hold; a
thread that is not registered has none. -/
theorem processed_eq {cfg : Config} {as : List Action} {s : State}
    (h : exec (step cfg) {} as = some s) : s.shared.nTotal = s.shared.nPeak ∧
      (∀ i, s.shared.nPeak ≤ i → handOffs as i = 0) ∧
        ∀ i, processed s.shared i = min (handOffs as i) (2 ^ 53) := by
  refine exec_induction (P := fun as (s : State) => s.shared.nTotal = s.shared.nPeak ∧
    (∀ i, s.shared.nPeak ≤ i → handOffs as i = 0) ∧
      ∀ i, processed s.shared i = min (handOffs as i) (2 ^ 53))
    ⟨rfl, fun _ _ => rfl, fun _ => rfl⟩ ?_ h
  rintro as a s t - ⟨hsizes, hnone, hcount⟩ hs
  refine ⟨step_sizes hsizes hs, ?_⟩
  cases a with
  | spawn =>
      cases hs
      refine ⟨fun i hi => ?_, fun i => ?_⟩
      · rw [handOffs_spawn, hnone i (Nat.le_of_succ_le hi)]
      · dsimp only
        rw [handOffs_spawn, processed, Shared.total_initThreadData, hsizes]
        split_ifs with hi
        · rw [hnone i hi.ge]
          rfl
        · exact hcount i
  | handOff j x =>
      obtain ⟨hj, extra, he, -⟩ := step_handOff hs
      rw [(handOff_round cfg j x s.shared he).sizes.1]
      refine ⟨fun i hi => ?_, fun i => ?_⟩
      · rw [handOffs_snoc, hnone i hi, isHandOff, if_neg (by simpa using (hj.trans_le hi).ne')]
      · rw [handOffs_snoc, processed_handOff cfg j x s.shared he, isHandOff]
        by_cases hi : i = j
        · rw [if_pos hi, if_pos (beq_iff_eq.mpr hi), hcount, addOne_min]
        · rw [if_neg hi, if_neg (by simpa using hi), hcount, Nat.add_zero]
  | period =>
      cases step_period hs
      dsimp only
      rw [period_nPeak]
      refine ⟨fun i hi => ?_, fun i => ?_⟩
      · rw [handOffs_period, hnone i hi]
      · rw [handOffs_period, processed, period_fcalls]
        exact hcount i

/-! ### Steady runs -/

/-- Thread `i` does work `w i` in every buffer, and counts calls. -/
def Steady (cfg : Config) (w : ℕ → ℚ) (s : State) : Action → Prop
  | .handOff i x => Balanced cfg s.shared ∧ newFcalls i x s.shared ≠ 0 ∧ x.work = some (w i)
  | _ => True

/-- The peak a hand-off is measured by is no lower than the ratio of a thread of work `c`. -/
def PeakOf (c : ℚ) (w : ℕ → ℚ) (s : State) : Action → Prop
  | .handOff i _ => 1 / c ≤ max s.shared.maxBufferWorkRatio (1 / w i)
  | _ => True

/-- The buffers the work of thread `i` fills, and the dummy ones. -/
def paid (w : ℕ → ℚ) (s : Shared) (i : ℕ) : ℚ := (s.peak i).totalWork / w i + dummies s i

section Steady
variable {cfg : Config} {s t : State} {w : ℕ → ℚ} {c : ℚ}

/-- The windows of a steady run hold whole buffers, and no ratio is above `1 / c`. -/
structure Even (w : ℕ → ℚ) (c : ℚ) (s : State) : Prop where
  nonneg : Nonneg s.shared
  sizes : s.shared.nTotal = s.shared.nPeak
  window : ∀ i, (s.shared.peak i).nWork = (s.shared.peak i).nBuffers * w i
  peak : s.shared.maxBufferWorkRatio ≤ 1 / c

theorem even_start (hc : 0 < c) : Even w c {} where
  nonneg _ := ⟨le_rfl, le_rfl⟩
  sizes := rfl
  window i := (zero_mul (w i)).symm
  peak := (one_div_pos.mpr hc).le

theorem Even.ratioOf (h : Even w c s) {i : ℕ} (hi : (s.shared.peak i).nWork ≠ 0) :
    ratioOf s.shared i = 1 / w i := by
  have hwin := h.window i
  rw [Balance.ratioOf, hwin]
  rw [hwin] at hi
  rw [div_mul_cancel_left₀ (left_ne_zero_of_mul hi), one_div]

/-- The hand-offs of a steady run are of positive work. -/
theorem Steady.positiveWork (hw : ∀ i, 0 < w i) {a : Action} (h : Steady cfg w s a) :
    PositiveWork s a := by
  cases a with
  | spawn | period => trivial
  | handOff i x => exact ⟨w i, h.2.2, hw i⟩

/-- What a steady hand-off does to its own thread: the peak it is measured by is of `1 / w i`. -/
theorem Even.handOff (hw : ∀ i, 0 < w i) (h : Even w c s) {i : ℕ} {x : Sample} {t : Shared}
    {extra : Option ℚ} (ha : Steady cfg w s (.handOff i x))
    (hr : Round cfg i x s.shared t extra) :
    (t.peak i).nWork = (t.peak i).nBuffers * w i ∧
      t.maxBufferWorkRatio = max s.shared.maxBufferWorkRatio (1 / w i) ∧
      extra = extraBuffers (max s.shared.maxBufferWorkRatio (1 / w i)) (1 / w i) := by
  obtain ⟨hb, hf, hx⟩ := ha
  obtain ⟨hB, hW⟩ := h.nonneg i
  obtain ⟨hB', hW'⟩ := hr.counters_self hb hx
  have hwork : (t.peak i).nWork = (t.peak i).nBuffers * w i := by
    rw [hB', hW', h.window, add_mul, one_mul]
  have hratio : Balance.ratioOf t i = 1 / w i := by
    rw [Balance.ratioOf, hwork, hB', div_mul_cancel_left₀ (by linarith), one_div]
  have hpeak := round_peak hr hb hf hx (by linarith [hw i])
  rw [hratio] at hpeak
  exact ⟨hwork, hpeak⟩

theorem one_div_le_slowest (hc : 0 < c) (hw : ∀ i, c ≤ w i) (i : ℕ) : 1 / w i ≤ 1 / c :=
  one_div_le_one_div_of_le hc (hw i)

theorem Even.next (hc : 0 < c) (hw : ∀ i, c ≤ w i) {a : Action} (h : Even w c s)
    (ha : Steady cfg w s a) (hs : step cfg s a = some t) : Even w c t := by
  have hpos : ∀ i, 0 < w i := fun i => hc.trans_le (hw i)
  refine ⟨h.nonneg.step (ha.positiveWork hpos) hs, step_sizes h.sizes hs, fun j => ?_, ?_⟩
  · cases a with
    | spawn =>
        cases hs
        dsimp only
        rw [Shared.peak_initThreadData]
        split_ifs
        · exact (zero_mul (w j)).symm
        · exact h.window j
    | handOff i x =>
        obtain ⟨-, extra, he, -⟩ := step_handOff hs
        have hr := handOff_round cfg i x s.shared he
        by_cases hj : j = i
        · subst hj
          exact (h.handOff hpos ha hr).1
        · rw [(hr.counters_of_ne hj).1, (hr.counters_of_ne hj).2]
          exact h.window j
    | period =>
        cases step_period hs
        dsimp only
        rw [period_peak, PeakEntry.decay, PeakEntry.scaled]
        split_ifs
        · exact (zero_mul (w j)).symm
        · show (s.shared.peak j).nWork * scaleFactor = _
          rw [h.window j, mul_right_comm]
        · exact h.window j
  · cases a with
    | spawn =>
        cases hs
        exact h.peak
    | handOff i x =>
        obtain ⟨-, extra, he, -⟩ := step_handOff hs
        rw [(h.handOff hpos ha (handOff_round cfg i x s.shared he)).2.1]
        exact max_le h.peak (one_div_le_slowest hc hw i)
    | period =>
        cases step_period hs
        refine (period_max s.shared).trans_le ?_
        split_ifs
        · refine runningMax_le_iff.mpr ⟨(one_div_pos.mpr hc).le, fun r hr => ?_⟩
          obtain ⟨i, -, hi⟩ := List.mem_filterMap.mp hr
          rw [PeakEntry.countedRatio] at hi
          split_ifs at hi
          rw [PeakEntry.ratio] at hi
          split_ifs at hi with hwork
          cases hi
          exact (h.ratioOf hwork).trans_le (one_div_le_slowest hc hw i)
        · exact h.peak

/-- **The rule for what is paid**: what holds of a thread that has paid nothing, and is kept by a
hand-off, whose dummy buffers bring it to the peak, is kept by every step of a steady run. -/
theorem Even.paid (hw : ∀ i, 0 < w i) {a : Action} (h : Even w c s) (ha : Steady cfg w s a)
    (hs : step cfg s a = some t) {P : ℚ → ℚ → Prop} (fresh : P 0 0)
    (round : ∀ i x W p e, a = .handOff i x →
      4 / 5 * max s.shared.maxBufferWorkRatio (1 / w i) ≤ e * (1 / w i) →
      e * (1 / w i) ≤ max s.shared.maxBufferWorkRatio (1 / w i) → P W p → P (W + w i) (p + e))
    (hP : ∀ j, P (s.shared.peak j).totalWork (paid w s.shared j)) (j : ℕ) :
    P (t.shared.peak j).totalWork (paid w t.shared j) := by
  cases a with
  | spawn =>
      cases hs
      dsimp only
      rw [Pace.paid, dummies, Shared.peak_initThreadData, Shared.total_initThreadData, h.sizes]
      split_ifs
      · simpa using fresh
      · exact hP j
  | handOff i x =>
      obtain ⟨-, extra, he, -⟩ := step_handOff hs
      have hr := handOff_round cfg i x s.shared he
      have hdummies := dummies_handOff cfg i x s.shared he j
      by_cases hj : j = i
      · subst hj
        obtain ⟨-, -, rfl⟩ := h.handOff hw ha hr
        obtain ⟨w', b, d, hx, -, hp⟩ := hr.self ha.1
        obtain rfl : w j = w' := Option.some.inj (ha.2.2.symm.trans hx)
        obtain ⟨hlow, hhigh⟩ := padded_between (m := s.shared.maxBufferWorkRatio)
          (one_div_pos.mpr (hw j))
        have hwork : (t.shared.peak j).totalWork = (s.shared.peak j).totalWork + w j := by
          rw [hp, peakScope_self]
        have hpaid : Pace.paid w t.shared j = Pace.paid w s.shared j +
            worth (extraBuffers (max s.shared.maxBufferWorkRatio (1 / w j)) (1 / w j)) := by
          rw [Pace.paid, hwork, hdummies, if_pos rfl, add_div, div_self (hw j).ne', worth,
            Pace.paid]
          ring
        rw [hwork, hpaid]
        exact round j x _ _ _ rfl hlow hhigh (hP j)
      · obtain ⟨b, d, hp⟩ := hr.peak_of_ne hj
        rw [Pace.paid, hp, hdummies, if_neg hj, add_zero]
        exact hP j
  | period =>
      cases step_period hs
      have hwork : ((period cfg s.shared).peak j).totalWork = (s.shared.peak j).totalWork := by
        rw [period_peak, PeakEntry.decay, PeakEntry.scaled]
        split_ifs <;> rfl
      dsimp only
      rw [Pace.paid, hwork, dummies, period_fcalls]
      exact hP j

theorem paid_start (i : ℕ) : paid w ({} : State).shared i = 0 := by
  simp [paid, dummies]

/-- No thread pays more for its work than one of work `c` a buffer. -/
theorem steady_paid_le (hc : 0 < c) (hw : ∀ i, c ≤ w i) {as : List Action}
    (h : EveryStep (step cfg) {} as (Steady cfg w)) (he : exec (step cfg) {} as = some s) (i : ℕ) :
    paid w s.shared i ≤ (s.shared.peak i).totalWork / c := by
  have hpos : ∀ i, 0 < w i := fun i => hc.trans_le (hw i)
  refine (h.invariant (I := fun s => Even w c s ∧
    ∀ i, paid w s.shared i ≤ (s.shared.peak i).totalWork / c) ?_ ?_ he).2 i
  · exact ⟨even_start hc, fun i => (paid_start i).trans_le (zero_div c).ge⟩
  · rintro s a t ⟨hi, hP⟩ ha hs
    refine ⟨hi.next hc hw ha hs,
      hi.paid (P := fun W p => p ≤ W / c) hpos ha hs (zero_div c).ge ?_ hP⟩
    intro i x W p e _ _ hhigh hp
    have hle := hhigh.trans (max_le hi.peak (one_div_le_slowest hc hw i))
    rw [mul_one_div, div_le_iff₀ (hpos i), one_div_mul_eq_div] at hle
    rw [add_div]
    exact add_le_add hp hle

/-- Measured by a peak of `1 / c` each time, every thread pays at least 4/5 of that. -/
theorem le_steady_paid (hc : 0 < c) (hw : ∀ i, c ≤ w i) {as : List Action}
    (h : EveryStep (step cfg) {} as fun s a => Steady cfg w s a ∧ PeakOf c w s a)
    (he : exec (step cfg) {} as = some s) (i : ℕ) :
    4 / 5 * ((s.shared.peak i).totalWork / c) ≤ paid w s.shared i := by
  have hpos : ∀ i, 0 < w i := fun i => hc.trans_le (hw i)
  have hzero : 4 / 5 * (0 / c) ≤ 0 := by rw [zero_div, mul_zero]
  refine (h.invariant (I := fun s => Even w c s ∧
    ∀ i, 4 / 5 * ((s.shared.peak i).totalWork / c) ≤ paid w s.shared i) ?_ ?_ he).2 i
  · exact ⟨even_start hc, fun i => hzero.trans_eq (paid_start i).symm⟩
  · rintro s a t ⟨hi, hP⟩ ⟨ha, hslow⟩ hs
    refine ⟨hi.next hc hw ha hs,
      hi.paid (P := fun W p => 4 / 5 * (W / c) ≤ p) hpos ha hs hzero ?_ hP⟩
    rintro i x W p e rfl hlow _ hp
    have hle : 4 / 5 * (1 / c) ≤ e * (1 / w i) :=
      (mul_le_mul_of_nonneg_left hslow (by norm_num)).trans hlow
    rw [mul_one_div e, le_div_iff₀ (hpos i), mul_assoc, one_div_mul_eq_div] at hle
    rw [add_div, mul_add]
    exact add_le_add hp hle

/-- The work of a steady run is that of the buffers handed off. -/
theorem steady_totalWork {as : List Action} (h : EveryStep (step cfg) {} as (Steady cfg w))
    (he : exec (step cfg) {} as = some s) (i : ℕ) :
    (s.shared.peak i).totalWork = handOffs as i * w i := by
  refine exec_induction (P := fun as (s : State) => EveryStep (step cfg) {} as (Steady cfg w) →
    ∀ i, (s.shared.peak i).totalWork = handOffs as i * w i)
    (fun _ i => by simp [handOffs]) ?_ he h i
  intro as a s t hexec ih hs h i
  obtain ⟨h, ha⟩ := (everyStep_snoc hexec).mp h
  have hwork := ih h i
  cases a with
  | spawn =>
      cases hs
      dsimp only
      rw [handOffs_spawn, Shared.peak_initThreadData]
      split_ifs with hi
      · rw [(processed_eq hexec).2.1 i hi.ge, Nat.cast_zero, zero_mul]
      · exact hwork
  | handOff j x =>
      obtain ⟨-, extra, he, -⟩ := step_handOff hs
      have hr := handOff_round cfg j x s.shared he
      by_cases hi : i = j
      · subst hi
        obtain ⟨w', b, d, hx, -, hp⟩ := hr.self ha.1
        obtain rfl : w i = w' := Option.some.inj (ha.2.2.symm.trans hx)
        rw [handOffs_snoc, hp, peakScope_self, isHandOff, if_pos (beq_self_eq_true i),
          Nat.cast_add, add_mul, ← hwork, Nat.cast_one, one_mul]
      · obtain ⟨b, d, hp⟩ := hr.peak_of_ne hi
        rw [handOffs_snoc, hp, isHandOff, if_neg (by simpa using hi), Nat.add_zero]
        exact hwork
  | period =>
      cases step_period hs
      have hsame : ((period cfg s.shared).peak i).totalWork = (s.shared.peak i).totalWork := by
        rw [period_peak, PeakEntry.decay, PeakEntry.scaled]
        split_ifs <;> rfl
      rw [handOffs_period]
      exact hsame.trans hwork

/-- **Steady runs keep pace**: no thread has paid more buffers for its work than the slowest does,
and where the slowest thread's ratio is remembered at every hand-off, none less than 4/5 of it.
`total_buffers_processed` and `total_dummy_buffers` have what it has paid. -/
theorem steady_pace (hc : 0 < c) (hw : ∀ i, c ≤ w i) {as : List Action}
    (h : EveryStep (step cfg) {} as (Steady cfg w)) (he : exec (step cfg) {} as = some s) (i : ℕ) :
    processed s.shared i = min (handOffs as i) (2 ^ 53) ∧
      handOffs as i + dummies s.shared i ≤ (s.shared.peak i).totalWork / c ∧
      (EveryStep (step cfg) {} as (PeakOf c w) →
        4 / 5 * ((s.shared.peak i).totalWork / c) ≤ handOffs as i + dummies s.shared i) := by
  have hpaid : paid w s.shared i = handOffs as i + dummies s.shared i := by
    rw [paid, steady_totalWork h he, mul_div_cancel_right₀ _ (hc.trans_le (hw i)).ne']
  rw [← hpaid]
  exact ⟨(processed_eq he).2.2 i, steady_paid_le hc hw h he i, fun hp =>
    le_steady_paid hc hw (fun bs a cs s e hs => ⟨h bs a cs s e hs, hp bs a cs s e hs⟩) he i⟩

end Steady

/-! ### A thread that needs half as many buffers -/

/-- Thread 0 does one unit of work a buffer, the others two. -/
def work (i : ℕ) : ℚ := if i = 0 then 1 else 2

def uneven : List Action :=
  [.spawn, .spawn, .handOff 0 (evenSample 1 1), .handOff 1 (evenSample 2 1), .period,
    .handOff 1 (evenSample 2 1)]

theorem le_work (i : ℕ) : 1 ≤ work i := by
  unfold work
  split_ifs <;> norm_num

instance (cfg : Config) (w : ℕ → ℚ) (s : State) : ∀ a, Decidable (Steady cfg w s a)
  | .handOff _ _ => inferInstanceAs (Decidable (_ ∧ _ ∧ _))
  | .spawn | .period => isTrue trivial

instance (c : ℚ) (w : ℕ → ℚ) (s : State) : ∀ a, Decidable (PeakOf c w s a)
  | .handOff i _ => inferInstanceAs (Decidable (1 / c ≤ max s.shared.maxBufferWorkRatio (1 / w i)))
  | .spawn | .period => isTrue trivial

theorem steady_uneven : EveryStep (step {}) {} uneven (Steady {} work) := by decide +kernel

theorem delays_level_uneven : EveryStep (step {}) {} uneven (Level {}) :=
  delays_level (steady_uneven.mono fun _ _ h =>
    h.positiveWork fun i => zero_lt_one.trans_le (le_work i))

/-- Thread 1 has filled two buffers, and paid for two more. -/
theorem steady_pace_uneven : ∃ s, exec (step {}) {} uneven = some s ∧ dummies s.shared 1 = 2 ∧
    processed s.shared 1 = 2 ∧
      4 / 5 * ((s.shared.peak 1).totalWork / 1) ≤ handOffs uneven 1 + dummies s.shared 1 ∧
        handOffs uneven 1 + dummies s.shared 1 ≤ (s.shared.peak 1).totalWork / 1 := by
  have hrun : ((exec (step {}) {} uneven).map fun s => dummies s.shared 1) = some 2 := by
    decide +kernel
  obtain ⟨s, hs, htwo⟩ := Option.map_eq_some_iff.mp hrun
  obtain ⟨hcount, hhigh, hlow⟩ := steady_pace zero_lt_one le_work steady_uneven hs 1
  exact ⟨s, hs, htwo, hcount, hlow (by decide +kernel), hhigh⟩

end BulletTime.Balance.Pace
