import BulletTime.Balance.Scopes

/-!
# Balance — Cover

Whether the peak covers the eligible threads, in any interleaving of the scopes.  A thread whose
ratio is not above the peak it has read does not look again; a period between its first scope and
the second, which counts its calls, leaves it out and may lower the peak below it.

* `Cover`: what a thread relies on at each point of its round.
* `Keeps`: what a step of another thread leaves of it.
* `peak_covers_eligible`: the peak covers every eligible thread between hand-offs, along every run
  in which no period falls into such a gap.
-/

namespace BulletTime.Balance
open Transition RunningMax

/-- The peak covers the thread, if it is eligible. -/
def Covered (s : Shared) (i : ℕ) : Prop :=
  Eligible s i → ratioOf s i ≤ s.maxBufferWorkRatio

/-- A thread with snapshot `snap`, to be balanced if it counts `fcalls` calls, has read its ratio,
and the peak covers the thread if its snapshot does. -/
def Relies (s : Shared) (i : ℕ) (l : Locals) (fcalls : ℕ) : Prop :=
  0 < (s.peak i).nWork → l.bufWorkRatio = some (ratioOf s i) ∧
    (fcalls ≠ 0 → ratioOf s i ≤ l.maxRatioSnapshot → ratioOf s i ≤ s.maxBufferWorkRatio)

/-- What a thread relies on at each point of its round. -/
def Cover (s : Shared) (i : ℕ) : PC → Prop
  | .peaked x l => i < s.nPeak ∧ Relies s i l (newFcalls i x s)
  | .totaled _ l => i < s.nPeak ∧ l.currFcalls = (s.total i).totalFcalls ∧ Relies s i l l.currFcalls
  | _ => Covered s i

/-! ### The scopes of the other threads -/

/-- `t` has thread `i` as `s` has it, under a peak no lower. -/
structure Keeps (s t : Shared) (i : ℕ) : Prop where
  registered : i < s.nPeak ↔ i < t.nPeak
  nBuffers : (t.peak i).nBuffers = (s.peak i).nBuffers
  nWork : (t.peak i).nWork = (s.peak i).nWork
  fcalls : (t.total i).totalFcalls = (s.total i).totalFcalls
  maxRatio : s.maxBufferWorkRatio ≤ t.maxBufferWorkRatio

section Keeps
variable {cfg : Config} {s t : Shared} {i j : ℕ} {x : Sample}

theorem Keeps.refl (s : Shared) (i : ℕ) : Keeps s s i := ⟨Iff.rfl, rfl, rfl, rfl, le_rfl⟩

theorem Keeps.ratioOf (h : Keeps s t i) : ratioOf t i = ratioOf s i := by
  rw [Balance.ratioOf, Balance.ratioOf, h.nBuffers, h.nWork]

theorem Keeps.covered (h : Keeps s t i) (hc : Covered s i) : Covered t i := by
  rintro ⟨hi, hf, hw⟩
  rw [h.ratioOf]
  exact (hc ⟨h.registered.mpr hi, h.fcalls ▸ hf, h.nWork ▸ hw⟩).trans h.maxRatio

theorem Keeps.relies (h : Keeps s t i) {l : Locals} {fcalls : ℕ} (hr : Relies s i l fcalls) :
    Relies t i l fcalls := by
  intro hw
  obtain ⟨hratio, hle⟩ := hr (h.nWork ▸ hw)
  rw [h.ratioOf]
  exact ⟨hratio, fun hf hs => (hle hf hs).trans h.maxRatio⟩

theorem Keeps.cover (h : Keeps s t i) {p : PC} (hc : Cover s i p) : Cover t i p := by
  cases p with
  | peaked x l =>
      obtain ⟨hi, hr⟩ := hc
      have hf : newFcalls i x t = newFcalls i x s := by rw [newFcalls, h.fcalls, newFcalls]
      refine ⟨h.registered.mp hi, ?_⟩
      rw [hf]
      exact h.relies hr
  | totaled x l =>
      obtain ⟨hi, hf, hr⟩ := hc
      exact ⟨h.registered.mp hi, hf.trans h.fcalls.symm, h.relies hr⟩
  | idle | counted | raised | slept | injected | balanced => exact h.covered hc

/-- A scope that leaves the counters, under a peak no lower. -/
theorem SameCounters.keeps (h : SameCounters s t)
    (hmax : s.maxBufferWorkRatio ≤ t.maxBufferWorkRatio) (j : ℕ) : Keeps s t j := by
  obtain ⟨a, b, hp⟩ := h.peak j
  exact ⟨by rw [h.nPeak], by rw [hp], by rw [hp], h.fcalls j, hmax⟩

theorem keeps_raiseScope (r : ℚ) : Keeps s (raiseScope i s r) j := by
  refine (SameCounters.raiseScope i s r).keeps ?_ j
  rw [raiseScope_max]
  exact le_max_left _ _

theorem keeps_peakScope (w : ℚ) (h : j ≠ i) : Keeps s (peakScope i x s w) j := by
  refine ⟨Iff.rfl, ?_, ?_, rfl, le_rfl⟩ <;> rw [peakScope_of_ne _ _ _ _ h]

theorem keeps_totalScope (h : j ≠ i) : Keeps s (totalScope i x s) j := by
  refine ⟨Iff.rfl, rfl, rfl, ?_, le_rfl⟩
  rw [totalScope_fcalls, if_neg h]

/-- **A scope of a round** keeps every other thread. -/
theorem Scope.keeps (h : Scope cfg i s t) (hj : j ≠ i) : Keeps s t j := by
  cases h with
  | none => exact .refl _ _
  | peak x w => exact keeps_peakScope w hj
  | total x => exact keeps_totalScope hj
  | raise r => exact keeps_raiseScope r
  | write x extra => exact (SameCounters.writeDummy i x s extra).keeps le_rfl j
  | inject x => exact (SameCounters.injectScope i x s).keeps le_rfl j
  | dummy extra => exact (SameCounters.dummyScope i s extra).keeps le_rfl j
  | data x => exact (SameCounters.dataScope cfg i x s).keeps le_rfl j

theorem Scope.sizes (h : Scope cfg i s t) : t.nPeak = s.nPeak ∧ t.nTotal = s.nTotal := by
  cases h <;> exact ⟨rfl, rfl⟩

end Keeps

/-! ### The thread's own scopes -/

section Own
variable {cfg : Config} {s t : Shared} {i : ℕ} {x : Sample}

theorem snapshot_ratio (h : 0 < (s.peak i).nWork) :
    (snapshot i s).bufWorkRatio = some (ratioOf s i) :=
  if_neg h.ne'

/-- The ratio of the snapshot, as long as there is work in the window, is the thread's own. -/
theorem Cover.ratio_eq {l : Locals} {r : ℚ} (hc : Cover s i (.totaled x l))
    (hr : l.bufWorkRatio = some r) (hw : 0 < (s.peak i).nWork) : ratioOf s i = r := by
  have hown : l.bufWorkRatio = some (ratioOf s i) := (hc.2.2 hw).1
  rw [hr] at hown
  exact (Option.some.inj hown).symm

/-- **A scope of a round** keeps what its own thread relies on. -/
theorem advance_cover (hi : i < s.nPeak) {p q : PC} (hc : Cover s i p)
    (h : advance cfg i s p = some (t, q)) : Cover t i q := by
  cases advance_cases h with
  | peak hb hw => exact ⟨hi, fun hpos => ⟨snapshot_ratio hpos, fun _ hle => hle⟩⟩
  | unbalanced hb => exact hc
  | @total x l =>
      have hf : ((totalScope i x s).total i).totalFcalls = newFcalls i x s := by
        rw [totalScope_fcalls, if_pos rfl]
      refine ⟨hi, rfl, ?_⟩
      dsimp only
      rw [hf]
      exact hc.2
  -- No ratio to compare: there was no work in the window.
  | noRatio hr =>
      rintro ⟨-, -, hw⟩
      rw [(hc.2.2 hw).1] at hr
      cases hr
  -- Skipped for want of calls: not eligible.
  | @skip x l r hr hskip =>
      rintro ⟨-, hpos, -⟩
      rw [skip_eq r l hr, beq_iff_eq, hc.2.1] at hskip
      exact absurd hskip hpos.ne'
  -- Above its snapshot: the peak is raised to the ratio it has read, which is still its own.
  | raise hr hskip hgt =>
      rintro ⟨-, -, hw⟩
      rw [raiseScope_max]
      exact le_trans (le_of_eq (hc.ratio_eq hr hw)) (le_max_right _ _)
  -- Within its snapshot: the peak has to cover it by itself.
  | within hr hskip hle =>
      rintro ⟨-, hpos, hw⟩
      have hown := hc.ratio_eq hr hw
      obtain ⟨-, hf, hcover⟩ := hc
      refine (hcover hw).2 (hf ▸ hpos.ne') ?_
      rw [hown]
      exact not_lt.mp hle
  | write he => exact ((SameCounters.writeDummy i _ s _).keeps le_rfl i).covered hc
  | noExtra he => exact hc
  | inject => exact ((SameCounters.injectScope i _ s).keeps le_rfl i).covered hc
  | dummy => exact ((SameCounters.dummyScope i s _).keeps le_rfl i).covered hc
  | data => exact ((SameCounters.dataScope cfg i _ s).keeps le_rfl i).covered hc

end Own

/-! ### A period -/

section Period
variable {cfg : Config} {s : Shared} {i : ℕ}

/-- A period leaves the ratio of a thread with work in the window, and takes it for busy. -/
theorem period_ratio (ho : cfg.overheadBalancing = true) (hi : i < s.nPeak)
    (hw : 0 < ((period cfg s).peak i).nWork) : ratioOf (period cfg s) i = ratioOf s i ∧
      0 < (s.peak i).nWork ∧ (s.peak i).nWork ≠ (s.peak i).lastWork := by
  have hpeak : (period cfg s).peak i = (s.peak i).decay := by
    rw [period_peak, if_pos ⟨ho, hi⟩]
  rw [ratioOf, hpeak]
  rw [hpeak] at hw
  by_cases hidle : (s.peak i).idle = true
  · rw [PeakEntry.decay, PeakEntry.scaled, if_pos hidle] at hw
    exact absurd hw (lt_irrefl 0)
  · rw [PeakEntry.decay, PeakEntry.scaled, if_neg hidle] at hw ⊢
    have hq : scaleFactor ≠ 0 := by norm_num [scaleFactor]
    refine ⟨mul_div_mul_right _ _ hq, pos_of_mul_pos_left hw ?_, fun h => hidle (beq_iff_eq.mpr h)⟩
    norm_num [scaleFactor]

/-- The ratio of a busy thread that counts calls is counted. -/
theorem mem_counted (hi : i < s.nPeak) (hbusy : (s.peak i).nWork ≠ (s.peak i).lastWork)
    (hw : 0 < (s.peak i).nWork) (hf : (s.total i).totalFcalls ≠ 0) :
    ratioOf s i ∈ counted s s.nPeak := by
  refine List.mem_filterMap.mpr ⟨i, List.mem_range.mpr hi, ?_⟩
  have hskip : ¬ ((s.peak i).idle = true ∨ (s.total i).totalFcalls = 0) :=
    not_or.mpr ⟨fun h => hbusy (beq_iff_eq.mp h), hf⟩
  rw [PeakEntry.countedRatio, if_neg hskip]
  exact if_neg hw.ne'

/-- **A period covers** the threads that count calls. -/
theorem period_covers (ho : cfg.overheadBalancing = true) (hi : i < s.nPeak)
    (hw : 0 < ((period cfg s).peak i).nWork) (hf : (s.total i).totalFcalls ≠ 0) :
    ratioOf (period cfg s) i ≤ (period cfg s).maxBufferWorkRatio := by
  obtain ⟨hratio, hpos, hbusy⟩ := period_ratio ho hi hw
  rw [hratio, period_max, if_pos ho]
  exact le_runningMax (mem_counted hi hbusy hpos hf)

/-- The period falls between a thread's first scope and the second, does not count it for want of
calls that are about to be counted, and counts no ratio as large, while the thread's snapshot keeps
it from raising the peak itself. -/
def InGap (s : Shared) (i : ℕ) : PC → Prop
  | .peaked x l => (s.total i).totalFcalls = 0 ∧ newFcalls i x s ≠ 0 ∧ 0 < (s.peak i).nWork ∧
      (s.peak i).nWork ≠ (s.peak i).lastWork ∧ ratioOf s i ≤ l.maxRatioSnapshot ∧
        runningMax 0 (counted s s.nPeak) < ratioOf s i
  | _ => False

instance (s : Shared) (i : ℕ) : ∀ p, Decidable (InGap s i p)
  | .peaked _ _ => inferInstanceAs (Decidable (_ ∧ _ ∧ _ ∧ _ ∧ _ ∧ _))
  | .idle | .counted _ | .totaled _ _ | .raised _ _ _ | .slept _ _ | .injected _ _ | .balanced _ =>
      isFalse id

theorem keeps_period (ho : ¬ cfg.overheadBalancing = true) : Keeps s (period cfg s) i := by
  have hp : (period cfg s).peak i = s.peak i := by rw [period_peak, if_neg fun h => ho h.1]
  refine ⟨by rw [period_nPeak], by rw [hp], by rw [hp], by rw [period_fcalls], ?_⟩
  rw [period_max, if_neg ho]

/-- **A period outside the gap** keeps what a thread relies on. -/
theorem period_cover (ho : cfg.overheadBalancing = true) {p : PC} (hc : Cover s i p)
    (hgap : ¬ InGap s i p) : Cover (period cfg s) i p := by
  have hpeak : (period cfg s).nPeak = s.nPeak := period_nPeak s
  have hcovered : Covered (period cfg s) i := by
    rintro ⟨hi, hf, hw⟩
    rw [hpeak] at hi
    rw [period_fcalls] at hf
    exact period_covers ho hi hw hf.ne'
  cases p with
  | idle | counted | raised | slept | injected | balanced => exact hcovered
  | totaled x l =>
      obtain ⟨hi, hf, hr⟩ := hc
      refine ⟨hpeak ▸ hi, by rw [period_fcalls, hf], fun hw => ?_⟩
      obtain ⟨hratio, hpos, hbusy⟩ := period_ratio ho hi hw
      refine ⟨hratio ▸ (hr hpos).1, fun hne _ => period_covers ho hi hw (hf ▸ hne)⟩
  | peaked x l =>
      obtain ⟨hi, hr⟩ := hc
      refine ⟨hpeak ▸ hi, fun hw => ?_⟩
      obtain ⟨hratio, hpos, hbusy⟩ := period_ratio ho hi hw
      refine ⟨hratio ▸ (hr hpos).1, fun hne hle => ?_⟩
      -- Its calls are counted only by its next scope: a thread without any yet is left out.
      by_cases hf : (s.total i).totalFcalls = 0
      · rw [newFcalls, period_fcalls, ← newFcalls] at hne
        rw [hratio] at hle ⊢
        by_contra hlt
        rw [period_max, if_pos ho, not_le] at hlt
        exact hgap ⟨hf, hne, hpos, hbusy, hle, hlt⟩
      · exact period_covers ho hi hw hf

end Period

/-! ### Runs -/

/-- The run's periods all fall outside the gap of every thread. -/
def PeriodsAvoidGap (cfg : Config) (s : Scoped) : ScopeAction → Prop
  | .period => cfg.overheadBalancing = true → ∀ i < s.shared.nPeak, ¬ InGap s.shared i (s.pc i)
  | _ => True

/-- The peak covers the eligible threads between hand-offs. -/
def PeakCovers (s : Scoped) : Prop :=
  ∀ i, s.pc i = .idle → Eligible s.shared i →
    ratioOf s.shared i ≤ s.shared.maxBufferWorkRatio

/-- The invariant of the runs that avoid the gap. -/
structure Covers (s : Scoped) : Prop where
  sizes : s.shared.nTotal ≤ s.shared.nPeak
  pushed : s.init = .pushed → s.shared.nTotal < s.shared.nPeak
  started : ∀ i, s.shared.nTotal ≤ i → s.pc i = .idle
  cover : ∀ i, Cover s.shared i (s.pc i)

theorem covers_init : Covers {} :=
  ⟨le_rfl, nofun, fun _ _ => rfl, fun _ h => absurd h.1 (Nat.not_lt_zero _)⟩

section Runs
variable {cfg : Config} {s t : Scoped}

theorem keeps_initPeak {s : Shared} {j : ℕ} (h : j ≠ s.nPeak) : Keeps s s.initPeak j := by
  have hp : s.initPeak.peak j = s.peak j := Function.update_of_ne h ..
  have hlt : j < s.nPeak ↔ j < s.nPeak + 1 :=
    ⟨Nat.lt_succ_of_lt, fun hj => lt_of_le_of_ne (Nat.lt_succ_iff.mp hj) h⟩
  exact ⟨hlt, by rw [hp], by rw [hp], rfl, le_rfl⟩

theorem keeps_initTotal {s : Shared} {j : ℕ} (h : j ≠ s.nTotal) : Keeps s s.initTotal j := by
  have ht : s.initTotal.total j = s.total j := Function.update_of_ne h ..
  exact ⟨Iff.rfl, rfl, rfl, by rw [ht], le_rfl⟩

/-- A scope of `InitThreadData` gives the new thread, which has not started, empty entries. -/
theorem Covers.init (h : Covers s) (hs : scopeStep cfg s .init = some t) : Covers t := by
  unfold scopeStep at hs
  dsimp only at hs
  split at hs
  · cases hs
    have hkeeps : ∀ i, Keeps s.shared s.shared.initInsert i := fun _ =>
      ⟨Iff.rfl, rfl, rfl, rfl, le_rfl⟩
    exact ⟨h.sizes, nofun, h.started, fun i => (hkeeps i).cover (h.cover i)⟩
  · cases hs
    refine ⟨Nat.le_succ_of_le h.sizes, fun _ => Nat.lt_succ_of_le h.sizes, h.started, fun i => ?_⟩
    by_cases hi : i = s.shared.nPeak
    · -- the new entry is idle and has counted nothing
      have hidle := h.started i (hi ▸ h.sizes)
      have hp : s.shared.initPeak.peak i = {} := by
        rw [hi]
        exact Function.update_self ..
      dsimp only
      rw [hidle]
      rintro ⟨-, -, hw⟩
      rw [hp] at hw
      exact absurd hw (lt_irrefl 0)
    · exact (keeps_initPeak hi).cover (h.cover i)
  · rename_i hinit
    cases hs
    refine ⟨Nat.succ_le_of_lt (h.pushed hinit), nofun,
      fun i hi => h.started i (Nat.le_of_succ_le hi), fun i => ?_⟩
    by_cases hi : i = s.shared.nTotal
    · have hidle := h.started i hi.ge
      have ht : s.shared.initTotal.total i = {} := by
        rw [hi]
        exact Function.update_self ..
      dsimp only
      rw [hidle]
      rintro ⟨-, hf, -⟩
      rw [ht] at hf
      exact absurd hf (lt_irrefl 0)
    · exact (keeps_initTotal hi).cover (h.cover i)

theorem Covers.begin {i : ℕ} {x : Sample} (h : Covers s)
    (hs : scopeStep cfg s (.begin i x) = some t) : Covers t := by
  obtain ⟨hpc, hi, rfl⟩ := scopeStep_begin hs
  refine ⟨h.sizes, h.pushed, fun j hj => ?_, fun j => ?_⟩
  · have hne : j ≠ i := (lt_of_lt_of_le hi hj).ne'
    dsimp only
    rw [Function.update_of_ne hne]
    exact h.started j hj
  · dsimp only
    by_cases hj : j = i
    · subst hj
      rw [Function.update_self]
      have hc := h.cover j
      rw [hpc] at hc
      exact ((SameCounters.countScope cfg j x s.shared).keeps le_rfl j).covered hc
    · rw [Function.update_of_ne hj]
      exact ((SameCounters.countScope cfg i x s.shared).keeps le_rfl j).cover (h.cover j)

theorem Covers.next {i : ℕ} (h : Covers s) (hs : scopeStep cfg s (.next i) = some t) :
    Covers t := by
  obtain ⟨u, p, ha, rfl⟩ := scopeStep_next hs
  have hscope := advance_scope ha
  obtain ⟨hpeak, htotal⟩ := hscope.sizes
  have hi : i < s.shared.nTotal := by
    by_contra hle
    rw [h.started i (not_lt.mp hle)] at ha
    cases ha
  refine ⟨by rw [hpeak, htotal]; exact h.sizes, by rw [hpeak, htotal]; exact h.pushed,
    fun j hj => ?_, fun j => ?_⟩
  · dsimp only at hj ⊢
    rw [htotal] at hj
    rw [Function.update_of_ne (lt_of_lt_of_le hi hj).ne']
    exact h.started j hj
  · dsimp only
    by_cases hj : j = i
    · subst hj
      rw [Function.update_self]
      exact advance_cover (lt_of_lt_of_le hi h.sizes) (h.cover j) ha
    · rw [Function.update_of_ne hj]
      exact (hscope.keeps hj).cover (h.cover j)

theorem Covers.period (h : Covers s) (hC : PeriodsAvoidGap cfg s .period)
    (hs : scopeStep cfg s .period = some t) : Covers t := by
  cases scopeStep_period hs
  have hpeak : (period cfg s.shared).nPeak = s.shared.nPeak := period_nPeak s.shared
  have htotal : (period cfg s.shared).nTotal = s.shared.nTotal := period_nTotal s.shared
  refine ⟨by rw [hpeak, htotal]; exact h.sizes, by rw [hpeak, htotal]; exact h.pushed,
    by rw [htotal]; exact h.started, fun i => ?_⟩
  by_cases ho : cfg.overheadBalancing = true
  · refine period_cover ho (h.cover i) fun hgap => ?_
    by_cases hi : i < s.shared.nPeak
    · exact hC ho i hi hgap
    · rw [h.started i (h.sizes.trans (not_lt.mp hi))] at hgap
      exact hgap
  · exact (keeps_period ho).cover (h.cover i)

theorem Covers.step {a : ScopeAction} (h : Covers s) (hC : PeriodsAvoidGap cfg s a)
    (hs : scopeStep cfg s a = some t) : Covers t := by
  cases a with
  | init => exact h.init hs
  | begin i x => exact h.begin hs
  | next i => exact h.next hs
  | period => exact h.period hC hs

/-- **The peak covers every eligible thread** between hand-offs, in every run whose periods all
avoid the gap. -/
theorem peak_covers_eligible {as : List ScopeAction}
    (hC : EveryStep (scopeStep cfg) {} as (PeriodsAvoidGap cfg)) :
    EveryState (scopeStep cfg) {} as PeakCovers := by
  refine hC.everyState covers_init (fun _ _ _ h hC hs => h.step hC hs) ?_
  intro s h i hpc
  have hc := h.cover i
  rw [hpc] at hc
  exact hc

end Runs

/-! ### A period in the gap -/

section Gap
variable {cfg : Config} {s : Scoped} {i : ℕ}

/-- After a period in the gap the thread has work in the window and is above the peak. -/
theorem period_gap {u : Shared} {x : Sample} {l : Locals} (ho : cfg.overheadBalancing = true)
    (hi : i < u.nPeak) (hgap : InGap u i (.peaked x l)) :
    0 < ((period cfg u).peak i).nWork ∧ newFcalls i x (period cfg u) ≠ 0 ∧
      (period cfg u).maxBufferWorkRatio < ratioOf u i := by
  obtain ⟨-, hnew, hpos, hbusy, -, hlt⟩ := hgap
  have hidle : ¬ (u.peak i).idle = true := fun h => hbusy (beq_iff_eq.mp h)
  refine ⟨?_, ?_, ?_⟩
  · rw [period_peak, if_pos ⟨ho, hi⟩, PeakEntry.decay, PeakEntry.scaled, if_neg hidle]
    exact mul_pos hpos (by norm_num [scaleFactor])
  · rw [newFcalls, period_fcalls]
    exact hnew
  · rw [period_max, if_pos ho]
    exact hlt

variable (cfg) in
/-- A thread within its snapshot leaves the peak, and its own counters and calls, as they are. -/
theorem threadStep_within {u : Shared} {x : Sample} {l : Locals} {r : ℚ}
    (hr : l.bufWorkRatio = some r) (hf : newFcalls i x u ≠ 0) (hle : r ≤ l.maxRatioSnapshot) :
    ∃ v, Reachable (threadStep cfg i) (u, .peaked x l) (v, .idle) ∧ v.nPeak = u.nPeak ∧
      v.maxBufferWorkRatio = u.maxBufferWorkRatio ∧ (v.total i).totalFcalls = newFcalls i x u ∧
      ratioOf v i = ratioOf u i ∧ (v.peak i).nWork = (u.peak i).nWork := by
  have htotal : ((totalScope i x u).total i).totalFcalls = newFcalls i x u := by
    rw [totalScope_fcalls, if_pos rfl]
  obtain ⟨m, hm⟩ : ∃ m : Locals,
      m = { l with currFcalls := ((totalScope i x u).total i).totalFcalls } := ⟨_, rfl⟩
  have hratio : m.bufWorkRatio = some r := by rw [hm]; exact hr
  have hsnap : r ≤ m.maxRatioSnapshot := by rw [hm]; exact hle
  have hskip : ¬ m.skip = true := by
    rw [skip_eq r m hratio, beq_iff_eq, hm]
    exact htotal ▸ hf
  have hcount : Reachable (threadStep cfg i) (u, .peaked x l) (totalScope i x u, .totaled x m) :=
    threadStep_next (.refl _) (by rw [hm]; rfl)
  have hdelay := (delay_counters i x (totalScope i x u) m r).trans (.dataScope cfg i x _)
  refine ⟨dataScope cfg i x (delay i x (totalScope i x u) m r).1, ?_, hdelay.nPeak,
    delay_max_of_le i x (totalScope i x u) m r hsnap, (hdelay.fcalls i).trans htotal, ?_⟩
  · exact threadStep_next (hcount.trans (threadStep_delay _ m hratio hskip)) rfl
  · obtain ⟨a, b, hp⟩ := hdelay.peak i
    rw [ratioOf, hp]
    exact ⟨rfl, rfl⟩

/-- **A period in the gap** uncovers the thread: finishing its round alone, it is above the peak. -/
theorem gap_uncovers {as : List ScopeAction} (h : exec (scopeStep cfg) {} as = some s)
    (hC : EveryStep (scopeStep cfg) {} as (PeriodsAvoidGap cfg))
    (ho : cfg.overheadBalancing = true) (hi : i < s.shared.nPeak)
    (hgap : InGap s.shared i (s.pc i)) :
    ∃ t, Reachable (scopeStep cfg) s t ∧ ¬ PeakCovers t := by
  have hcovers : Covers s :=
    hC.invariant covers_init (fun _ _ _ h hC hs => h.step hC hs) h
  have hcover := hcovers.cover i
  have hperiod : scopeStep cfg s .period = some { s with shared := period cfg s.shared } :=
    if_pos (Config.dynamicControl_of_balancing ho)
  cases hpc : s.pc i with
  | idle | counted | totaled | raised | slept | injected | balanced =>
      rw [hpc] at hgap
      exact hgap.elim
  | peaked x l =>
      rw [hpc] at hgap hcover
      obtain ⟨hwork, hnew, hlt⟩ := period_gap ho hi hgap
      obtain ⟨-, -, hpos, -, hle, -⟩ := hgap
      have hratio := (period_ratio ho hi hwork).1
      obtain ⟨v, hv, hsize, hmax, hcalls, hrv, hwv⟩ :=
        threadStep_within cfg (hcover.2 hpos).1 hnew hle
      -- the thread finishes its round alone, after the period
      have halone : Reachable (threadStep cfg i)
          (period cfg s.shared, s.pc i) (v, .idle) := by
        rw [hpc]
        exact hv
      refine ⟨_, ((Reachable.refl s).next hperiod).trans
        (Reachable.scopes (s := { s with shared := period cfg s.shared }) halone), fun hcov => ?_⟩
      have hle' := hcov i (Function.update_self ..) ⟨?_, ?_, ?_⟩
      · dsimp only at hle'
        rw [hrv, hratio, hmax] at hle'
        exact absurd hlt (not_lt.mpr hle')
      · dsimp only
        rw [hsize, period_nPeak]
        exact hi
      · dsimp only
        rw [hcalls]
        exact Nat.pos_of_ne_zero hnew
      · dsimp only
        rw [hwv]
        exact hwork

end Gap

/-! ### Two threads -/

/-- `InitThreadData` for two threads. -/
def twoThreads : List ScopeAction := List.replicate 6 .init

/-- Thread 0 processes a buffer at ratio 1, and a period counts it. -/
def firstBuffer : List ScopeAction :=
  [.begin 0 (evenSample 1 1)] ++ List.replicate 5 (.next 0) ++ [.period]

/-- Thread 1 reads its ratio 1/2; a period passes, and thread 1 ends its round. -/
def secondBuffer : List ScopeAction :=
  [.begin 1 (evenSample 2 1), .next 1, .period] ++ List.replicate 6 (.next 1)

instance (cfg : Config) (s : Scoped) : ∀ a, Decidable (PeriodsAvoidGap cfg s a)
  | .init | .begin _ _ | .next _ => isTrue trivial
  | .period => inferInstanceAs (Decidable (_ → ∀ i < s.shared.nPeak, ¬ InGap s.shared i (s.pc i)))

theorem peak_covers_eligible_firstBuffer :
    EveryState (scopeStep {}) {} (twoThreads ++ firstBuffer) PeakCovers :=
  peak_covers_eligible (by decide +kernel)

/-- Thread 1 is eligible at ratio 1/2, above the peak 0. -/
theorem peak_misses_thread :
    ∃ s, exec (scopeStep {}) {} (twoThreads ++ firstBuffer ++ secondBuffer) = some s ∧
      s.pc 1 = .idle ∧ Eligible s.shared 1 ∧ ratioOf s.shared 1 = 1 / 2 ∧
      s.shared.maxBufferWorkRatio = 0 ∧
      ¬ EveryState (scopeStep {}) {} (twoThreads ++ firstBuffer ++ secondBuffer) PeakCovers := by
  have hrun : (exec (scopeStep {}) {} (twoThreads ++ firstBuffer ++ secondBuffer)).map (fun s =>
      (s.pc 1, s.shared.nPeak, (s.shared.total 1).totalFcalls, (s.shared.peak 1).nWork,
        ratioOf s.shared 1, s.shared.maxBufferWorkRatio)) =
      some (.idle, 2, 1, 1 / 2, 1 / 2, 0) := by
    decide +kernel
  obtain ⟨s, hs, hp⟩ := Option.map_eq_some_iff.mp hrun
  simp only [Prod.mk.injEq] at hp
  obtain ⟨hpc, hn, hf, hw, hratio, hmax⟩ := hp
  have hel : Eligible s.shared 1 :=
    ⟨by rw [hn]; exact Nat.one_lt_two, by rw [hf]; exact Nat.one_pos, by rw [hw]; norm_num⟩
  refine ⟨s, hs, hpc, hel, hratio, hmax, fun h => ?_⟩
  have hle := h.last hs 1 hpc hel
  rw [hratio, hmax] at hle
  norm_num at hle

end BulletTime.Balance
