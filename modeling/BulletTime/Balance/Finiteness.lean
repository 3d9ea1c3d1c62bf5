import Mathlib.Tactic.Linarith
import BulletTime.Balance.Doubles

/-!
# Balance — Finiteness

Where the work of a buffer is a finite number, and what follows from it for the counters it is
added to, the ratios taken of them and the values passed to `WriteDummy`.

* `zero_notMem_divisors_iff`: the computation of `work` divides by zero exactly where one of three
  counts is zero.
* `isFinite_workDouble_iff`: its result is finite where two of them are not zero.
* `workDouble_of_work`: it is the rational number of the tables over rationals.
* `Fine`: the counters and the remembered peak are finite and not negative, and a ratio that is
  finite is positive.
* `defined_iff` and `work_defined_iff`: over whole runs.
-/

namespace BulletTime.Balance.Doubles
open Transition Double

/-! ### The work of a buffer -/

section Work
variable {x : Sample}

/-- The three counts that `work` is divided by have run. -/
structure Ran (x : Sample) : Prop where
  kernelCycles : x.counts.kernelCycles ≠ 0
  userCycles : x.counts.userCycles ≠ 0
  userInstructions : x.counts.userInstructions ≠ 0

theorem fin_intCast_eq_zero {n : ℤ} : Double.fin n = .fin 0 ↔ n = 0 := by
  rw [Double.fin.injEq, Int.cast_eq_zero]

/-- **No division by zero**: the divisors are not zero exactly where the three counts are not. -/
theorem zero_notMem_divisors_iff : Double.fin 0 ∉ x.divisors ↔ Ran x := by
  simp only [Sample.divisors, List.mem_cons, List.not_mem_nil, or_false, not_or,
    eq_comm (a := Double.fin 0), fin_intCast_eq_zero]
  constructor
  · rintro ⟨hk, hu, hipc⟩
    refine ⟨hk, hu, fun hi => hipc ?_⟩
    rw [Sample.userIpc, hi, fin_div (Int.cast_ne_zero.mpr hu), Int.cast_zero, zero_div]
  · rintro ⟨hk, hu, hi⟩
    refine ⟨hk, hu, fun hipc => ?_⟩
    rw [Sample.userIpc, fin_div (Int.cast_ne_zero.mpr hu), Double.fin.injEq,
      div_eq_zero_iff] at hipc
    rcases hipc with h | h
    · exact hi (Int.cast_eq_zero.mp h)
    · exact hu (Int.cast_eq_zero.mp h)

theorem kernelIns_nonneg (x : Sample) : 0 ≤ x.kernelIns := le_max_right _ _

/-- **A finite work** needs kernel cycles and user instructions; without user cycles the
application counts for nothing. -/
theorem isFinite_workDouble_iff :
    x.workDouble.IsFinite ↔ x.counts.kernelCycles ≠ 0 ∧ x.counts.userInstructions ≠ 0 := by
  rw [Sample.workDouble, isFinite_fin_add, isFinite_fin_mul, isFinite_div_iff, Sample.kernelIpc,
    isFinite_div_iff, Sample.userIpc, fin_div_fin_ne, ne_eq, ne_eq, ne_eq, fin_intCast_eq_zero,
    Int.cast_eq_zero]
  exact and_congr_left' ((and_iff_right (isFinite_fin _)).trans (and_iff_left nofun))

/-- A finite work is not negative. -/
theorem nonneg_workDouble (hn : x.Nonneg) (hk : x.counts.kernelCycles ≠ 0)
    (hi : x.counts.userInstructions ≠ 0) : x.workDouble.Nonneg := by
  have hcast : ∀ n : ℤ, 0 ≤ n → (Double.fin n).Nonneg := fun n h => nonneg_fin (Int.cast_nonneg h)
  have hkernel : x.kernelIpc.Nonneg :=
    (hcast _ hn.kernelInstructions).div (hcast _ hn.kernelCycles) (mt fin_intCast_eq_zero.mp hk)
  have hquot : (x.kernelIpc / x.userIpc).Nonneg := by
    by_cases hu : x.counts.userCycles = 0
    · -- the rate of the application is infinite, and the quotient zero
      obtain ⟨k, -, hk⟩ := hkernel
      rw [Sample.userIpc, hu, Int.cast_zero, fin_div_zero, if_neg (Int.cast_ne_zero.mpr hi), hk,
        fin_div_inf]
      exact nonneg_fin le_rfl
    · have huser : x.userIpc.Nonneg :=
        (hcast _ hn.userInstructions).div (hcast _ hn.userCycles) (mt fin_intCast_eq_zero.mp hu)
      exact hkernel.div huser (fin_div_fin_ne.mpr (Int.cast_ne_zero.mpr hi)).1
  exact (hcast _ (kernelIns_nonneg x)).add ((nonneg_fin (Nat.cast_nonneg _)).mul hquot)

/-- Where all three counts have run, the work is the rational number of `Sample.work`. -/
theorem workDouble_of_work {w : ℚ} (h : x.work = some w) : x.workDouble = .fin w := by
  unfold Sample.work at h
  split_ifs at h with hzero
  obtain ⟨hk, hu, hi⟩ : x.counts.kernelCycles ≠ 0 ∧ x.counts.userCycles ≠ 0 ∧
      x.counts.userInstructions ≠ 0 := by
    simpa only [not_or] using hzero
  have hipc : (x.counts.userInstructions : ℚ) / x.counts.userCycles ≠ 0 :=
    div_ne_zero (Int.cast_ne_zero.mpr hi) (Int.cast_ne_zero.mpr hu)
  rw [← Option.some.inj h, Sample.workDouble, Sample.kernelIpc, Sample.userIpc,
    fin_div (Int.cast_ne_zero.mpr hk), fin_div (Int.cast_ne_zero.mpr hu), fin_div hipc, fin_mul,
    fin_add]

end Work

/-! ### The invariant -/

/-- A ratio that is finite is positive, so it may be divided by. -/
def Usable (r : Double) : Prop := ∀ q, r = .fin q → 0 < q

/-- The counters of a thread are finite and not negative. -/
structure PeakEntry.Fine (e : PeakEntry) : Prop where
  nBuffers : e.nBuffers.Nonneg
  nWork : e.nWork.Nonneg
  totalWork : e.totalWork.Nonneg
  lastWork : e.lastWork.Nonneg

/-- What a thread relies on in its round. -/
def PC.Fine : PC → Prop
  | .counted x => x.Nonneg
  | .peaked _ l | .totaled _ l => l.maxRatioSnapshot.Nonneg ∧ Usable l.bufWorkRatio
  | .raised _ l => l.maxRatioSnapshot.Nonneg ∧ ∃ q, 0 < q ∧ l.bufWorkRatio = .fin q
  | _ => True

structure Fine (s : State) : Prop where
  peak : ∀ i, (s.tables.peak i).Fine
  maxRatio : s.tables.maxBufferWorkRatio.Nonneg
  pc : ∀ i, (s.pc i).Fine
  extras : ∀ e ∈ s.extras, e.IsFinite

section Entries
variable {e : PeakEntry} {work : Double}

theorem nonneg_zero : (Double.fin 0).Nonneg := nonneg_fin le_rfl

theorem fine_zero : PeakEntry.Fine {} := ⟨nonneg_zero, nonneg_zero, nonneg_zero, nonneg_zero⟩

theorem fine_start : Fine {} where
  peak _ := fine_zero
  maxRatio := nonneg_zero
  pc _ := trivial
  extras := nofun

/-- A buffer is added. -/
theorem PeakEntry.Fine.add (h : e.Fine) (hw : work.Nonneg) :
    PeakEntry.Fine { e with
      nWork := e.nWork + work
      nBuffers := e.nBuffers + .fin 1
      totalWork := e.totalWork + work } where
  nBuffers := h.nBuffers.add (nonneg_fin zero_le_one)
  nWork := h.nWork.add hw
  totalWork := h.totalWork.add hw
  lastWork := h.lastWork

/-- The ratio of a thread that has processed a buffer. -/
theorem PeakEntry.Fine.usable (h : e.Fine) (hw : work.Nonneg) :
    Usable ((e.nBuffers + .fin 1) / (e.nWork + work)) := by
  obtain ⟨b, hb, hbe⟩ := h.nBuffers
  obtain ⟨w, hw0, hwe⟩ := h.nWork.add hw
  rw [hbe, hwe, fin_add]
  intro q hq
  by_cases h0 : w = 0
  · subst h0
    exact absurd ⟨q, hq⟩ (not_isFinite_fin_div_zero _)
  · rw [fin_div h0] at hq
    rw [← Double.fin.inj hq]
    exact div_pos (add_pos_of_nonneg_of_pos hb one_pos) (lt_of_le_of_ne hw0 (Ne.symm h0))

theorem PeakEntry.Fine.decay (h : e.Fine) : e.decay.Fine := by
  have hq : (Double.fin scaleFactor).Nonneg := nonneg_fin (by norm_num [scaleFactor])
  have hs : e.scaled.Fine := by
    unfold PeakEntry.scaled
    split_ifs
    · exact ⟨nonneg_zero, nonneg_zero, h.totalWork, h.lastWork⟩
    · exact ⟨h.nBuffers.mul hq, h.nWork.mul hq, h.totalWork, h.lastWork⟩
  exact ⟨hs.nBuffers, hs.nWork, hs.totalWork, hs.nWork⟩

/-- A thread that is not skipped has a finite ratio. -/
theorem isFinite_of_not_skip {tWork r : Double} {fcalls : ℕ}
    (h : skipOverheadBalancing tWork r fcalls = false) : r.IsFinite := by
  rw [skipOverheadBalancing, Bool.or_eq_false_iff] at h
  exact isFinite_iff.mpr (by rw [h.1]; exact Bool.false_ne_true)

theorem PeakEntry.Fine.newMaxRatio (h : e.Fine) {acc : Double} (ha : acc.Nonneg) (fcalls : ℕ) :
    (e.newMaxRatio fcalls acc).Nonneg := by
  unfold PeakEntry.newMaxRatio
  split_ifs with hidle hc
  · exact ha
  · rw [Bool.and_eq_true, Bool.not_eq_true'] at hc
    obtain ⟨-, hz, -⟩ := isFinite_div_iff.mp (isFinite_of_not_skip hc.1)
    exact h.nBuffers.div h.nWork hz
  · exact ha

end Entries

/-- What is passed to `WriteDummy` is finite. -/
theorem isFinite_extraBuffers {l : Locals} (hs : l.maxRatioSnapshot.Nonneg) {q : ℚ} (hq : 0 < q)
    (hr : l.bufWorkRatio = .fin q) {e : Double} (he : e ∈ l.extraBuffers.toList) : e.IsFinite := by
  obtain ⟨m, -, hm⟩ := hs
  rw [Option.mem_toList, Locals.extraBuffers, hr, hm, fin_div hq.ne', fin_sub] at he
  dsimp only at he
  split_ifs at he
  · obtain rfl := Option.some.inj he
    exact isFinite_fin _

theorem period_fine (cfg : Config) {u : Tables} (hp : ∀ i, (u.peak i).Fine)
    (hm : u.maxBufferWorkRatio.Nonneg) :
    (∀ i, ((period cfg u).peak i).Fine) ∧ (period cfg u).maxBufferWorkRatio.Nonneg := by
  unfold period
  split_ifs
  · refine ⟨fun i => ?_, ?_⟩
    · dsimp only
      split_ifs
      · exact (hp i).decay
      · exact hp i
    · dsimp only
      induction u.nPeak with
      | zero => exact nonneg_zero
      | succ n ih =>
          rw [List.range_succ, List.foldl_append]
          exact (hp n).newMaxRatio ih _
  · exact ⟨hp, hm⟩

/-! ### Whole runs -/

/-- `get_deltas` returns no negative count. -/
def NonnegCounts (_ : State) : Action → Prop
  | .begin _ x => x.Nonneg
  | _ => True

/-- The computation of `work` divides by zero nowhere. -/
def NoZeroDivision (cfg : Config) (s : State) (a : Action) : Prop :=
  ∀ i x, a = .next i → s.pc i = .counted x → Balanced cfg s.tables → Double.fin 0 ∉ x.divisors

/-- The three counts have run in the interval of a balanced round. -/
def CountersRan (cfg : Config) (s : State) (a : Action) : Prop :=
  ∀ i x, a = .next i → s.pc i = .counted x → Balanced cfg s.tables → Ran x

/-- The two counts have run without which the work is not finite. -/
def FiniteWork (cfg : Config) (s : State) (a : Action) : Prop :=
  ∀ i x, a = .next i → s.pc i = .counted x → Balanced cfg s.tables →
    x.counts.kernelCycles ≠ 0 ∧ x.counts.userInstructions ≠ 0

/-- `n_work` and `total_work` are finite and not negative, and every value that has reached
`WriteDummy` is finite. -/
structure Defined (s : State) : Prop where
  nWork : ∀ i, (s.tables.peak i).nWork.Nonneg
  totalWork : ∀ i, (s.tables.peak i).totalWork.Nonneg
  extras : ∀ e ∈ s.extras, e.IsFinite

variable {cfg : Config} {s t : State} {a : Action} {i : ℕ}

/-- The peak is raised to a ratio that is not negative. -/
theorem nonneg_raiseScope {u : Tables} {r : Double} (hm : u.maxBufferWorkRatio.Nonneg)
    (hr : r.Nonneg) : (u.raiseScope r).maxBufferWorkRatio.Nonneg := by
  unfold Tables.raiseScope
  dsimp only
  split_ifs
  · exact hr
  · exact hm

/-- The next scope of a round. -/
theorem Fine.advance {u : Tables} {p : PC} (h : Fine s)
    (hr : ∀ x, s.pc i = .counted x → Balanced cfg s.tables →
      x.counts.kernelCycles ≠ 0 ∧ x.counts.userInstructions ≠ 0)
    (ha : advance cfg i s.tables (s.pc i) = some (u, p)) :
    (∀ j, (u.peak j).Fine) ∧ u.maxBufferWorkRatio.Nonneg ∧ p.Fine ∧
      ∀ e ∈ (s.pc i).extra, e.IsFinite := by
  have hown := h.pc i
  cases hpc : s.pc i with
  | idle =>
      rw [hpc] at ha
      cases ha
  | counted x =>
      rw [hpc] at ha hown
      simp only [Doubles.advance] at ha
      split_ifs at ha with hb
      · cases ha
        -- no divisor is zero, so the work is finite
        have hw := nonneg_workDouble hown (hr x hpc hb).1 (hr x hpc hb).2
        refine ⟨?_, h.maxRatio, ⟨h.maxRatio, ?_⟩, nofun⟩
        · exact (Function.forall_update_iff _ fun _ e => PeakEntry.Fine e).mpr
            ⟨(h.peak i).add hw, fun j _ => h.peak j⟩
        · rw [Tables.snapshot, PeakEntry.ratio, Tables.peakScope, Tables.peak_modPeak_self]
          exact (h.peak i).usable hw
      · cases ha
        exact ⟨h.peak, h.maxRatio, trivial, nofun⟩
  | peaked x l =>
      rw [hpc] at ha hown
      cases ha
      exact ⟨h.peak, h.maxRatio, hown, nofun⟩
  | totaled x l =>
      rw [hpc] at ha hown
      simp only [Doubles.advance] at ha
      split_ifs at ha with hskip hraise
      · cases ha
        exact ⟨h.peak, h.maxRatio, trivial, nofun⟩
      all_goals
        cases ha
        obtain ⟨q, hq⟩ := isFinite_of_not_skip (eq_false_of_ne_true hskip)
        have hpos := hown.2 q hq
      · have hmax := nonneg_raiseScope h.maxRatio ⟨q, hpos.le, hq⟩
        exact ⟨h.peak, hmax, ⟨hmax, q, hpos, hq⟩, nofun⟩
      · exact ⟨h.peak, h.maxRatio, ⟨hown.1, q, hpos, hq⟩, nofun⟩
  | raised x l =>
      rw [hpc] at ha hown
      cases ha
      obtain ⟨hs, q, hq, hr⟩ := hown
      exact ⟨h.peak, h.maxRatio, trivial, fun e he => isFinite_extraBuffers hs hq hr he⟩
  | balanced x =>
      rw [hpc] at ha
      cases ha
      exact ⟨h.peak, h.maxRatio, trivial, nofun⟩

/-- **One scope** keeps everything finite where the counts have run. -/
theorem Fine.step (hi : Fine s) (hn : NonnegCounts s a) (hr : FiniteWork cfg s a)
    (h : step cfg s a = some t) : Fine t := by
  cases a with
  | init =>
      cases hpc : s.init with
      | idle =>
          simp only [Doubles.step, hpc] at h
          cases h
          refine ⟨?_, hi.maxRatio, hi.pc, hi.extras⟩
          exact (Function.forall_update_iff _ fun _ e => PeakEntry.Fine e).mpr
            ⟨fine_zero, fun j _ => hi.peak j⟩
      | pushed =>
          simp only [Doubles.step, hpc] at h
          cases h
          exact ⟨hi.peak, hi.maxRatio, hi.pc, hi.extras⟩
  | begin i x =>
      obtain ⟨-, -, rfl⟩ := step_begin h
      refine ⟨hi.peak, hi.maxRatio, ?_, hi.extras⟩
      exact (Function.forall_update_iff _ fun _ p => PC.Fine p).mpr ⟨hn, fun j _ => hi.pc j⟩
  | next i =>
      obtain ⟨u, p, ha, rfl⟩ := step_next h
      obtain ⟨hpeak, hmax, hp, hextra⟩ := hi.advance (fun x => hr i x rfl) ha
      refine ⟨hpeak, hmax, ?_, fun e he => ?_⟩
      · exact (Function.forall_update_iff _ fun _ p => PC.Fine p).mpr ⟨hp, fun j _ => hi.pc j⟩
      · rcases List.mem_append.mp he with he | he
        · exact hi.extras e he
        · exact hextra e he
  | period =>
      cases step_period h
      obtain ⟨hpeak, hmax⟩ := period_fine cfg hi.peak hi.maxRatio
      exact ⟨hpeak, hmax, hi.pc, hi.extras⟩

theorem Fine.defined (h : Fine s) : Defined s :=
  ⟨fun i => (h.peak i).nWork, fun i => (h.peak i).totalWork, h.extras⟩

section Runs
variable (cfg : Config) {as : List Action}

theorem everyState_defined (hn : EveryStep (step cfg) {} as NonnegCounts)
    (hr : EveryStep (step cfg) {} as (FiniteWork cfg)) : EveryState (step cfg) {} as Defined := by
  have hboth : EveryStep (step cfg) {} as fun s a => NonnegCounts s a ∧ FiniteWork cfg s a :=
    fun bs a cs s e hs => ⟨hn bs a cs s e hs, hr bs a cs s e hs⟩
  exact hboth.everyState fine_start (fun _ _ _ hi ha hs => hi.step ha.1 ha.2 hs)
    fun _ hi => hi.defined

/-- A sample that is not finite stays in `n_work`. -/
theorem finiteWork_of_defined (h : step cfg s a = some t) (hd : Defined t) :
    FiniteWork cfg s a := by
  rintro i x rfl hpc hb
  obtain ⟨u, p, ha, rfl⟩ := step_next h
  rw [hpc] at ha
  simp only [Doubles.advance, if_pos hb] at ha
  cases ha
  have hw := (hd.nWork i).isFinite
  simp only [Tables.peakScope, Tables.peak_modPeak_self] at hw
  exact isFinite_workDouble_iff.mp (isFinite_of_add hw)

/-- **The counters stay finite** along exactly the runs in whose balanced rounds the counts of
kernel cycles and user instructions have run. -/
theorem defined_iff (hn : EveryStep (step cfg) {} as NonnegCounts)
    (h : exec (step cfg) {} as = some s) :
    EveryState (step cfg) {} as Defined ↔ EveryStep (step cfg) {} as (FiniteWork cfg) := by
  refine ⟨fun hd => ?_, everyState_defined cfg hn⟩
  exact EveryState.everyStep (I := fun _ => True) trivial (fun _ _ _ _ _ => trivial)
    (fun _ _ _ _ hs => finiteWork_of_defined cfg hs) hd h

/-- **The work sample is defined**, and everything computed from it is finite, along exactly the
runs in whose balanced rounds the counts of kernel cycles, user cycles and user instructions have
run. -/
theorem work_defined_iff (hn : EveryStep (step cfg) {} as NonnegCounts) :
    EveryStep (step cfg) {} as (NoZeroDivision cfg) ∧ EveryState (step cfg) {} as Defined ↔
      EveryStep (step cfg) {} as (CountersRan cfg) := by
  constructor
  · rintro ⟨hz, -⟩
    exact hz.mono fun s a hs i x ha hp hb => zero_notMem_divisors_iff.mp (hs i x ha hp hb)
  · intro hr
    refine ⟨hr.mono fun s a hs i x ha hp hb => zero_notMem_divisors_iff.mpr (hs i x ha hp hb), ?_⟩
    exact everyState_defined cfg hn (hr.mono fun s a hs i x ha hp hb =>
      ⟨(hs i x ha hp hb).kernelCycles, (hs i x ha hp hb).userInstructions⟩)

end Runs

/-! ### A thread without user instructions -/

/-- A buffer of five instructions and one call, in whose interval all counters have run. -/
def counting : Sample where
  data := { dataSize := 48, insExec := 5, fcallsExec := 1 }
  counts := ⟨10, 10, 100000, 10, false⟩

/-- The counter of user instructions has not run. -/
def notCounting : Sample where
  data := { dataSize := 48, insExec := 5, fcallsExec := 1 }
  counts := ⟨0, 10, 100000, 10, false⟩

/-- Two threads are started, and thread 1 processes a buffer. -/
def firstRound : List Action :=
  [.init, .init, .init, .init, .begin 1 counting, .next 1, .next 1, .next 1, .next 1, .next 1]

/-- Thread 0 then processes one, up to its `WriteDummy`. -/
def secondRound : List Action :=
  firstRound ++ [.begin 0 notCounting, .next 0, .next 0, .next 0, .next 0]

theorem nonneg_counting : counting.Nonneg := ⟨by decide, by decide, by decide, by decide⟩

theorem nonneg_notCounting : notCounting.Nonneg := ⟨by decide, by decide, by decide, by decide⟩

theorem nonnegCounts_of_mem {as : List Action} (h : ∀ i x, .begin i x ∈ as → x.Nonneg) :
    EveryStep (step cfg) {} as NonnegCounts := by
  refine everyStep_of_forall fun a ha s => ?_
  cases a with
  | begin i x => exact h i x ha
  | _ => trivial

theorem nonnegCounts_firstRound : EveryStep (step {}) {} firstRound NonnegCounts := by
  refine nonnegCounts_of_mem fun i x h => ?_
  obtain ⟨-, rfl⟩ : i = 1 ∧ x = counting := by simpa [firstRound] using h
  exact nonneg_counting

theorem nonnegCounts_secondRound : EveryStep (step {}) {} secondRound NonnegCounts := by
  refine nonnegCounts_of_mem fun i x h => ?_
  obtain ⟨-, rfl⟩ | ⟨-, rfl⟩ : i = 1 ∧ x = counting ∨ i = 0 ∧ x = notCounting := by
    simpa [firstRound, secondRound] using h
  · exact nonneg_counting
  · exact nonneg_notCounting

theorem work_defined_iff_firstRound :
    EveryStep (step {}) {} firstRound (NoZeroDivision {}) ∧
        EveryState (step {}) {} firstRound Defined ↔
      EveryStep (step {}) {} firstRound (CountersRan {}) :=
  work_defined_iff {} nonnegCounts_firstRound

/-- The thread's work is infinite and its ratio zero, and infinitely many extra buffers reach
`WriteDummy`. -/
theorem infinite_extraBuffers :
    EveryStep (step {}) {} secondRound NonnegCounts ∧
      ∃ s, exec (step {}) {} secondRound = some s ∧ (s.tables.peak 0).nWork = .inf false ∧
        s.extras = [.inf false] ∧
        ¬ EveryStep (step {}) {} secondRound (NoZeroDivision {}) ∧
        ¬ EveryState (step {}) {} secondRound Defined := by
  have hrun : (exec (step {}) {} secondRound).map
      (fun s => ((s.tables.peak 0).nWork, s.extras)) = some (.inf false, [.inf false]) := by
    decide +kernel
  obtain ⟨s, hs, hvalues⟩ := Option.map_eq_some_iff.mp hrun
  obtain ⟨hwork, hextras⟩ := Prod.mk.inj hvalues
  have hnot : ¬ EveryState (step {}) {} secondRound Defined := fun hd => by
    refine not_isFinite_inf false ((hd.last hs).extras _ ?_)
    rw [hextras]
    exact List.mem_singleton.mpr rfl
  refine ⟨nonnegCounts_secondRound, s, hs, hwork, hextras, fun hz => hnot ?_, hnot⟩
  refine everyState_defined {} nonnegCounts_secondRound (hz.mono fun s a hs i x ha hp hb => ?_)
  have hran := zero_notMem_divisors_iff.mp (hs i x ha hp hb)
  exact ⟨hran.kernelCycles, hran.userInstructions⟩

end BulletTime.Balance.Doubles
