import Mathlib.Tactic.NormNum
import BulletTime.Lib.Transition
import BulletTime.Lib.RunningMax
import BulletTime.Lib.Window
import BulletTime.Balance.Shared

/-!
# Balance — Atomic

Hand-offs and control periods as one atomic step each, over any number of threads that start at any
time.

* `State`: the shared tables, with two histories that no step reads: `hist`, what each thread has
  processed, by period, and `shown`, the ratios seen since the last period.
* `SameCounters`: what every scope but the first two of the balancing leaves.
* `Round` and `handOff_round`: what a round does to the counters, the call counts and the peak, and
  when it injects.
* `step_peak`: the invariant rule for the entries of the threads.
* `max_eq_shown`: the remembered peak is the largest ratio shown since the last period.
-/

namespace BulletTime.Balance
open Transition RunningMax

/-- A processed buffer: the times the window adds up. -/
structure Processed where
  genTime : ℕ
  realWTime : ℕ
  deriving DecidableEq

/-! ### The scopes that do not count -/

/-- `t` has the counters, the call counts and the threads of `s`, the injected times apart. -/
structure SameCounters (s t : Shared) : Prop where
  nPeak : t.nPeak = s.nPeak
  nTotal : t.nTotal = s.nTotal
  peak : ∀ j, ∃ a b, t.peak j = { s.peak j with nInjectedTime := a, totalInjectedTime := b }
  fcalls : ∀ j, (t.total j).totalFcalls = (s.total j).totalFcalls

namespace SameCounters
variable (cfg : Config) (i : ℕ) (x : Sample) (s : Shared) (extra : ℚ)

theorem refl : SameCounters s s := ⟨rfl, rfl, fun _ => ⟨_, _, rfl⟩, fun _ => rfl⟩

variable {s} in
theorem trans {t u : Shared} (h : SameCounters s t) (h' : SameCounters t u) : SameCounters s u := by
  refine ⟨h'.nPeak.trans h.nPeak, h'.nTotal.trans h.nTotal, fun j => ?_,
    fun j => (h'.fcalls j).trans (h.fcalls j)⟩
  obtain ⟨a, b, hp⟩ := h.peak j
  obtain ⟨a', b', hp'⟩ := h'.peak j
  exact ⟨a', b', by rw [hp', hp]⟩

/-- A scope that writes statistics under `total_lock`. -/
theorem modTotal {f : TotalEntry → TotalEntry} (hf : ∀ e, (f e).totalFcalls = e.totalFcalls) :
    SameCounters s (s.modTotal i f) := by
  refine ⟨rfl, rfl, fun j => ⟨_, _, rfl⟩, fun j => ?_⟩
  by_cases h : j = i
  · subst h
    rw [Shared.total_modTotal_self, hf]
  · rw [Shared.total_modTotal_of_ne _ _ h]

theorem countScope : SameCounters s (countScope cfg i x s) := modTotal i s fun _ => rfl

theorem raiseScope (r : ℚ) : SameCounters s (raiseScope i s r) :=
  ⟨rfl, rfl, fun _ => ⟨_, _, rfl⟩, fun _ => rfl⟩

theorem writeDummy : SameCounters s (writeDummy i x s extra) := modTotal i s fun _ => rfl

theorem injectScope : SameCounters s (injectScope i x s) := by
  refine ⟨rfl, rfl, fun j => ?_, fun j => rfl⟩
  by_cases h : j = i
  · subst h
    exact ⟨_, _, Shared.peak_modPeak_self ..⟩
  · exact ⟨_, _, Shared.peak_modPeak_of_ne _ _ h⟩

theorem dummyScope : SameCounters s (dummyScope i s extra) := modTotal i s fun _ => rfl

theorem dataScope : SameCounters s (dataScope cfg i x s) :=
  ⟨rfl, rfl, fun _ => ⟨_, _, rfl⟩, fun _ => rfl⟩

/-- The scopes of an injection. -/
theorem inject : SameCounters s
    (Balance.dummyScope i (Balance.injectScope i x (Balance.writeDummy i x s extra)) extra) :=
  (writeDummy i x s extra).trans ((injectScope i x _).trans (dummyScope i _ extra))

end SameCounters

/-! ### The balancing of a round -/

section Balance
variable (cfg : Config) (i : ℕ) (x : Sample) (s : Shared) (w : ℚ)

/-- The thread's call count after the round. -/
def newFcalls : ℕ := addWord (s.total i).totalFcalls x.data.fcallsExec

/-- The thread's ratio after a round of work `w`. -/
def newRatio : Option ℚ := ((peakScope i x s w).peak i).ratio

/-- The ratio the round shows: none where the thread is skipped. -/
def shownRatio : Option ℚ := if newFcalls i x s = 0 then none else newRatio i x s w

theorem skip_eq (r : ℚ) (l : Locals) (h : l.bufWorkRatio = some r) :
    l.skip = (l.currFcalls == 0) := by
  rw [Locals.skip, skipOverheadBalancing, h]
  rfl

/-- The second scope counts the calls of its own thread. -/
theorem totalScope_fcalls (j : ℕ) : ((totalScope i x s).total j).totalFcalls =
    if j = i then newFcalls i x s else (s.total j).totalFcalls := by
  by_cases h : j = i
  · subst h
    rw [if_pos rfl, totalScope, Shared.total_modTotal_self]
    rfl
  · rw [if_neg h, totalScope, Shared.total_modTotal_of_ne _ _ h]

/-- The balancing, by whether the thread shows a ratio. -/
theorem balance_eq : balance i x s w =
    match shownRatio i x s w with
    | some r => delay i x (totalScope i x (peakScope i x s w))
        { snapshot i (peakScope i x s w) with currFcalls := newFcalls i x s } r
    | none => (totalScope i x (peakScope i x s w), none) := by
  have hf : ((totalScope i x (peakScope i x s w)).total i).totalFcalls = newFcalls i x s := by
    rw [totalScope_fcalls, if_pos rfl]
    rfl
  have hr : (snapshot i (peakScope i x s w)).bufWorkRatio = newRatio i x s w := rfl
  simp only [balance, hf, shownRatio, hr]
  cases hn : newRatio i x s w with
  | none => split_ifs <;> rfl
  | some r =>
      dsimp only
      rw [skip_eq r _ rfl]
      by_cases h0 : newFcalls i x s = 0
      · rw [if_pos (beq_iff_eq.mpr h0), if_pos h0]
      · rw [if_neg (fun h => h0 (beq_iff_eq.mp h)), if_neg h0]

section Delay
variable (l : Locals) (r : ℚ)

/-- **A delay** leaves the counters and the call counts. -/
theorem delay_counters : SameCounters s (delay i x s l r).1 := by
  have hraise : SameCounters s (if r > l.maxRatioSnapshot then raiseScope i s r else s) := by
    split_ifs
    · exact .raiseScope i s r
    · exact .refl s
  unfold delay
  dsimp only
  split
  · exact hraise.trans (.inject i x _ _)
  · exact hraise

theorem raiseScope_max : (raiseScope i s r).maxBufferWorkRatio = max s.maxBufferWorkRatio r :=
  raised ..

/-- Read under its own snapshot, the peak after a delay is the larger of the two ratios. -/
theorem delay_max {l : Locals} (hl : l.maxRatioSnapshot = s.maxBufferWorkRatio) :
    (delay i x s l r).1.maxBufferWorkRatio = max s.maxBufferWorkRatio r ∧
      (delay i x s l r).2 = extraBuffers (max s.maxBufferWorkRatio r) r := by
  have hraise := raiseScope_max i s r
  unfold delay
  by_cases h : r > s.maxBufferWorkRatio
  · simp only [hl, if_pos h, hraise]
    split <;> rename_i he <;> exact ⟨hraise, he.symm⟩
  · simp only [hl, if_neg h]
    rw [max_eq_left (not_lt.mp h)]
    split <;> rename_i he <;> exact ⟨rfl, he.symm⟩

/-- A thread within its snapshot does not raise the peak. -/
theorem delay_max_of_le (h : r ≤ l.maxRatioSnapshot) :
    (delay i x s l r).1.maxBufferWorkRatio = s.maxBufferWorkRatio := by
  unfold delay
  simp only [if_neg (not_lt.mpr h)]
  split <;> rfl

end Delay

/-- **The balancing** counts in its first two scopes only. -/
theorem balance_counters :
    SameCounters (totalScope i x (peakScope i x s w)) (balance i x s w).1 := by
  rw [balance_eq]
  split
  · exact delay_counters ..
  · exact .refl _

/-- **The peak after a round**: raised to the ratio the round shows. -/
theorem balance_max : (balance i x s w).1.maxBufferWorkRatio =
    (shownRatio i x s w).elim s.maxBufferWorkRatio (max s.maxBufferWorkRatio) := by
  rw [balance_eq]
  split <;> rename_i hr <;> rw [hr]
  · exact (delay_max i x (totalScope i x (peakScope i x s w)) _ rfl).1
  · rfl

/-- **The delay of a round**: what the peak exceeds the shown ratio by. -/
theorem balance_inject : (balance i x s w).2 =
    (shownRatio i x s w).bind fun r => extraBuffers (max s.maxBufferWorkRatio r) r := by
  rw [balance_eq]
  split <;> rename_i hr <;> rw [hr]
  · exact (delay_max i x (totalScope i x (peakScope i x s w)) _ rfl).2
  · rfl

end Balance

/-! ### A whole round -/

section Round
variable (cfg : Config) (i : ℕ) (x : Sample) (s : Shared)

/-- The round is balanced. -/
def Balanced : Prop := cfg.overheadBalancing = true ∧ s.nPeak > 1

instance : Decidable (Balanced cfg s) := inferInstanceAs (Decidable (_ ∧ _))

/-- The ratio a round shows, if it is balanced. -/
def roundRatio : Option ℚ :=
  if Balanced cfg s then x.work.bind (shownRatio i x s) else none

theorem shownRatio_countScope (w : ℚ) :
    shownRatio i x (countScope cfg i x s) w = shownRatio i x s w := by
  rw [shownRatio, newFcalls, (SameCounters.countScope cfg i x s).fcalls]
  rfl

theorem peakScope_of_ne (w : ℚ) {j : ℕ} (h : j ≠ i) : (peakScope i x s w).peak j = s.peak j :=
  Shared.peak_modPeak_of_ne _ _ h

theorem peakScope_self (w : ℚ) : (peakScope i x s w).peak i =
    { s.peak i with
      nWork := (s.peak i).nWork + w
      nBuffers := (s.peak i).nBuffers + 1
      totalWork := (s.peak i).totalWork + w
      nIoTime := (s.peak i).nIoTime + x.realWTime
      totalIoTime := (s.peak i).totalIoTime + x.realWTime
      nGenTime := (s.peak i).nGenTime + x.data.genTime } :=
  Shared.peak_modPeak_self ..

/-- A round, by whether it is balanced. -/
theorem handOff_cases {t : Shared} {extra : Option ℚ} (h : handOff cfg i x s = some (t, extra)) :
    (¬ Balanced cfg s ∧ t = dataScope cfg i x (countScope cfg i x s) ∧ extra = none) ∨
      ∃ w, Balanced cfg s ∧ x.work = some w ∧
        t = dataScope cfg i x (balance i x (countScope cfg i x s) w).1 ∧
        extra = (balance i x (countScope cfg i x s) w).2 := by
  unfold handOff at h
  dsimp only at h
  by_cases hb : Balanced cfg s
  · obtain ⟨w, hw, hp⟩ := Option.map_eq_some_iff.mp ((if_pos hb).symm.trans h)
    cases hp
    exact Or.inr ⟨w, hb, hw, rfl, rfl⟩
  · cases (if_neg hb).symm.trans h
    exact Or.inl ⟨hb, rfl, rfl⟩

/-- The first scope of the processing leaves what the balancing counts. -/
theorem counters_countScope (w : ℚ) : SameCounters (totalScope i x (peakScope i x s w))
    (totalScope i x (peakScope i x (countScope cfg i x s) w)) := by
  have hf := (SameCounters.countScope cfg i x s).fcalls
  refine ⟨rfl, rfl, fun _ => ⟨_, _, rfl⟩, fun j => ?_⟩
  rw [totalScope_fcalls, totalScope_fcalls]
  by_cases h : j = i
  · rw [if_pos h, if_pos h]
    exact congrArg (addWord · _) (hf i)
  · rw [if_neg h, if_neg h]
    exact hf j

/-- **What a round does** to the counters, the call counts and the peak, and when it injects. -/
structure Round (t : Shared) (extra : Option ℚ) : Prop where
  maxRatio : t.maxBufferWorkRatio =
    (roundRatio cfg i x s).elim s.maxBufferWorkRatio (max s.maxBufferWorkRatio)
  inject : extra = (roundRatio cfg i x s).bind fun r =>
    extraBuffers (max s.maxBufferWorkRatio r) r
  unbalanced : ¬ Balanced cfg s → SameCounters s t
  balanced : Balanced cfg s → ∃ w, x.work = some w ∧
    SameCounters (totalScope i x (peakScope i x s w)) t

theorem handOff_round {t : Shared} {extra : Option ℚ} (h : handOff cfg i x s = some (t, extra)) :
    Round cfg i x s t extra := by
  rcases handOff_cases cfg i x s h with ⟨hb, rfl, rfl⟩ | ⟨w, hb, hw, rfl, rfl⟩
  · have hr : roundRatio cfg i x s = none := if_neg hb
    refine ⟨by rw [hr]; rfl, by rw [hr]; rfl, fun _ => ?_, fun hb' => absurd hb' hb⟩
    exact (SameCounters.countScope cfg i x s).trans (.dataScope cfg i x _)
  · have hr : roundRatio cfg i x s = shownRatio i x (countScope cfg i x s) w := by
      rw [roundRatio, if_pos hb, hw, shownRatio_countScope]
      rfl
    refine ⟨?_, ?_, fun hb' => absurd hb hb', fun _ => ⟨w, hw, ?_⟩⟩
    · rw [hr]
      exact balance_max ..
    · rw [hr]
      exact balance_inject ..
    · exact ((counters_countScope cfg i x s w).trans (balance_counters i x _ w)).trans
        (.dataScope cfg i x _)

namespace Round
variable {cfg i x s} {t : Shared} {extra : Option ℚ} {j : ℕ} (h : Round cfg i x s t extra)
include h

theorem sizes : t.nPeak = s.nPeak ∧ t.nTotal = s.nTotal := by
  by_cases hb : Balanced cfg s
  · obtain ⟨w, -, hc⟩ := h.balanced hb
    exact ⟨hc.nPeak, hc.nTotal⟩
  · exact ⟨(h.unbalanced hb).nPeak, (h.unbalanced hb).nTotal⟩

/-- The other threads. -/
theorem peak_of_ne (hj : j ≠ i) : ∃ a b,
    t.peak j = { s.peak j with nInjectedTime := a, totalInjectedTime := b } := by
  by_cases hb : Balanced cfg s
  · obtain ⟨w, -, hc⟩ := h.balanced hb
    obtain ⟨a, b, hp⟩ := hc.peak j
    refine ⟨a, b, hp.trans ?_⟩
    have hpeak : (totalScope i x (peakScope i x s w)).peak j = s.peak j :=
      peakScope_of_ne i x s w hj
    rw [hpeak]
  · exact (h.unbalanced hb).peak j

theorem fcalls_of_ne (hj : j ≠ i) : (t.total j).totalFcalls = (s.total j).totalFcalls := by
  by_cases hb : Balanced cfg s
  · obtain ⟨w, -, hc⟩ := h.balanced hb
    rw [hc.fcalls, totalScope_fcalls, if_neg hj]
    rfl
  · exact (h.unbalanced hb).fcalls j

/-- The thread itself, if the round is balanced. -/
theorem self (hb : Balanced cfg s) : ∃ w a b, x.work = some w ∧
    (t.total i).totalFcalls = newFcalls i x s ∧
    t.peak i = { (peakScope i x s w).peak i with nInjectedTime := a, totalInjectedTime := b } := by
  obtain ⟨w, hw, hc⟩ := h.balanced hb
  obtain ⟨a, b, hp⟩ := hc.peak i
  refine ⟨w, a, b, hw, ?_, hp⟩
  rw [hc.fcalls, totalScope_fcalls, if_pos rfl]
  rfl

end Round

end Round

/-! ### The machine -/

/-- The tables, and the histories no step reads. -/
structure State where
  shared : Shared := {}
  hist : ℕ → List (List Processed) := fun _ => [[]]
  shown : List ℚ := []

/-- A thread is registered, processes a buffer, or a control period passes. -/
inductive Action where
  | spawn
  | handOff (i : ℕ) (x : Sample)
  | period

/-- The ratios a period leaves the peak at. -/
def shownAfter (cfg : Config) (s : State) : List ℚ :=
  if cfg.overheadBalancing then counted s.shared s.shared.nPeak else s.shown

/-- One atomic step.  A buffer enters the history whether or not its round is balanced. -/
def step (cfg : Config) (s : State) : Action → Option State
  | .spawn =>
      some
        { s with
          shared := s.shared.initThreadData
          hist := Function.update s.hist s.shared.nPeak [[]] }
  | .handOff i x =>
      if i < s.shared.nPeak then
        (handOff cfg i x s.shared).map fun p =>
          { shared := p.1
            hist := Function.update s.hist i
              (Window.push ⟨x.data.genTime, x.realWTime⟩ (s.hist i))
            shown := s.shown ++ (roundRatio cfg i x s.shared).toList }
      else none
  | .period =>
      if cfg.dynamicControl then
        some
          { shared := period cfg s.shared
            hist := fun j => Window.tick (s.hist j)
            shown := shownAfter cfg s }
      else none

/-- A buffer of `ins` instructions in `calls` calls, at equal rates in the kernel and outside. -/
def evenSample (ins calls : ℕ) : Sample where
  data := { insExec := ins, fcallsExec := calls }
  counts := ⟨1000, 1000, 60000, 60000, false⟩

/-- Its work is its instructions. -/
theorem work_evenSample (ins calls : ℕ) : (evenSample ins calls).work = some (ins : ℚ) := by
  norm_num [Sample.work, evenSample, Sample.kernelIns, workOffset]

section Machine
variable {cfg : Config} {s t : State}

theorem step_handOff {i : ℕ} {x : Sample} (h : step cfg s (.handOff i x) = some t) :
    i < s.shared.nPeak ∧ ∃ extra, handOff cfg i x s.shared = some (t.shared, extra) ∧
      t.hist = Function.update s.hist i (Window.push ⟨x.data.genTime, x.realWTime⟩ (s.hist i)) ∧
      t.shown = s.shown ++ (roundRatio cfg i x s.shared).toList := by
  unfold step at h
  dsimp only at h
  split_ifs at h with hi
  obtain ⟨p, hp, rfl⟩ := Option.map_eq_some_iff.mp h
  exact ⟨hi, p.2, hp, rfl, rfl⟩

theorem step_period (h : step cfg s .period = some t) :
    t = { shared := period cfg s.shared
          hist := fun j => Window.tick (s.hist j)
          shown := shownAfter cfg s } := by
  unfold step at h
  dsimp only at h
  split_ifs at h
  exact (Option.some.inj h).symm

/-- What does not look at the knob and the count of periods changes only if the period balances. -/
theorem period_field {α : Type*} (f : Shared → α)
    (hf : ∀ (t : Shared) k n, f { t with knob := k, controlPeriods := n } = f t) (s : Shared) :
    f (period cfg s) = if cfg.overheadBalancing then f (rebalance s) else f s := by
  rw [period, hf]
  exact apply_ite f _ _ _

theorem period_nPeak (s : Shared) : (period cfg s).nPeak = s.nPeak := by
  rw [period_field Shared.nPeak fun _ _ _ => rfl]
  exact ite_self _

theorem period_nTotal (s : Shared) : (period cfg s).nTotal = s.nTotal := by
  rw [period_field Shared.nTotal fun _ _ _ => rfl]
  exact ite_self _

/-- A period decays every registered thread, if it balances. -/
theorem period_peak (s : Shared) (j : ℕ) : (period cfg s).peak j =
    if cfg.overheadBalancing = true ∧ j < s.nPeak then (s.peak j).decay else s.peak j := by
  rw [period_field Shared.peak fun _ _ _ => rfl]
  by_cases ho : cfg.overheadBalancing = true
  · rw [if_pos ho]
    refine (periodLoop_peak s s.nPeak j).trans ?_
    simp only [ho, true_and]
  · rw [if_neg ho, if_neg fun h => ho h.1]

theorem period_fcalls (s : Shared) (j : ℕ) : (period cfg s).total j = s.total j := by
  rw [period_field (fun u => u.total j) fun _ _ _ => rfl]
  exact ite_self _

theorem period_max (s : Shared) : (period cfg s).maxBufferWorkRatio =
    if cfg.overheadBalancing then runningMax 0 (counted s s.nPeak) else s.maxBufferWorkRatio := by
  rw [period_field Shared.maxBufferWorkRatio fun _ _ _ => rfl, ← periodLoop_newMaxRatio]
  rfl

/-- **The rule for the counters.**  What holds of fresh entries, does not look at the injected
times, and is kept by a period and by the first scope of a balanced round, is kept by every step. -/
theorem step_peak {P : PeakEntry → Prop} {a : Action} (fresh : P {})
    (times : ∀ e b c, P e → P { e with nInjectedTime := b, totalInjectedTime := c })
    (decay : ∀ e, P e → P e.decay)
    (round : ∀ i x w, a = .handOff i x → Balanced cfg s.shared → x.work = some w →
      P (s.shared.peak i) → P ((peakScope i x s.shared w).peak i))
    (h : ∀ j, P (s.shared.peak j)) (hs : step cfg s a = some t) (j : ℕ) :
    P (t.shared.peak j) := by
  cases a with
  | spawn =>
      cases hs
      dsimp only
      rw [Shared.peak_initThreadData]
      split_ifs
      · exact fresh
      · exact h j
  | handOff i x =>
      obtain ⟨-, extra, he, -⟩ := step_handOff hs
      have hr := handOff_round cfg i x s.shared he
      by_cases hj : j = i
      · subst hj
        by_cases hb : Balanced cfg s.shared
        · obtain ⟨w, b, c, hw, -, hp⟩ := hr.self hb
          rw [hp]
          exact times _ b c (round j x w rfl hb hw (h j))
        · obtain ⟨b, c, hp⟩ := (hr.unbalanced hb).peak j
          rw [hp]
          exact times _ b c (h j)
      · obtain ⟨b, c, hp⟩ := hr.peak_of_ne hj
        rw [hp]
        exact times _ b c (h j)
  | period =>
      cases step_period hs
      dsimp only
      rw [period_peak]
      split_ifs
      · exact decay _ (h j)
      · exact h j

/-- **The peak remembers** the largest ratio shown since the last period. -/
theorem max_eq_shown (h : Reachable (step cfg) {} s) :
    s.shared.maxBufferWorkRatio = runningMax 0 s.shown := by
  refine h.invariant (I := fun s => s.shared.maxBufferWorkRatio = runningMax 0 s.shown) rfl ?_
  intro s a t hs ht
  cases a with
  | spawn =>
      cases ht
      exact hs
  | handOff i x =>
      obtain ⟨-, extra, he, -, hshown⟩ := step_handOff ht
      rw [(handOff_round cfg i x s.shared he).maxRatio, hshown, runningMax_append_toList, hs]
  | period =>
      cases step_period ht
      refine (period_max s.shared).trans ?_
      dsimp only [shownAfter]
      by_cases ho : cfg.overheadBalancing = true
      · rw [if_pos ho, if_pos ho]
      · rw [if_neg ho, if_neg ho, hs]

end Machine

end BulletTime.Balance
