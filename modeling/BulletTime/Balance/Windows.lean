import BulletTime.Balance.Delay

/-!
# Balance — Windows

The five windowed counters of a thread as one exponential window over its accounted hand-offs.

* `Logged`: the machine with, as history, what each accounted hand-off has added, by period, from
  the last period in which the thread's work had not changed.
* `balance_nInjectedTime`: a round adds its injected time to its own thread, in the same step.
* `Windowed`: each counter is the sum of what was added to it, weighted by a quarter to the number
  of periods since; kept by a hand-off, a period and a reset.
* `period_ratio`: a period leaves the ratio of a thread it does not reset.
* `counters_are_windows`: in every reachable state of a run of positive work.
-/

namespace BulletTime.Balance
open Transition Window

/-- What an accounted hand-off adds to the windowed counters, next to one buffer. -/
structure Added where
  work : ℚ
  ioTime : ℚ
  injectedTime : ℚ
  genTime : ℚ

/-- The machine, and what has been added to the counters of each thread. -/
structure Logged where
  state : State := {}
  log : ℕ → List (List Added) := fun _ => [[]]

section Added
variable (cfg : Config) (i : ℕ) (x : Sample) (s : Shared)

/-- The sleep that a balanced round of work `w` injects. -/
def injectedTime (w : ℚ) : ℚ :=
  if (balance i x (countScope cfg i x s) w).2.isSome then x.actualSleepUs else 0

/-- What the round adds, if it is accounted. -/
def added : Option Added :=
  if Balanced cfg s then
    x.work.map fun w => ⟨w, x.realWTime, injectedTime cfg i x s w, x.data.genTime⟩
  else none

theorem added_eq (hb : Balanced cfg s) {w : ℚ} (hw : x.work = some w) : added cfg i x s =
    some ⟨w, x.realWTime, injectedTime cfg i x s w, x.data.genTime⟩ := by
  rw [added, if_pos hb, hw]
  rfl

end Added

namespace Logged

/-- The log after a step. -/
def note (cfg : Config) (s : Logged) : Action → ℕ → List (List Added)
  | .spawn => Function.update s.log s.state.shared.nPeak [[]]
  | .handOff i x =>
      match added cfg i x s.state.shared with
      | some a => Function.update s.log i (push a (s.log i))
      | none => s.log
  | .period => fun j =>
      if cfg.overheadBalancing = true ∧ j < s.state.shared.nPeak then
        if (s.state.shared.peak j).idle then [[]] else tick (s.log j)
      else s.log j

def step (cfg : Config) (s : Logged) (a : Action) : Option Logged :=
  (Balance.step cfg s.state a).map fun t => { state := t, log := s.note cfg a }

end Logged

/-! ### The injected time of a round -/

section Injected
variable (cfg : Config) (i : ℕ) (x : Sample) (s : Shared)

theorem injectScope_nInjectedTime (j : ℕ) : ((injectScope i x s).peak j).nInjectedTime =
    (s.peak j).nInjectedTime + if j = i then (x.actualSleepUs : ℚ) else 0 := by
  by_cases h : j = i
  · subst h
    rw [if_pos rfl, injectScope, Shared.peak_modPeak_self]
  · rw [if_neg h, add_zero, injectScope, Shared.peak_modPeak_of_ne _ _ h]

/-- A delay injects, or leaves the entries alone. -/
theorem delay_cases (l : Locals) (r : ℚ) : ∃ t : Shared, t.peak = s.peak ∧
    (delay i x s l r = (t, none) ∨ ∃ extra, delay i x s l r =
      (dummyScope i (injectScope i x (writeDummy i x t extra)) extra, some extra)) := by
  refine ⟨if r > l.maxRatioSnapshot then raiseScope i s r else s, by split_ifs <;> rfl, ?_⟩
  unfold delay
  dsimp only
  split
  · exact .inr ⟨_, rfl⟩
  · exact .inl rfl

/-- A delay adds its sleep to its own thread. -/
theorem delay_nInjectedTime (l : Locals) (r : ℚ) (j : ℕ) :
    ((delay i x s l r).1.peak j).nInjectedTime = (s.peak j).nInjectedTime +
      if j = i ∧ (delay i x s l r).2.isSome then (x.actualSleepUs : ℚ) else 0 := by
  obtain ⟨t, ht, h | ⟨extra, h⟩⟩ := delay_cases i x s l r
  · rw [h, if_neg fun h => Bool.false_ne_true h.2, add_zero, ht]
  · have hscope := injectScope_nInjectedTime i x (writeDummy i x t extra) j
    have hpeak : (writeDummy i x t extra).peak = s.peak := ht
    rw [hpeak] at hscope
    rw [h]
    simp only [Option.isSome_some, and_true]
    exact hscope

/-- **A round's injected time** is added to its own thread, in the round. -/
theorem balance_nInjectedTime (w : ℚ) (j : ℕ) :
    ((balance i x s w).1.peak j).nInjectedTime = (s.peak j).nInjectedTime +
      if j = i ∧ (balance i x s w).2.isSome then (x.actualSleepUs : ℚ) else 0 := by
  have hpeak : ((totalScope i x (peakScope i x s w)).peak j).nInjectedTime =
      (s.peak j).nInjectedTime := by
    change ((peakScope i x s w).peak j).nInjectedTime = _
    by_cases h : j = i
    · subst h
      rw [peakScope_self]
    · rw [peakScope_of_ne _ _ _ _ h]
  rw [balance_eq]
  cases shownRatio i x s w with
  | none =>
      dsimp only
      rw [hpeak, if_neg fun h => Bool.false_ne_true h.2, add_zero]
  | some r =>
      dsimp only
      rw [delay_nInjectedTime, hpeak]

end Injected

/-! ### The counters of a thread -/

/-- **Each counter is a window**: the sum of what the items of `ps` add, each weighted by a quarter
to the number of periods since. -/
structure Windowed (e : PeakEntry) (ps : List (List Added)) : Prop where
  nBuffers : e.nBuffers = discounted scaleFactor (fun _ => 1) ps
  nWork : e.nWork = discounted scaleFactor Added.work ps
  nIoTime : e.nIoTime = discounted scaleFactor Added.ioTime ps
  nInjectedTime : e.nInjectedTime = discounted scaleFactor Added.injectedTime ps
  nGenTime : e.nGenTime = discounted scaleFactor Added.genTime ps

section Windowed
variable {e e' : PeakEntry} {ps : List (List Added)} {a : Added}

/-- A thread that has just started, or been reset. -/
theorem windowed_zero (hB : e.nBuffers = 0) (hW : e.nWork = 0) (hio : e.nIoTime = 0)
    (hinj : e.nInjectedTime = 0) (hgen : e.nGenTime = 0) : Windowed e [[]] where
  nBuffers := hB.trans (discounted_empty _ _).symm
  nWork := hW.trans (discounted_empty _ _).symm
  nIoTime := hio.trans (discounted_empty _ _).symm
  nInjectedTime := hinj.trans (discounted_empty _ _).symm
  nGenTime := hgen.trans (discounted_empty _ _).symm

/-- **A hand-off** is one more item of the current period. -/
theorem Windowed.push (h : Windowed e ps) (hB : e'.nBuffers = e.nBuffers + 1)
    (hW : e'.nWork = e.nWork + a.work) (hio : e'.nIoTime = e.nIoTime + a.ioTime)
    (hinj : e'.nInjectedTime = e.nInjectedTime + a.injectedTime)
    (hgen : e'.nGenTime = e.nGenTime + a.genTime) : Windowed e' (push a ps) where
  nBuffers := by rw [hB, h.nBuffers, discounted_push]
  nWork := by rw [hW, h.nWork, discounted_push]
  nIoTime := by rw [hio, h.nIoTime, discounted_push]
  nInjectedTime := by rw [hinj, h.nInjectedTime, discounted_push]
  nGenTime := by rw [hgen, h.nGenTime, discounted_push]

/-- **A period** moves every item one period away, or resets the thread. -/
theorem Windowed.decay (h : Windowed e ps) :
    Windowed e.decay (if e.idle then [[]] else tick ps) := by
  by_cases hi : e.idle = true
  · rw [if_pos hi, PeakEntry.decay, PeakEntry.scaled, if_pos hi]
    exact windowed_zero rfl rfl rfl rfl rfl
  · rw [if_neg hi, PeakEntry.decay, PeakEntry.scaled, if_neg hi]
    exact ⟨by rw [h.nBuffers, discounted_tick], by rw [h.nWork, discounted_tick],
      by rw [h.nIoTime, discounted_tick], by rw [h.nInjectedTime, discounted_tick],
      by rw [h.nGenTime, discounted_tick]⟩

theorem scaleFactor_pos : 0 < scaleFactor := by norm_num [scaleFactor]

/-- A period leaves the ratio of a thread it does not reset. -/
theorem decay_ratio (hi : ¬ e.idle = true) :
    e.decay.nBuffers / e.decay.nWork = e.nBuffers / e.nWork := by
  rw [PeakEntry.decay, PeakEntry.scaled, if_neg hi]
  exact mul_div_mul_right _ _ scaleFactor_pos.ne'

/-- **The ratio is between those of the items**: the smallest and the largest `1 / w`. -/
theorem Windowed.ratio_between (h : Windowed e ps) (hne : ps.flatten ≠ [])
    (hpos : ∀ a ∈ ps.flatten, 0 < a.work) :
    (∃ a ∈ ps.flatten, 1 / a.work ≤ e.nBuffers / e.nWork) ∧
      ∃ a ∈ ps.flatten, e.nBuffers / e.nWork ≤ 1 / a.work := by
  rw [h.nBuffers, h.nWork]
  exact ⟨exists_div_le scaleFactor_pos hne hpos, exists_le_div scaleFactor_pos hne hpos⟩

end Windowed

/-! ### Whole runs -/

namespace Logged
variable {cfg : Config} {s t : Logged} {a : Action}

/-- The accounted hand-offs are of positive work. -/
def PositiveWork (cfg : Config) (s : Logged) (a : Action) : Prop :=
  ∀ i x w, a = .handOff i x → Balanced cfg s.state.shared → x.work = some w → 0 < w

/-- Every thread's counters, and the work of what is in its window. -/
structure Windows (s : Logged) : Prop where
  windowed : ∀ i, Windowed (s.state.shared.peak i) (s.log i)
  positive : ∀ i, ∀ a ∈ (s.log i).flatten, 0 < a.work

theorem windows_start : Windows {} where
  windowed _ := windowed_zero rfl rfl rfl rfl rfl
  positive _ := nofun

theorem mem_flatten_push {α : Type*} {a b : α} {ps : List (List α)}
    (h : b ∈ (Window.push a ps).flatten) : b = a ∨ b ∈ ps.flatten := by
  cases ps with
  | nil => exact .inl (List.mem_singleton.mp h)
  | cons p ps =>
      rw [Window.push, List.flatten_cons, List.append_assoc, List.mem_append, List.mem_append,
        List.mem_singleton] at h
      rw [List.flatten_cons, List.mem_append]
      rcases h with h | h | h
      · exact .inr (.inl h)
      · exact .inl h
      · exact .inr (.inr h)

/-- **A round** adds to its own thread what is logged for it, and nothing to the others. -/
theorem handOff_windowed {i : ℕ} {x : Sample} {s u : Shared} {extra : Option ℚ} {w : ℚ}
    (he : handOff cfg i x s = some (u, extra)) (hb : Balanced cfg s) (hw : x.work = some w)
    {log : ℕ → List (List Added)} (h : ∀ j, Windowed (s.peak j) (log j)) (j : ℕ) :
    Windowed (u.peak j) (Function.update log i
      (Window.push ⟨w, x.realWTime, injectedTime cfg i x s w, x.data.genTime⟩ (log i)) j) := by
  have hr := handOff_round cfg i x s he
  have hinj : (u.peak j).nInjectedTime = (s.peak j).nInjectedTime +
      if j = i ∧ (balance i x (countScope cfg i x s) w).2.isSome then (x.actualSleepUs : ℚ)
      else 0 := by
    rcases handOff_cases cfg i x s he with ⟨hb', -, -⟩ | ⟨w', -, hw', rfl, -⟩
    · exact absurd hb hb'
    · cases hw.symm.trans hw'
      exact balance_nInjectedTime i x (countScope cfg i x s) w j
  by_cases hj : j = i
  · subst hj
    obtain ⟨w', a, b, hw', -, hp⟩ := hr.self hb
    cases hw.symm.trans hw'
    simp only [true_and] at hinj
    rw [Function.update_self]
    rw [peakScope_self] at hp
    exact (h j).push (by rw [hp]) (by rw [hp]) (by rw [hp]) hinj (by rw [hp])
  · obtain ⟨a, b, hp⟩ := hr.peak_of_ne hj
    rw [if_neg fun h => hj h.1, add_zero] at hinj
    rw [Function.update_of_ne hj]
    obtain ⟨hB, hW, hio, hinj', hgen⟩ := h j
    rw [hp] at hinj ⊢
    exact ⟨hB, hW, hio, hinj.trans hinj', hgen⟩

section Step
variable {u : State} {i : ℕ} {x : Sample}

/-- The log of one thread is replaced. -/
theorem positive_update {log : ℕ → List (List Added)} {ps : List (List Added)}
    (hp : ∀ a ∈ ps.flatten, 0 < a.work) (h : ∀ j, ∀ a ∈ (log j).flatten, 0 < a.work) :
    ∀ j, ∀ a ∈ (Function.update log i ps j).flatten, 0 < a.work :=
  (Function.forall_update_iff log fun _ (ps : List (List Added)) =>
    ∀ a ∈ ps.flatten, 0 < a.work).mpr ⟨hp, fun j _ => h j⟩

/-- A thread is started. -/
theorem Windows.spawn (hi : Windows s) (hu : u.shared = s.state.shared.initThreadData) :
    Windows { state := u, log := s.note cfg .spawn } := by
  refine ⟨fun j => ?_, positive_update nofun hi.positive⟩
  dsimp only [note]
  rw [hu, Shared.peak_initThreadData]
  by_cases hj : j = s.state.shared.nPeak
  · subst hj
    rw [if_pos rfl, Function.update_self]
    exact windowed_zero rfl rfl rfl rfl rfl
  · rw [if_neg hj, Function.update_of_ne hj]
    exact hi.windowed j

/-- A buffer is processed: its round is accounted, or touches none of the counters. -/
theorem Windows.handOff {extra : Option ℚ} (hi : Windows s)
    (hw : PositiveWork cfg s (.handOff i x))
    (he : handOff cfg i x s.state.shared = some (u.shared, extra)) :
    Windows { state := u, log := s.note cfg (.handOff i x) } := by
  rcases handOff_cases cfg i x _ he with ⟨hb, hu, -⟩ | ⟨w, hb, hwork, -, -⟩
  · have hnote : s.note cfg (.handOff i x) = s.log := by
      rw [note, added, if_neg hb]
    rw [hnote]
    refine ⟨fun j => ?_, hi.positive⟩
    rw [hu]
    exact hi.windowed j
  · have hnote : s.note cfg (.handOff i x) = Function.update s.log i (Window.push
        ⟨w, x.realWTime, injectedTime cfg i x s.state.shared w, x.data.genTime⟩ (s.log i)) := by
      rw [note, added_eq cfg i x s.state.shared hb hwork]
    rw [hnote]
    refine ⟨handOff_windowed he hb hwork hi.windowed, positive_update (fun a ha => ?_) hi.positive⟩
    rcases mem_flatten_push ha with rfl | ha
    · exact hw i x w rfl hb hwork
    · exact hi.positive i a ha

/-- A period goes by. -/
theorem Windows.period (hi : Windows s) (hu : u.shared = Balance.period cfg s.state.shared) :
    Windows { state := u, log := s.note cfg .period } := by
  refine ⟨fun j => ?_, fun j => ?_⟩
  · dsimp only [note]
    rw [hu, period_peak]
    by_cases hc : cfg.overheadBalancing = true ∧ j < s.state.shared.nPeak
    · rw [if_pos hc, if_pos hc]
      exact (hi.windowed j).decay
    · rw [if_neg hc, if_neg hc]
      exact hi.windowed j
  · dsimp only [note]
    split_ifs
    · nofun
    · rw [tick, List.flatten_cons]
      exact hi.positive j
    · exact hi.positive j

end Step

/-- **One step** keeps the windows. -/
theorem Windows.step (hi : Windows s) (hw : PositiveWork cfg s a) (h : s.step cfg a = some t) :
    Windows t := by
  obtain ⟨u, hu, rfl⟩ := Option.map_eq_some_iff.mp h
  cases a with
  | spawn =>
      cases hu
      exact hi.spawn rfl
  | handOff i x =>
      obtain ⟨-, extra, he, -⟩ := step_handOff hu
      exact hi.handOff hw he
  | period =>
      cases step_period hu
      exact hi.period rfl

/-- A period leaves the ratio of each thread it does not reset. -/
theorem period_ratio {s t : State} (h : Balance.step cfg s .period = some t) {i : ℕ}
    (hi : ¬ (s.shared.peak i).idle = true) : ratioOf t.shared i = ratioOf s.shared i := by
  cases step_period h
  rw [ratioOf, ratioOf, period_peak]
  split_ifs
  · exact decay_ratio hi
  · rfl

/-- The windowed counters of all threads are one exponential window each. -/
structure OneWindow (cfg : Config) (s : Logged) : Prop where
  /-- The five counters are the discounted sums of what was added since the last reset. -/
  windowed : ∀ i, Windowed (s.state.shared.peak i) (s.log i)
  /-- A period leaves the ratio of every thread it does not reset. -/
  period : ∀ t i, Balance.step cfg s.state .period = some t →
    ¬ (s.state.shared.peak i).idle = true → ratioOf t.shared i = ratioOf s.state.shared i
  /-- The ratio is between the smallest and the largest `1 / w` of the window. -/
  smallest : ∀ i, (s.log i).flatten ≠ [] →
    ∃ a ∈ (s.log i).flatten, 1 / a.work ≤ ratioOf s.state.shared i
  largest : ∀ i, (s.log i).flatten ≠ [] →
    ∃ a ∈ (s.log i).flatten, ratioOf s.state.shared i ≤ 1 / a.work

/-- **The windowed counters are one exponential window**, in every state of a run whose accounted
hand-offs are of positive work. -/
theorem counters_are_windows (cfg : Config) {as : List Action}
    (hw : EveryStep (Logged.step cfg) {} as (PositiveWork cfg)) :
    EveryState (Logged.step cfg) {} as (OneWindow cfg) := by
  refine hw.everyState windows_start (fun _ _ _ hi ha hs => hi.step ha hs) fun s hi => ?_
  exact ⟨hi.windowed, fun t i ht => period_ratio ht,
    fun i hne => ((hi.windowed i).ratio_between hne (hi.positive i)).1,
    fun i hne => ((hi.windowed i).ratio_between hne (hi.positive i)).2⟩

/-- Two threads; the first processes a buffer before a period and one after it. -/
def twoBuffers : List Action :=
  [.spawn, .spawn, .handOff 0 (evenSample 5 1), .period, .handOff 0 (evenSample 8 1)]

theorem positiveWork_twoBuffers :
    EveryStep (Logged.step {}) {} twoBuffers (PositiveWork {}) := by
  refine everyStep_of_forall fun a ha s i x w e _ hw => ?_
  subst e
  obtain ⟨-, rfl⟩ | ⟨-, rfl⟩ :
      i = 0 ∧ x = evenSample 5 1 ∨ i = 0 ∧ x = evenSample 8 1 := by
    simpa [twoBuffers] using ha
  all_goals
    rw [work_evenSample] at hw
    rw [← Option.some.inj hw]
    exact Nat.cast_pos.mpr (by decide)

theorem counters_are_windows_twoBuffers :
    EveryState (Logged.step {}) {} twoBuffers (OneWindow {}) :=
  counters_are_windows {} positiveWork_twoBuffers

end Logged

end BulletTime.Balance
