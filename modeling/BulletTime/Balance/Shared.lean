import Mathlib.Data.Rat.Floor
import Mathlib.Logic.Function.Basic
import BulletTime.Lib.RunningMax
import BulletTime.Common

/-!
# Balance — Shared

The consumer's global tables and what each lock scope of `InitThreadData`, `Listen` and
`ControlThread` does to them.  A table is a size and a function; `double` is an exact rational, and
a ratio over zero work, which the code has as nan or inf, is `none`.

* `peakScope`, `totalScope`, `raiseScope`, `injectScope`, `dummyScope`, `countScope`, `dataScope`:
  the lock scopes of one round of `Listen`, in the order it enters them.
* `handOff`: a whole round, each scope after the other.
* `period`: one period of `ControlThread`, whose loop `periodLoop` runs under `peak_lock`.
* `periodLoop_peak` and `periodLoop_acc`: the loop reads each entry before it changes it.
* `periodLoop_newMaxRatio` and `periodLoop_maxSlowdown`: the largest ratio and slowdown it counts.
-/

namespace BulletTime.Balance
open RunningMax

/-- The ablation flags. -/
structure Config where
  appDilation : Bool := true
  kernelDilation : Bool := true
  useCompression : Bool := false

/-- `overhead_balancing`, which `main` sets for `app_dilation` alone. -/
def Config.overheadBalancing (cfg : Config) : Bool := cfg.appDilation

/-- `dynamic_control`: a control thread is started. -/
def Config.dynamicControl (cfg : Config) : Bool := cfg.appDilation || cfg.kernelDilation

theorem Config.dynamicControl_of_balancing {cfg : Config} (h : cfg.overheadBalancing = true) :
    cfg.dynamicControl = true := by
  rw [Config.dynamicControl, Bool.or_eq_true]
  exact Or.inl h

/-! ### The tables -/

/-- A thread's entries under `peak_lock`. -/
structure PeakEntry where
  nBuffers : ℚ := 0
  nWork : ℚ := 0
  totalWork : ℚ := 0
  lastWork : ℚ := 0
  lastBuffers : ℚ := 0
  nIoTime : ℚ := 0
  nInjectedTime : ℚ := 0
  totalIoTime : ℚ := 0
  totalInjectedTime : ℚ := 0
  nGenTime : ℚ := 0
  deriving DecidableEq

/-- A thread's entries under `total_lock`. -/
structure TotalEntry where
  totalFcalls : ℕ := 0
  totalInstructions : ℕ := 0
  totalMemIns : ℕ := 0
  kIns : ℕ := 0
  kCycles : ℕ := 0
  uIns : ℕ := 0
  uCycles : ℕ := 0
  totalBuffersProcessed : ℕ := 0
  totalDummyBuffers : ℚ := 0
  realWrites : ℕ := 0
  realWriteLatency : ℕ := 0
  dummyWrites : ℕ := 0
  dummyWriteLatency : ℕ := 0
  totalRecvWait : ℕ := 0
  totalPinWait : ℕ := 0
  deriving DecidableEq

/-- A thread's entries under its lock of `data_locks`. -/
structure InsertEntry where
  inBufTime : ℕ := 0
  inBuffers : ℕ := 0
  outBufTime : ℕ := 0
  outBuffers : ℕ := 0
  applicationIns : ℕ := 0
  userspaceIns : ℕ := 0
  deriving DecidableEq

/-- The globals of the consumer and the locals of `ControlThread` that outlive a period. -/
structure Shared where
  nInsert : ℕ := 0
  nPeak : ℕ := 0
  nTotal : ℕ := 0
  insert : ℕ → InsertEntry := fun _ => {}
  peak : ℕ → PeakEntry := fun _ => {}
  total : ℕ → TotalEntry := fun _ => {}
  maxBufferWorkRatio : ℚ := 0
  maxRatioOwner : ℤ := -1
  peakWorkWholeExecution : ℚ := 0
  maxTimeWorkRatio : ℚ := 0
  maxTimeRatioOwner : ℤ := -1
  dilationFactor : ℕ := 1000
  maxSlowdown : ℚ := 1
  instrumentationCost : ℚ := 1
  /-- What was last written to `DILATION_KNOB`. -/
  knob : Option ℕ := none
  controlPeriods : ℕ := 0

namespace Shared

def modInsert (s : Shared) (i : ℕ) (f : InsertEntry → InsertEntry) : Shared :=
  { s with insert := Function.update s.insert i (f (s.insert i)) }

def modPeak (s : Shared) (i : ℕ) (f : PeakEntry → PeakEntry) : Shared :=
  { s with peak := Function.update s.peak i (f (s.peak i)) }

def modTotal (s : Shared) (i : ℕ) (f : TotalEntry → TotalEntry) : Shared :=
  { s with total := Function.update s.total i (f (s.total i)) }

section Mod
variable (s : Shared) {i j : ℕ} (f : PeakEntry → PeakEntry) (g : TotalEntry → TotalEntry)

theorem peak_modPeak_self : (s.modPeak i f).peak i = f (s.peak i) := Function.update_self ..

theorem peak_modPeak_of_ne (h : j ≠ i) : (s.modPeak i f).peak j = s.peak j :=
  Function.update_of_ne h ..

theorem total_modTotal_self : (s.modTotal i g).total i = g (s.total i) := Function.update_self ..

theorem total_modTotal_of_ne (h : j ≠ i) : (s.modTotal i g).total j = s.total j :=
  Function.update_of_ne h ..

end Mod

/-- The three scopes of `InitThreadData`. -/
def initInsert (s : Shared) : Shared :=
  { s with nInsert := s.nInsert + 1, insert := Function.update s.insert s.nInsert {} }

def initPeak (s : Shared) : Shared :=
  { s with nPeak := s.nPeak + 1, peak := Function.update s.peak s.nPeak {} }

def initTotal (s : Shared) : Shared :=
  { s with nTotal := s.nTotal + 1, total := Function.update s.total s.nTotal {} }

def initThreadData (s : Shared) : Shared := s.initInsert.initPeak.initTotal

/-- The new thread starts from zero. -/
theorem peak_initThreadData (s : Shared) (j : ℕ) :
    s.initThreadData.peak j = if j = s.nPeak then {} else s.peak j :=
  Function.update_apply ..

theorem total_initThreadData (s : Shared) (j : ℕ) :
    s.initThreadData.total j = if j = s.nTotal then {} else s.total j :=
  Function.update_apply ..

end Shared

/-! ### The work of a buffer -/

/-- What `Listen` has of one buffer: its metadata, the counts since the last one, and the times it
measures. -/
structure Sample where
  data : Metadata
  counts : CPUCounts
  recvWait : ℕ := 0
  realWTime : ℕ := 0
  elapsedTime : ℕ := 0
  actualSleepUs : ℕ := 0
  deriving DecidableEq

namespace Sample

/-- `kernel_ins` less what the hand-off itself costs. -/
def kernelIns (x : Sample) : ℤ := max (x.counts.kernelInstructions - workOffset) 0

/-- `work`: instructions of the application, weighted by `kernel_ipc / user_ipc`, and of the
kernel; `none` where a quotient is not a number. -/
def work (x : Sample) : Option ℚ :=
  if x.counts.kernelCycles = 0 ∨ x.counts.userCycles = 0 ∨ x.counts.userInstructions = 0 then none
  else
    -- The rate is that of all kernel instructions, the offset included.
    let kernelIpc : ℚ := x.counts.kernelInstructions / x.counts.kernelCycles
    let userIpc : ℚ := x.counts.userInstructions / x.counts.userCycles
    some (x.kernelIns + x.data.insExec * (kernelIpc / userIpc))

/-- `data_size` after the processing, which sets it to the block size in raw mode. -/
def dataSize (cfg : Config) (x : Sample) : ℕ :=
  if cfg.useCompression then x.data.dataSize else consumerBufferSize

end Sample

/-! ### The scopes of `Listen` -/

/-- `buf_work_ratio`. -/
def PeakEntry.ratio (e : PeakEntry) : Option ℚ :=
  if e.nWork = 0 then none else some (e.nBuffers / e.nWork)

/-- `t_work` is no longer looked at. -/
def skipOverheadBalancing (_tWork : ℚ) (bufWorkRatio : Option ℚ) (fcalls : ℕ) : Bool :=
  bufWorkRatio.isNone || fcalls == 0

/-- The locals of the balancing. -/
structure Locals where
  bufWorkRatio : Option ℚ
  maxRatioSnapshot : ℚ
  ratioOwnerSnapshot : ℤ
  tWork : ℚ
  currFcalls : ℕ := 0
  deriving DecidableEq

/-- Decided on the locals. -/
def Locals.skip (l : Locals) : Bool := skipOverheadBalancing l.tWork l.bufWorkRatio l.currFcalls

/-- `extra_buffers`, where it is more than a quarter of a buffer. -/
def extraBuffers (maxRatioSnapshot bufWorkRatio : ℚ) : Option ℚ :=
  if maxRatioSnapshot > bufWorkRatio then
    let extra := maxRatioSnapshot / bufWorkRatio - 1
    if extra > 1 / 4 then some extra else none
  else none

section Scopes
variable (cfg : Config) (i : ℕ) (x : Sample) (s : Shared)

/-- After the processing, under `total_lock`. -/
def countScope : Shared :=
  s.modTotal i fun e =>
    { e with
      realWriteLatency := addWord e.realWriteLatency x.realWTime
      realWrites := addWord e.realWrites (x.dataSize cfg)
      totalBuffersProcessed := addOne e.totalBuffersProcessed }

/-- The first scope of the balancing, under `peak_lock`: its updates. -/
def peakScope (work : ℚ) : Shared :=
  s.modPeak i fun e =>
    { e with
      nWork := e.nWork + work
      nBuffers := e.nBuffers + 1
      totalWork := e.totalWork + work
      nIoTime := e.nIoTime + x.realWTime
      totalIoTime := e.totalIoTime + x.realWTime
      nGenTime := e.nGenTime + x.data.genTime }

/-- What the first scope reads after its updates. -/
def snapshot : Locals where
  bufWorkRatio := (s.peak i).ratio
  maxRatioSnapshot := s.maxBufferWorkRatio
  ratioOwnerSnapshot := s.maxRatioOwner
  tWork := (s.peak i).totalWork

/-- The second scope, under `total_lock`. -/
def totalScope : Shared :=
  s.modTotal i fun e =>
    { e with
      totalFcalls := addWord e.totalFcalls x.data.fcallsExec
      totalInstructions := addWord e.totalInstructions x.data.insExec
      totalMemIns := addWord e.totalMemIns x.data.memInsExec
      kIns := addWord e.kIns x.kernelIns
      kCycles := addWord e.kCycles x.counts.kernelCycles
      uIns := addWord e.uIns x.counts.userInstructions
      uCycles := addWord e.uCycles x.counts.userCycles
      totalRecvWait := addWord e.totalRecvWait x.recvWait
      totalPinWait := addWord e.totalPinWait x.data.pinWait }

/-- The exclusive scope entered by a ratio above the snapshot. -/
def raiseScope (bufWorkRatio : ℚ) : Shared :=
  { s with
    maxBufferWorkRatio :=
      if bufWorkRatio > s.maxBufferWorkRatio then bufWorkRatio else s.maxBufferWorkRatio
    maxRatioOwner := if bufWorkRatio > s.maxBufferWorkRatio then i else s.maxRatioOwner
    peakWorkWholeExecution :=
      if (s.peak i).totalWork > s.peakWorkWholeExecution then (s.peak i).totalWork
      else s.peakWorkWholeExecution }

/-- `WriteDummy` and its statistics. -/
def writeDummy (extra : ℚ) : Shared :=
  s.modTotal i fun e =>
    { e with
      dummyWrites := addWord e.dummyWrites (extra * consumerBufferSize).floor
      dummyWriteLatency := addWord e.dummyWriteLatency x.actualSleepUs }

/-- After the sleep, under `peak_lock`. -/
def injectScope : Shared :=
  s.modPeak i fun e =>
    { e with
      nInjectedTime := e.nInjectedTime + x.actualSleepUs
      totalInjectedTime := e.totalInjectedTime + x.actualSleepUs }

/-- After the sleep, under `total_lock`. -/
def dummyScope (extra : ℚ) : Shared :=
  s.modTotal i fun e => { e with totalDummyBuffers := e.totalDummyBuffers + extra }

/-- The end of the round, under the thread's data lock. -/
def dataScope : Shared :=
  s.modInsert i fun e =>
    { inBufTime := addWord e.inBufTime x.data.genTime
      inBuffers := addWord e.inBuffers (x.dataSize cfg)
      outBufTime := addWord e.outBufTime x.elapsedTime
      outBuffers := addWord e.outBuffers (x.dataSize cfg)
      applicationIns := addWord e.applicationIns x.data.insExec
      userspaceIns := addWord e.userspaceIns x.counts.userInstructions }

/-- The balancing of a round whose thread is not skipped and has ratio `r`; with the extra buffers
it injects, if any. -/
def delay (l : Locals) (r : ℚ) : Shared × Option ℚ :=
  let t := if r > l.maxRatioSnapshot then raiseScope i s r else s
  -- Only a thread above its snapshot reads the peak again.
  let snap := if r > l.maxRatioSnapshot then t.maxBufferWorkRatio else l.maxRatioSnapshot
  match extraBuffers snap r with
  | some extra => (dummyScope i (injectScope i x (writeDummy i x t extra)) extra, some extra)
  | none => (t, none)

/-- The balancing, its scopes one after the other. -/
def balance (work : ℚ) : Shared × Option ℚ :=
  let s₁ := peakScope i x s work
  let s₂ := totalScope i x s₁
  let l := { snapshot i s₁ with currFcalls := (s₂.total i).totalFcalls }
  match l.bufWorkRatio with
  | some r => if l.skip then (s₂, none) else delay i x s₂ l r
  | none => (s₂, none)

/-- A round of `Listen` after its processing; `none` where its work is not a number. -/
def handOff : Option (Shared × Option ℚ) :=
  let s₁ := countScope cfg i x s
  if cfg.overheadBalancing = true ∧ s₁.nPeak > 1 then
    x.work.map fun work => ((dataScope cfg i x (balance i x s₁ work).1), (balance i x s₁ work).2)
  else some (dataScope cfg i x s₁, none)

end Scopes

/-! ### `ControlThread` -/

/-- `SCALE_FACTOR`. -/
def scaleFactor : ℚ := 1 / 4

/-- What the loop of a period accumulates. -/
structure PeriodAcc where
  newMaxRatio : ℚ := 0
  newMaxTimeRatio : ℚ := 0
  maxSlowdown : ℚ := 1
  maxRatioOwner : ℤ
  maxTimeRatioOwner : ℤ

namespace PeakEntry

/-- The thread did no work during the period. -/
def idle (e : PeakEntry) : Bool := e.nWork == e.lastWork

/-- `slowdown`, over a positive generation time. -/
def slowdown (e : PeakEntry) : ℚ := (e.nGenTime + e.nIoTime) / e.nGenTime

/-- `time_work_ratio`. -/
def timeRatio (e : PeakEntry) : ℚ := (e.nIoTime + e.nInjectedTime) / e.nWork

/-- The windowed counters, reset if the thread is idle and scaled otherwise. -/
def scaled (e : PeakEntry) : PeakEntry :=
  if e.idle then
    { e with nBuffers := 0, nWork := 0, nIoTime := 0, nInjectedTime := 0, nGenTime := 0 }
  else
    { e with
      nBuffers := e.nBuffers * scaleFactor
      nWork := e.nWork * scaleFactor
      nIoTime := e.nIoTime * scaleFactor
      nInjectedTime := e.nInjectedTime * scaleFactor
      nGenTime := e.nGenTime * scaleFactor }

/-- The entries after the period. -/
def decay (e : PeakEntry) : PeakEntry :=
  { e.scaled with lastWork := e.scaled.nWork, lastBuffers := e.scaled.nBuffers }

end PeakEntry

/-- The loop of a period at an active thread `i` with ratio `r`. -/
def PeriodAcc.visitRatio (acc : PeriodAcc) (i : ℕ) (e : PeakEntry) (r : ℚ) : PeriodAcc :=
  let acc :=
    if r > acc.newMaxRatio then { acc with newMaxRatio := r, maxRatioOwner := i } else acc
  if e.timeRatio > acc.newMaxTimeRatio then
    { acc with newMaxTimeRatio := e.timeRatio, maxTimeRatioOwner := i }
  else acc

/-- The loop of a period at thread `i`. -/
def PeriodAcc.visit (acc : PeriodAcc) (i : ℕ) (e : PeakEntry) (fcalls : ℕ) : PeriodAcc :=
  if e.idle then acc
  else
    let acc :=
      match e.ratio with
      | some r =>
          if skipOverheadBalancing e.totalWork (some r) fcalls then acc else acc.visitRatio i e r
      | none => acc
    -- The slowdown is taken of skipped threads too.
    if e.nGenTime > 0 ∧ e.slowdown > acc.maxSlowdown then { acc with maxSlowdown := e.slowdown }
    else acc

section Period
variable (cfg : Config) (s : Shared)

/-- The loop over the first `n` threads. -/
def periodLoop (n : ℕ) : (ℕ → PeakEntry) × PeriodAcc :=
  (List.range n).foldl
    (fun p i =>
      (Function.update p.1 i (p.1 i).decay, p.2.visit i (p.1 i) (s.total i).totalFcalls))
    (s.peak, { maxRatioOwner := s.maxRatioOwner, maxTimeRatioOwner := s.maxTimeRatioOwner })

/-- The sum of a column of the data table, on a 64-bit word. -/
def sumInsert (f : InsertEntry → ℕ) : ℕ :=
  (List.range s.nInsert).foldl (fun a i => addWord a (f (s.insert i))) 0

/-- `instrumentation_cost`. -/
def instrumentation : ℚ :=
  if sumInsert s (·.applicationIns) > 0 then
    (sumInsert s (·.userspaceIns) : ℚ) / sumInsert s (·.applicationIns)
  else 1

/-- The conversion of a rational to `unsigned int`. -/
def toUnsigned (q : ℚ) : ℕ := q.floor.toNat % 2 ^ 32

/-- The balancing part of a period. -/
def rebalance : Shared :=
  let p := periodLoop s s.nPeak
  { s with
    peak := p.1
    maxRatioOwner := p.2.maxRatioOwner
    maxTimeRatioOwner := p.2.maxTimeRatioOwner
    maxBufferWorkRatio := p.2.newMaxRatio
    maxTimeWorkRatio := p.2.newMaxTimeRatio
    maxSlowdown := p.2.maxSlowdown
    instrumentationCost := instrumentation s
    dilationFactor := max (toUnsigned (instrumentation s * p.2.maxSlowdown * 1000)) 1000 }

/-- One period: the factor is written whether or not it has been computed. -/
def period : Shared :=
  let t := if cfg.overheadBalancing then rebalance s else s
  { t with
    knob := if cfg.kernelDilation then some t.dilationFactor else t.knob
    controlPeriods := t.controlPeriods + 1 }

end Period

/-! ### The loop of a period -/

/-- The ratio the loop counts at a thread with `fcalls` calls. -/
def PeakEntry.countedRatio (e : PeakEntry) (fcalls : ℕ) : Option ℚ :=
  if e.idle = true ∨ fcalls = 0 then none else e.ratio

/-- The slowdown the loop counts. -/
def PeakEntry.countedSlowdown (e : PeakEntry) : Option ℚ :=
  if e.idle = true ∨ ¬ 0 < e.nGenTime then none else some e.slowdown

/-- The ratios counted over the first `n` threads. -/
def counted (s : Shared) (n : ℕ) : List ℚ :=
  (List.range n).filterMap fun i => (s.peak i).countedRatio (s.total i).totalFcalls

theorem filterMap_range_succ {α : Type*} (f : ℕ → Option α) (n : ℕ) :
    (List.range (n + 1)).filterMap f = (List.range n).filterMap f ++ (f n).toList := by
  rw [List.range_succ, List.filterMap_append]
  cases hf : f n <;> simp [hf]

/-- A value raised where it is exceeded. -/
theorem raised (a b : ℚ) : (if b > a then b else a) = max a b := by
  split_ifs with h
  · exact (max_eq_right h.le).symm
  · exact (max_eq_left (not_lt.mp h)).symm

section Visit
variable (acc : PeriodAcc) (i : ℕ) (e : PeakEntry) (fcalls : ℕ)

theorem visitRatio_newMaxRatio (r : ℚ) :
    (acc.visitRatio i e r).newMaxRatio = max acc.newMaxRatio r := by
  rw [← raised]
  unfold PeriodAcc.visitRatio
  dsimp only
  split_ifs <;> rfl

theorem visitRatio_maxSlowdown (r : ℚ) : (acc.visitRatio i e r).maxSlowdown = acc.maxSlowdown := by
  unfold PeriodAcc.visitRatio
  dsimp only
  split_ifs <;> rfl

theorem visit_newMaxRatio : (acc.visit i e fcalls).newMaxRatio =
    (e.countedRatio fcalls).elim acc.newMaxRatio (max acc.newMaxRatio) := by
  have hslow : ∀ a : PeriodAcc,
      (if e.nGenTime > 0 ∧ e.slowdown > a.maxSlowdown then { a with maxSlowdown := e.slowdown }
        else a).newMaxRatio = a.newMaxRatio := by
    intro a
    split_ifs <;> rfl
  unfold PeriodAcc.visit PeakEntry.countedRatio
  by_cases hi : e.idle = true
  · rw [if_pos hi, if_pos (Or.inl hi)]
    rfl
  · rw [if_neg hi, hslow]
    cases hr : e.ratio with
    | none => split_ifs <;> rfl
    | some r =>
        by_cases hf : fcalls = 0
        · rw [if_pos (Or.inr hf), hf]
          rfl
        · have hskip : skipOverheadBalancing e.totalWork (some r) fcalls ≠ true := by
            simpa [skipOverheadBalancing] using hf
          rw [if_neg (not_or.mpr ⟨hi, hf⟩)]
          dsimp only
          rw [if_neg hskip, visitRatio_newMaxRatio]
          rfl

theorem visit_maxSlowdown : (acc.visit i e fcalls).maxSlowdown =
    e.countedSlowdown.elim acc.maxSlowdown (max acc.maxSlowdown) := by
  have hratio : (match e.ratio with
      | some r =>
          if skipOverheadBalancing e.totalWork (some r) fcalls then acc else acc.visitRatio i e r
      | none => acc).maxSlowdown = acc.maxSlowdown := by
    split
    · split_ifs
      · rfl
      · exact visitRatio_maxSlowdown ..
    · rfl
  unfold PeriodAcc.visit PeakEntry.countedSlowdown
  by_cases hi : e.idle = true
  · rw [if_pos hi, if_pos (Or.inl hi)]
    rfl
  · rw [if_neg hi]
    by_cases hg : 0 < e.nGenTime
    · rw [if_neg (not_or.mpr ⟨hi, not_not.mpr hg⟩), Option.elim_some, ← raised, ← hratio]
      dsimp only
      split_ifs with h h' h'
      · rfl
      · exact absurd h.2 h'
      · exact absurd ⟨hg, h'⟩ h
      · rfl
    · rw [if_pos (Or.inr hg), if_neg (fun h => hg h.1)]
      exact hratio

end Visit

section Loop
variable (s : Shared) (n : ℕ)

theorem periodLoop_succ : periodLoop s (n + 1) =
    (Function.update (periodLoop s n).1 n ((periodLoop s n).1 n).decay,
      (periodLoop s n).2.visit n ((periodLoop s n).1 n) (s.total n).totalFcalls) := by
  rw [periodLoop, List.range_succ, List.foldl_append]
  rfl

/-- Each thread visited is decayed once. -/
theorem periodLoop_peak (i : ℕ) :
    (periodLoop s n).1 i = if i < n then (s.peak i).decay else s.peak i := by
  induction n with
  | zero => rfl
  | succ n ih =>
      rw [periodLoop_succ]
      dsimp only
      by_cases h : i = n
      · subst h
        rw [Function.update_self, ih, if_neg (Nat.lt_irrefl _), if_pos (Nat.lt_succ_self _)]
      · rw [Function.update_of_ne h, ih]
        have hlt : i < n ↔ i < n + 1 := by omega
        simp only [hlt]

/-- What is accumulated is read from the entries as the period found them. -/
theorem periodLoop_acc : (periodLoop s (n + 1)).2 =
    (periodLoop s n).2.visit n (s.peak n) (s.total n).totalFcalls := by
  rw [periodLoop_succ, periodLoop_peak, if_neg (Nat.lt_irrefl _)]

/-- **The new peak** is the largest ratio counted. -/
theorem periodLoop_newMaxRatio : (periodLoop s n).2.newMaxRatio = runningMax 0 (counted s n) := by
  induction n with
  | zero => rfl
  | succ n ih =>
      rw [periodLoop_acc, visit_newMaxRatio, ih, counted, counted, filterMap_range_succ,
        runningMax_append_toList]

/-- **The slowdown** is the largest counted, at least one. -/
theorem periodLoop_maxSlowdown : (periodLoop s n).2.maxSlowdown =
    runningMax 1 ((List.range n).filterMap fun i => (s.peak i).countedSlowdown) := by
  induction n with
  | zero => rfl
  | succ n ih =>
      rw [periodLoop_acc, visit_maxSlowdown, ih, filterMap_range_succ, runningMax_append_toList]

end Loop

end BulletTime.Balance
