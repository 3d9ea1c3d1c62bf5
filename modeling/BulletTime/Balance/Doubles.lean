import BulletTime.Lib.Double
import BulletTime.Lib.Transition
import BulletTime.Balance.Shared

/-!
# Balance — Doubles

The rounds of `Listen` with the work of a buffer as the `double` it is, so that a round goes on
where a count is zero.  Each lock scope is a step, and any number of threads interleave them with
the periods of `ControlThread`.  Of the tables only those are here that the work flows into, and
the totals of the metadata; a scope that writes none of them is no step.

* `Sample.workDouble`: the work, and `Sample.divisors`, what it is divided by on the way.
* `advance`: where a thread is in its round, and the scope it enters next.
* `State`: the tables and where everyone is.  `done`, `missed` and `extras` are history: the buffers
  each thread has processed, those whose round was not balanced, and the values passed to
  `WriteDummy`.
-/

namespace BulletTime.Balance

/-! ### The work of a buffer -/

namespace Sample

def kernelIpc (x : Sample) : Double :=
  .fin x.counts.kernelInstructions / .fin x.counts.kernelCycles

def userIpc (x : Sample) : Double := .fin x.counts.userInstructions / .fin x.counts.userCycles

/-- `work`. -/
def workDouble (x : Sample) : Double :=
  .fin x.kernelIns + .fin x.data.insExec * (x.kernelIpc / x.userIpc)

/-- What the computation of `work` divides by. -/
def divisors (x : Sample) : List Double :=
  [.fin x.counts.kernelCycles, .fin x.counts.userCycles, x.userIpc]

/-- The counts of `get_deltas` are not negative. -/
structure Nonneg (x : Sample) : Prop where
  userInstructions : 0 ≤ x.counts.userInstructions
  userCycles : 0 ≤ x.counts.userCycles
  kernelInstructions : 0 ≤ x.counts.kernelInstructions
  kernelCycles : 0 ≤ x.counts.kernelCycles

end Sample

namespace Doubles

/-! ### The tables -/

/-- A thread's entries under `peak_lock`, those the work flows into. -/
structure PeakEntry where
  nBuffers : Double := .fin 0
  nWork : Double := .fin 0
  totalWork : Double := .fin 0
  lastWork : Double := .fin 0
  deriving DecidableEq

/-- A thread's entries under `total_lock`, those of the metadata. -/
structure TotalEntry where
  totalFcalls : ℕ := 0
  totalInstructions : ℕ := 0
  totalMemIns : ℕ := 0
  totalBuffersProcessed : ℕ := 0
  deriving DecidableEq

structure Tables where
  nPeak : ℕ := 0
  nTotal : ℕ := 0
  peak : ℕ → PeakEntry := fun _ => {}
  total : ℕ → TotalEntry := fun _ => {}
  maxBufferWorkRatio : Double := .fin 0

namespace Tables

def initPeak (t : Tables) : Tables :=
  { t with nPeak := t.nPeak + 1, peak := Function.update t.peak t.nPeak {} }

def initTotal (t : Tables) : Tables :=
  { t with nTotal := t.nTotal + 1, total := Function.update t.total t.nTotal {} }

def modPeak (t : Tables) (i : ℕ) (f : PeakEntry → PeakEntry) : Tables :=
  { t with peak := Function.update t.peak i (f (t.peak i)) }

def modTotal (t : Tables) (i : ℕ) (f : TotalEntry → TotalEntry) : Tables :=
  { t with total := Function.update t.total i (f (t.total i)) }

theorem peak_modPeak_self (t : Tables) (i : ℕ) (f : PeakEntry → PeakEntry) :
    (t.modPeak i f).peak i = f (t.peak i) := Function.update_self ..

theorem peak_modPeak_of_ne (t : Tables) {i j : ℕ} (f : PeakEntry → PeakEntry) (h : j ≠ i) :
    (t.modPeak i f).peak j = t.peak j := Function.update_of_ne h ..

theorem total_modTotal_self (t : Tables) (i : ℕ) (f : TotalEntry → TotalEntry) :
    (t.modTotal i f).total i = f (t.total i) := Function.update_self ..

theorem total_modTotal_of_ne (t : Tables) {i j : ℕ} (f : TotalEntry → TotalEntry) (h : j ≠ i) :
    (t.modTotal i f).total j = t.total j := Function.update_of_ne h ..

/-- After the processing, under `total_lock`. -/
def countScope (t : Tables) (i : ℕ) : Tables :=
  t.modTotal i fun e => { e with totalBuffersProcessed := addOne e.totalBuffersProcessed }

/-- The first scope of the balancing, under `peak_lock`. -/
def peakScope (t : Tables) (i : ℕ) (work : Double) : Tables :=
  t.modPeak i fun e =>
    { e with
      nWork := e.nWork + work
      nBuffers := e.nBuffers + .fin 1
      totalWork := e.totalWork + work }

/-- The second scope, under `total_lock`. -/
def totalScope (t : Tables) (i : ℕ) (x : Sample) : Tables :=
  t.modTotal i fun e =>
    { e with
      totalFcalls := addWord e.totalFcalls x.data.fcallsExec
      totalInstructions := addWord e.totalInstructions x.data.insExec
      totalMemIns := addWord e.totalMemIns x.data.memInsExec }

/-- The exclusive scope entered by a ratio above the snapshot. -/
def raiseScope (t : Tables) (bufWorkRatio : Double) : Tables :=
  { t with maxBufferWorkRatio :=
      if t.maxBufferWorkRatio.lt bufWorkRatio then bufWorkRatio else t.maxBufferWorkRatio }

end Tables

/-! ### `ControlThread` -/

/-- `t_work` is no longer looked at. -/
def skipOverheadBalancing (_tWork bufWorkRatio : Double) (fcalls : ℕ) : Bool :=
  bufWorkRatio.isNan || bufWorkRatio.isInf || fcalls == 0

namespace PeakEntry

def ratio (e : PeakEntry) : Double := e.nBuffers / e.nWork

/-- The windowed counters, reset if the thread did no work during the period. -/
def scaled (e : PeakEntry) : PeakEntry :=
  if e.nWork.eq e.lastWork then { e with nBuffers := .fin 0, nWork := .fin 0 }
  else { e with nBuffers := e.nBuffers * .fin scaleFactor, nWork := e.nWork * .fin scaleFactor }

def decay (e : PeakEntry) : PeakEntry := { e.scaled with lastWork := e.scaled.nWork }

/-- `new_max_ratio` after the thread. -/
def newMaxRatio (e : PeakEntry) (fcalls : ℕ) (acc : Double) : Double :=
  if e.nWork.eq e.lastWork then acc
  else if !skipOverheadBalancing e.totalWork e.ratio fcalls && acc.lt e.ratio then e.ratio
  else acc

end PeakEntry

/-- One period: each entry is read before it is changed. -/
def period (cfg : Config) (t : Tables) : Tables :=
  if cfg.overheadBalancing then
    { t with
      peak := fun i => if i < t.nPeak then (t.peak i).decay else t.peak i
      maxBufferWorkRatio := (List.range t.nPeak).foldl
        (fun acc i => (t.peak i).newMaxRatio (t.total i).totalFcalls acc) (.fin 0) }
  else t

/-! ### The rounds of `Listen` -/

/-- The locals of the balancing. -/
structure Locals where
  bufWorkRatio : Double
  maxRatioSnapshot : Double
  tWork : Double
  currFcalls : ℕ := 0
  deriving DecidableEq

def Locals.skip (l : Locals) : Bool := skipOverheadBalancing l.tWork l.bufWorkRatio l.currFcalls

/-- `extra_buffers`, where it is passed to `WriteDummy`. -/
def Locals.extraBuffers (l : Locals) : Option Double :=
  if l.bufWorkRatio.lt l.maxRatioSnapshot then
    let extra := l.maxRatioSnapshot / l.bufWorkRatio - .fin 1
    if (Double.fin (1 / 4)).lt extra then some extra else none
  else none

/-- What the first scope reads after its updates. -/
def Tables.snapshot (t : Tables) (i : ℕ) : Locals where
  bufWorkRatio := (t.peak i).ratio
  maxRatioSnapshot := t.maxBufferWorkRatio
  tWork := (t.peak i).totalWork

/-- Where a thread is in its round, with the locals it has read. -/
inductive PC where
  | idle
  | counted (x : Sample)
  | peaked (x : Sample) (l : Locals)
  | totaled (x : Sample) (l : Locals)
  | raised (x : Sample) (l : Locals)
  | balanced (x : Sample)

/-- The round is balanced. -/
def Balanced (cfg : Config) (t : Tables) : Prop := cfg.overheadBalancing = true ∧ t.nPeak > 1

instance (cfg : Config) (t : Tables) : Decidable (Balanced cfg t) :=
  inferInstanceAs (Decidable (_ ∧ _))

/-- The scope a thread enters next. -/
def advance (cfg : Config) (i : ℕ) (t : Tables) : PC → Option (Tables × PC)
  | .idle => none
  | .counted x =>
      if Balanced cfg t then
        let u := t.peakScope i x.workDouble
        some (u, .peaked x (u.snapshot i))
      else some (t, .balanced x)
  | .peaked x l =>
      let u := t.totalScope i x
      some (u, .totaled x { l with currFcalls := (u.total i).totalFcalls })
  | .totaled x l =>
      if l.skip then some (t, .balanced x)
      else if l.maxRatioSnapshot.lt l.bufWorkRatio then
        let u := t.raiseScope l.bufWorkRatio
        some (u, .raised x { l with maxRatioSnapshot := u.maxBufferWorkRatio })
      else some (t, .raised x l)
  | .raised x _ => some (t, .balanced x)
  | .balanced _ => some (t, .idle)

/-- The buffer of a round that is not balanced, at its test. -/
def PC.unbalanced (cfg : Config) (t : Tables) : PC → List Metadata
  | .counted x => if Balanced cfg t then [] else [x.data]
  | _ => []

section Unbalanced
variable (cfg : Config) (t : Tables) (x : Sample) (l : Locals)

@[simp] theorem unbalanced_peaked : (PC.peaked x l).unbalanced cfg t = [] := rfl
@[simp] theorem unbalanced_totaled : (PC.totaled x l).unbalanced cfg t = [] := rfl
@[simp] theorem unbalanced_raised : (PC.raised x l).unbalanced cfg t = [] := rfl
@[simp] theorem unbalanced_balanced : (PC.balanced x).unbalanced cfg t = [] := rfl

end Unbalanced

/-- What the next scope passes to `WriteDummy`. -/
def PC.extra : PC → List Double
  | .raised _ l => l.extraBuffers.toList
  | _ => []

/-- Where `main` is in `InitThreadData`. -/
inductive InitPC where
  | idle
  | pushed
  deriving DecidableEq

/-- The tables, where everyone is, and what has been done. -/
structure State where
  tables : Tables := {}
  pc : ℕ → PC := fun _ => .idle
  init : InitPC := .idle
  done : ℕ → List Metadata := fun _ => []
  missed : ℕ → List Metadata := fun _ => []
  extras : List Double := []

/-- The next scope of `InitThreadData`, of a round, or of the control thread. -/
inductive Action where
  | init
  | begin (i : ℕ) (x : Sample)
  | next (i : ℕ)
  | period

/-- One scope. -/
def step (cfg : Config) (s : State) : Action → Option State
  | .init =>
      match s.init with
      | .idle => some { s with tables := s.tables.initPeak, init := .pushed }
      | .pushed => some { s with tables := s.tables.initTotal, init := .idle }
  | .begin i x =>
      match s.pc i with
      | .idle =>
          if i < s.tables.nTotal then
            some
              { s with
                tables := s.tables.countScope i
                pc := Function.update s.pc i (.counted x)
                done := Function.update s.done i (s.done i ++ [x.data]) }
          else none
      | _ => none
  | .next i =>
      (advance cfg i s.tables (s.pc i)).map fun p =>
        { s with
          tables := p.1
          pc := Function.update s.pc i p.2
          missed := Function.update s.missed i
            (s.missed i ++ (s.pc i).unbalanced cfg s.tables)
          extras := s.extras ++ (s.pc i).extra }
  | .period => if cfg.dynamicControl then some { s with tables := period cfg s.tables } else none

section Step
variable {cfg : Config} {s t : State} {i : ℕ} {x : Sample}

theorem step_begin (h : step cfg s (.begin i x) = some t) :
    s.pc i = .idle ∧ i < s.tables.nTotal ∧
      t = { s with
        tables := s.tables.countScope i
        pc := Function.update s.pc i (.counted x)
        done := Function.update s.done i (s.done i ++ [x.data]) } := by
  cases hpc : s.pc i with
  | idle =>
      simp only [step, hpc] at h
      obtain ⟨hi, h⟩ := Option.ite_none_right_eq_some.mp h
      exact ⟨rfl, hi, (Option.some.inj h).symm⟩
  | _ =>
      simp only [step, hpc] at h
      cases h

theorem step_next (h : step cfg s (.next i) = some t) :
    ∃ u p, advance cfg i s.tables (s.pc i) = some (u, p) ∧
      t = { s with
        tables := u
        pc := Function.update s.pc i p
        missed := Function.update s.missed i (s.missed i ++ (s.pc i).unbalanced cfg s.tables)
        extras := s.extras ++ (s.pc i).extra } := by
  obtain ⟨⟨u, p⟩, hp, rfl⟩ := Option.map_eq_some_iff.mp h
  exact ⟨u, p, hp, rfl⟩

theorem step_period (h : step cfg s .period = some t) :
    t = { s with tables := period cfg s.tables } := by
  obtain ⟨-, h⟩ := Option.ite_none_right_eq_some.mp h
  exact (Option.some.inj h).symm

end Step

end Doubles

end BulletTime.Balance
