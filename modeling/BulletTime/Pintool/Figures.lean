import Mathlib.Data.Fintype.Basic
import BulletTime.Pintool.InsCounts

/-!
# Pintool — Figures

The figures `Dump` prints for the instructions executed, once every thread has exited.

* `amount_insExecuted`, `amount_memInsExecuted`, `amount_numElementsProcessed`: what the steps add
  to three of the counters, by the instructions executed.
* `words_overall`: the counters at the end.
* `figures_partition_iff`: the two figures are the numbers of instructions without and with a memory
  access exactly when the number of memory instructions, and that of their records, is 0.

`[about the source]`: the figure for non-memory instructions is the counter of all instructions, and
the one for memory instructions the number of records.
-/

namespace BulletTime.Pintool
open Transition Accounts
open AppThreadStatistics (Call)

variable {ι : Type*}

/-! ### The amounts, by the instructions executed -/

/-- The instructions a step makes its thread execute. -/
def RunAct.block : RunAct ι → List Ins
  | .enterBbl _ r => r.block
  | .nextIns _ | .bufferFull _ | .threadFini _ => []

/-- The instructions executed in a run, block by block. -/
def executed (as : List (RunAct ι)) : List Ins := as.flatMap RunAct.block

theorem WholeRun.map_ins (r : WholeRun) : r.instrs.map (·.ins) = r.block :=
  r.instrs_prefix.eq_of_length (by rw [List.length_map, r.length_eq])

/-- An instruction appends a record for its reads and one for its write. -/
theorem length_filterMap_fill (k : Knobs) (e : Executed) :
    ((insCalls k e.ins).filterMap e.fill).length =
      (if e.ins.isMemoryRead then 1 else 0) + if e.ins.isMemoryWrite then 1 else 0 := by
  rw [e.filterMap_fill, List.length_append, List.length_map, List.length_map, List.length_take,
    e.length_reads, Ins.isMemoryWrite, ← e.isSome_write]
  congr 1
  · simp only [Ins.isMemoryRead, decide_eq_true_eq]
    split <;> omega
  · cases e.write <;> rfl

theorem WholeRun.length_records (k : Knobs) (r : WholeRun) : (r.records k).length =
    r.block.countP Ins.isMemoryRead + r.block.countP Ins.isMemoryWrite := by
  rw [r.records_eq, ← r.map_ins]
  induction r.instrs with
  | nil => rfl
  | cons e es ih =>
    rw [List.flatMap_cons, List.length_append, ih, length_filterMap_fill, List.map_cons,
      List.countP_cons, List.countP_cons]
    ring

/-- Beside the pauses, the calls before an instruction add only records. -/
theorem amount_statCall {c : Scalar} (hc : c ≠ .pauseInstructions) {e : Executed} {call : InsCall}
    {sc : Call} (h : e.statCall call = some sc) : sc.amount c = 0 := by
  cases call with
  | recordFrequency pc =>
    obtain ⟨insAddr, -, rfl⟩ := Option.map_eq_some_iff.mp h
    cases c <;> rfl
  | threadPause =>
    cases h
    cases c
    case pauseInstructions => exact absurd rfl hc
    all_goals rfl
  | fillBuffer => cases h

theorem pairAmount_eq {c : Scalar} (hc : c ≠ .pauseInstructions) (p : Executed × List InsCall) :
    pairAmount c p = recordAmount c (p.2.filterMap p.1.fill).length := by
  have hstats : ((p.2.filterMap p.1.statCall).map fun call => call.amount c).sum = 0 := by
    refine List.sum_eq_zero ?_
    intro n hn
    obtain ⟨sc, hsc, rfl⟩ := List.mem_map.mp hn
    obtain ⟨call, -, hcall⟩ := List.mem_filterMap.mp hsc
    exact amount_statCall hc hcall
  rw [pairAmount, hstats, Nat.zero_add]

theorem sum_recordAmount (c : Scalar) (ns : List ℕ) :
    (ns.map (recordAmount c)).sum = recordAmount c ns.sum := by
  induction ns with
  | nil => exact (ite_self 0).symm
  | cons n ns ih => rw [List.map_cons, List.sum_cons, ih, List.sum_cons, recordAmount_add]

/-- A block adds its pair of counts, and its records. -/
theorem bblAmount_eq {c : Scalar} (hc : c ≠ .pauseInstructions) (k : Knobs) (r : WholeRun) :
    bblAmount k c r =
      (Call.incrementInsExecuted (.ofNat r.block.length)
        (.ofNat (r.block.countP Ins.isMemory))).amount c +
      recordAmount c (r.block.countP Ins.isMemoryRead + r.block.countP Ins.isMemoryWrite) := by
  have hpairs : ((r.instrs.zip (r.inserted k).calls).map (pairAmount c)).sum =
      recordAmount c (r.records k).length := by
    rw [BblRun.records, List.length_flatMap, ← sum_recordAmount, List.map_map]
    refine congrArg List.sum (List.map_congr_left ?_)
    intro p _
    exact pairAmount_eq hc p
  rw [bblAmount, hpairs, r.length_records, r.inserted_eq]
  rfl

/-- The counter of executed instructions. -/
theorem amount_insExecuted (k : Knobs) (a : RunAct ι) :
    a.amount k .insExecuted = a.block.length := by
  cases a with
  | enterBbl t r =>
    refine (bblAmount_eq (by decide) k r).trans ?_
    exact UInt64.toNat_ofNat_of_lt' (r.trace.length_bbl_lt r.mem_bbls)
  | nextIns | bufferFull | threadFini => rfl

/-- The counter of executed memory instructions, which is not printed. -/
theorem amount_memInsExecuted (k : Knobs) (a : RunAct ι) :
    a.amount k .memInsExecuted = a.block.countP Ins.isMemory := by
  cases a with
  | enterBbl t r =>
    refine (bblAmount_eq (by decide) k r).trans ?_
    exact UInt64.toNat_ofNat_of_lt' (List.countP_le_length.trans_lt
      (r.trace.length_bbl_lt r.mem_bbls))
  | nextIns | bufferFull | threadFini => rfl

/-- The counter of records. -/
theorem amount_numElementsProcessed (k : Knobs) (a : RunAct ι) :
    a.amount k .numElementsProcessed =
      a.block.countP Ins.isMemoryRead + a.block.countP Ins.isMemoryWrite := by
  cases a with
  | enterBbl t r =>
    refine (bblAmount_eq (by decide) k r).trans ?_
    exact Nat.zero_add _
  | nextIns | bufferFull | threadFini => rfl

/-! ### The counters at the end -/

theorem eq_ofNat {w : UInt64} {n : ℕ} (h : w.toNat = n % 2 ^ 64) : w = .ofNat n := by
  rw [← UInt64.toNat_inj, h]
  rfl

theorem ofNat_eq_zero_iff (n : ℕ) : UInt64.ofNat n = 0 ↔ 0x10000000000000000 ∣ n := by
  rw [← UInt64.toNat_inj]
  exact Nat.dvd_iff_mod_eq_zero.symm

theorem length_executed (as : List (RunAct ι)) :
    (executed as).length = (as.map fun a => a.block.length).sum :=
  List.length_flatMap

theorem countP_executed (q : Ins → Bool) (as : List (RunAct ι)) :
    (executed as).countP q = (as.map fun a => a.block.countP q).sum :=
  List.countP_flatMap

section

variable [DecidableEq ι] [Fintype ι] {k : Knobs} {s : RunState ι} {n : UInt64} {f p : UInt32}
  {now : UInt64} {as : List (RunAct ι)}

/-- **The counters once every thread has exited.** -/
theorem words_overall (h : exec (RunState.step k) (.start n f p now) as = some s)
    (hexit : ∀ t, (s.threads t).exited = true) :
    s.overall.insExecuted = .ofNat (executed as).length ∧
    s.overall.memInsExecuted = .ofNat ((executed as).countP Ins.isMemory) ∧
    s.overall.numElementsProcessed = .ofNat
      ((executed as).countP Ins.isMemoryRead + (executed as).countP Ins.isMemoryWrite) := by
  have hins := get_overall .insExecuted h hexit
  have hmem := get_overall .memInsExecuted h hexit
  have helems := get_overall .numElementsProcessed h hexit
  simp only [amount_insExecuted, amount_memInsExecuted, amount_numElementsProcessed,
    List.sum_map_add, ← countP_executed, ← length_executed] at hins hmem helems
  exact ⟨eq_ofNat hins, eq_ofNat hmem, eq_ofNat helems⟩

end

/-! ### The figures printed -/

/-- The figure `Dump` prints behind a label. -/
def OverallStatistics.figure (o : OverallStatistics) (label : String) : Option Figure :=
  o.dump.lookup label

/-- The figures for non-memory and for memory instructions are the numbers of the instructions
`instrs` without and with a memory access, so that their sum is the number of all. -/
def FiguresPartition (o : OverallStatistics) (instrs : List Ins) : Prop :=
  ∃ nonMem mem : UInt64,
    o.figure "Non-Memory Instructions Executed" = some (.lu nonMem) ∧
    o.figure "Memory Instructions Executed" = some (.lu mem) ∧
    nonMem = .ofNat (instrs.countP fun ins => !ins.isMemory) ∧
    mem = .ofNat (instrs.countP Ins.isMemory) ∧ nonMem + mem = .ofNat instrs.length

theorem figure_nonMemory (o : OverallStatistics) :
    o.figure "Non-Memory Instructions Executed" = some (.lu o.insExecuted) := rfl

theorem figure_memory (o : OverallStatistics) :
    o.figure "Memory Instructions Executed" = some (.lu o.numElementsProcessed) := rfl

/-- The instructions without a memory access are the others. -/
theorem countP_not_add (instrs : List Ins) :
    (instrs.countP fun ins => !ins.isMemory) + instrs.countP Ins.isMemory = instrs.length := by
  rw [List.length_eq_countP_add_countP Ins.isMemory, add_comm]
  simp only [Bool.not_eq_true, Bool.decide_eq_false]

/-- The figures are the two numbers exactly when the counters behind them are. -/
theorem figuresPartition_iff (o : OverallStatistics) (instrs : List Ins) :
    FiguresPartition o instrs ↔
      o.insExecuted = .ofNat (instrs.countP fun ins => !ins.isMemory) ∧
      o.numElementsProcessed = .ofNat (instrs.countP Ins.isMemory) := by
  constructor
  · rintro ⟨nonMem, mem, hnonMem, hmem, rfl, rfl, -⟩
    rw [figure_nonMemory, Option.some.injEq, Figure.lu.injEq] at hnonMem
    rw [figure_memory, Option.some.injEq, Figure.lu.injEq] at hmem
    exact ⟨hnonMem, hmem⟩
  · rintro ⟨hins, helems⟩
    refine ⟨_, _, figure_nonMemory o, figure_memory o, hins, helems, ?_⟩
    rw [hins, helems, ← UInt64.ofNat_add, countP_not_add]

/-- The end of the measured time changes no figure but the times. -/
theorem counters_endTime (o : OverallStatistics) (now : UInt64) :
    (o.endTime now).insExecuted = o.insExecuted ∧
      (o.endTime now).numElementsProcessed = o.numElementsProcessed := by
  rw [OverallStatistics.endTime]
  split <;> exact ⟨rfl, rfl⟩

/-- **The figures partition the execution** exactly when the number of memory instructions executed
and the number of their records vanish, modulo 2^64. -/
theorem figures_partition_iff [DecidableEq ι] [Fintype ι] {k : Knobs} {s : RunState ι}
    {n : UInt64} {f p : UInt32} {now : UInt64} (later : UInt64) {as : List (RunAct ι)}
    (h : exec (RunState.step k) (.start n f p now) as = some s)
    (hexit : ∀ t, (s.threads t).exited = true) :
    FiguresPartition (s.overall.endTime later) (executed as) ↔
      0x10000000000000000 ∣ (executed as).countP Ins.isMemory ∧
      0x10000000000000000 ∣
        (executed as).countP Ins.isMemoryRead + (executed as).countP Ins.isMemoryWrite := by
  obtain ⟨hins, -, helems⟩ := words_overall h hexit
  obtain ⟨hins', helems'⟩ := counters_endTime s.overall later
  rw [figuresPartition_iff, hins', helems', hins, helems, ← countP_not_add (executed as),
    UInt64.ofNat_add, ← ofNat_eq_zero_iff, ← ofNat_eq_zero_iff]
  -- the first figure counts the memory instructions too, the second their records
  have hfirst : ∀ a b : UInt64, a + b = a ↔ b = 0 := by
    intro a b
    constructor
    · intro hab
      exact (UInt64.add_right_inj a).mp (hab.trans (UInt64.add_zero a).symm)
    · rintro rfl
      exact UInt64.add_zero a
  rw [hfirst]
  refine and_congr_right fun hmem => ?_
  rw [hmem]

/-- An instruction alone in a trace, executed. -/
def alone (e : Executed) : WholeRun where
  trace := { bbls := [[e.ins]], length_lt := by simp }
  maps := {}
  bbl := 0
  block := [e.ins]
  instrs := [e]
  instrs_prefix := List.prefix_refl _
  length_eq := rfl

/-- One thread that executes it and exits. -/
def oneIns (e : Executed) : List (RunAct (Fin 1)) :=
  [.enterBbl 0 (alone e), .nextIns 0, .threadFini 0]

theorem exited_zero {s : RunState (Fin 1)} (h : (s.threads 0).exited = true) :
    ∀ t, (s.threads t).exited = true := by
  intro t
  rw [Subsingleton.elim t 0, h]

/-- `nop`. -/
def nop : Executed := .ofOperands 0x401003 "nop" [] none

/-- `inc qword ptr [rbx]`. -/
def incMem : Executed :=
  .ofOperands 0x401000 "inc qword ptr [rbx]" [⟨0x2000, 8⟩] (some ⟨0x2000, 8⟩)

/-- An increment and a `nop` in one block, an increment in the next. -/
def twoBlocks : Trace := { bbls := [[incMem.ins, nop.ins], [incMem.ins]] }

def firstBlock : WholeRun where
  trace := twoBlocks
  maps := {}
  bbl := 0
  block := [incMem.ins, nop.ins]
  instrs := [incMem, nop]
  instrs_prefix := List.prefix_refl _
  length_eq := rfl

def secondBlock : WholeRun where
  trace := twoBlocks
  maps := {}
  bbl := 1
  block := [incMem.ins]
  instrs := [incMem]
  instrs_prefix := List.prefix_refl _
  length_eq := rfl

/-- Two threads in these blocks; the first one's buffer is handed over on its way. -/
def twoThreads : List (RunAct Bool) :=
  [.enterBbl false firstBlock, .nextIns false, .enterBbl true secondBlock, .nextIns false,
    .nextIns true, .bufferFull false, .enterBbl false secondBlock, .threadFini true,
    .nextIns false, .threadFini false]

theorem figures_partition_iff_twoThreads :
    ∃ s, exec (RunState.step {}) (.start 0 0 0 1) twoThreads = some s ∧
      (∀ t, (s.threads t).exited = true) ∧
      (FiguresPartition (s.overall.endTime 2) (executed twoThreads) ↔
        0x10000000000000000 ∣ (executed twoThreads).countP Ins.isMemory ∧
        0x10000000000000000 ∣ (executed twoThreads).countP Ins.isMemoryRead +
          (executed twoThreads).countP Ins.isMemoryWrite) := by
  have hrun : ∃ s, exec (RunState.step {}) (.start 0 0 0 1) twoThreads = some s ∧
      (s.threads false).exited = true ∧ (s.threads true).exited = true := ⟨_, rfl, rfl, rfl⟩
  obtain ⟨s, hs, hfalse, htrue⟩ := hrun
  have hexit : ∀ t, (s.threads t).exited = true := Bool.forall_bool.mpr ⟨hfalse, htrue⟩
  exact ⟨s, hs, hexit, figures_partition_iff 2 hs hexit⟩

/-- One instruction, which reads and writes memory: the figures are 1 and 2, for 0 and 1. -/
theorem figures_of_incMem :
    ∃ s, exec (RunState.step {}) (.start 0 0 0 1) (oneIns incMem) = some s ∧
      (∀ t, (s.threads t).exited = true) ∧
      (s.overall.endTime 2).figure "Non-Memory Instructions Executed" = some (.lu 1) ∧
      (s.overall.endTime 2).figure "Memory Instructions Executed" = some (.lu 2) ∧
      ¬ FiguresPartition (s.overall.endTime 2) (executed (oneIns incMem)) := by
  refine ⟨_, rfl, exited_zero rfl, rfl, rfl, ?_⟩
  rw [figuresPartition_iff]
  decide

end BulletTime.Pintool
