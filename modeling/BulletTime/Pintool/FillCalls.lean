import Mathlib.Data.List.Flatten
import BulletTime.Pintool.Trace
import BulletTime.Consumer.TraceFormat

/-!
# Pintool — FillCalls

The inserted calls, executed: the records a thread's execution appends to its buffer.

* `Executed`: an instruction with its operands, from which Pin evaluates the arguments of a call.
* `BblRun`: an execution of a block of an instrumented trace, or of its first instructions.
* `filterMap_fill_eq_iff`: what one instruction appends.
* `memory_operands_traced_iff`: every operand of a run has its record exactly when no executed
  instruction has a second read operand.

`[about the source]`: one fill call is inserted for the reads of an instruction, with the address
and the size of the first.
-/

namespace BulletTime.Pintool
open Consumer (MemRef)

/-! ### One instruction -/

/-- A memory operand of an executed instruction. -/
structure Operand where
  ea : UInt64
  sz : UInt32
  deriving DecidableEq

/-- An executed instruction, with its operands. -/
structure Executed where
  ins : Ins
  reads : List Operand
  write : Option Operand
  length_reads : reads.length = ins.memoryReads
  isSome_write : write.isSome = ins.memoryWrite

namespace Executed

/-- The instruction at `address` with these operands. -/
def ofOperands (address : UInt64) (disassembly : String) (reads : List Operand)
    (write : Option Operand) : Executed where
  ins := {
    address
    disassembly
    memoryReads := reads.length
    memoryWrite := write.isSome }
  reads := reads
  write := write
  length_reads := rfl
  isSome_write := rfl

/-- The value of an argument: that of the first operand of its kind. -/
def eval (e : Executed) : Iarg → Option UInt64
  | .instPtr => some e.ins.address
  | .memoryReadEa => e.reads.head?.map (·.ea)
  | .memoryReadSize => e.reads.head?.map (·.sz.toUInt64)
  | .memoryWriteEa => e.write.map (·.ea)
  | .memoryWriteSize => e.write.map (·.sz.toUInt64)
  | .uint32 n => some n.toUInt64

/-- The record a call appends to the buffer. -/
def fill (e : Executed) : InsCall → Option MemRef
  | .recordFrequency _ | .threadPause => none
  | .fillBuffer pc ea sz isRead => do
      return ⟨← e.eval pc, ← e.eval ea, (← e.eval sz).toUInt32, (← e.eval isRead).toUInt32⟩

/-- The record of one operand. -/
def recordOf (e : Executed) (isRead : UInt32) (o : Operand) : MemRef :=
  ⟨e.ins.address, o.ea, o.sz, isRead⟩

/-- A record for each read operand, then one for the write operand. -/
def operandRecords (e : Executed) : List MemRef :=
  e.reads.map (e.recordOf 1) ++ e.write.toList.map (e.recordOf 0)

theorem fill_read (e : Executed) :
    (if e.ins.isMemoryRead then (e.fill fillRead).toList else []) =
      (e.reads.take 1).map (e.recordOf 1) := by
  have hlen := e.length_reads
  cases hr : e.reads with
  | nil =>
    rw [hr] at hlen
    simp [Ins.isMemoryRead, ← hlen]
  | cons o os =>
    rw [hr] at hlen
    simp [Ins.isMemoryRead, ← hlen, fill, fillRead, eval, hr, recordOf]

theorem fill_write (e : Executed) :
    (if e.ins.isMemoryWrite then (e.fill fillWrite).toList else []) =
      e.write.toList.map (e.recordOf 0) := by
  have hsome := e.isSome_write
  cases hw : e.write with
  | none =>
    rw [hw] at hsome
    simp [Ins.isMemoryWrite, ← hsome]
  | some o =>
    rw [hw] at hsome
    simp [Ins.isMemoryWrite, ← hsome, fill, fillWrite, eval, hw, recordOf]

/-- What the inserted calls append: the first read operand, and the write operand. -/
theorem filterMap_fill (k : Knobs) (e : Executed) :
    (insCalls k e.ins).filterMap e.fill =
      (e.reads.take 1).map (e.recordOf 1) ++ e.write.toList.map (e.recordOf 0) := by
  simp only [insCalls, List.filterMap_append, filterMap_insertIf, fill_read, fill_write]
  simp [fill]

theorem filterMap_fill_sublist (k : Knobs) (e : Executed) :
    ((insCalls k e.ins).filterMap e.fill).Sublist e.operandRecords := by
  rw [filterMap_fill, operandRecords]
  exact ((List.take_sublist 1 e.reads).map _).append_right _

/-- An instruction's records are all of its operands' exactly when it has no second read. -/
theorem filterMap_fill_eq_iff (k : Knobs) (e : Executed) :
    (insCalls k e.ins).filterMap e.fill = e.operandRecords ↔ e.ins.memoryReads ≤ 1 := by
  rw [filterMap_fill, operandRecords, List.append_left_inj, ← e.length_reads]
  constructor
  · intro h
    have hlen := congrArg List.length h
    rw [List.length_map, List.length_map, List.length_take] at hlen
    omega
  · intro h
    rw [List.take_of_length_le h]

end Executed

/-! ### Runs of blocks -/

theorem zip_map_append {α β : Type*} (f : α → β) (l : List α) (rest : List β) :
    l.zip (l.map f ++ rest) = l.map fun a => (a, f a) := by
  induction l with
  | nil => rfl
  | cons a l ih => rw [List.map_cons, List.cons_append, List.zip_cons_cons, ih, List.map_cons]

section

variable {α β : Type*} {f g : α → List β} {l : List α}

/-- Lists with something left out here and there are the whole lists exactly when nothing is. -/
theorem flatMap_eq_iff (h : ∀ a ∈ l, (f a).Sublist (g a)) :
    l.flatMap f = l.flatMap g ↔ ∀ a ∈ l, f a = g a := by
  induction l with
  | nil => simp
  | cons a l ih =>
    rw [List.forall_mem_cons] at h ⊢
    rw [List.flatMap_cons, List.flatMap_cons, ← ih h.2]
    constructor
    · intro heq
      have hlen := congrArg List.length heq
      rw [List.length_append, List.length_append] at hlen
      have hhead := h.1.length_le
      have hrest := (List.Sublist.flatMap_right l h.2).length_le
      exact List.append_inj heq (by omega)
    · rintro ⟨hhead, hrest⟩
      rw [hhead, hrest]

end

/-- An execution of the block `bbl` of a trace that was instrumented when the maps were `maps`: the
first instructions of the block, or all of them. -/
structure BblRun where
  trace : Trace
  maps : Maps
  bbl : ℕ
  block : List Ins
  at_bbl : trace.bbls[bbl]? = some block := by rfl
  instrs : List Executed
  instrs_prefix : instrs.map (·.ins) <+: block

namespace BblRun

/-- The block as instrumented. -/
def inserted (k : Knobs) (r : BblRun) : Block :=
  ((instrument k r.maps r.trace).1[r.bbl]?).getD {}

/-- What the calls at each instruction append, in the order of execution. -/
def records (k : Knobs) (r : BblRun) : List MemRef :=
  (r.instrs.zip (r.inserted k).calls).flatMap fun p => p.2.filterMap p.1.fill

theorem mem_bbls (r : BblRun) : r.block ∈ r.trace.bbls := List.mem_of_getElem? r.at_bbl

theorem inserted_eq (k : Knobs) (r : BblRun) : r.inserted k = blockOf k r.block := by
  rw [inserted, instrument_blocks, List.getElem?_map, r.at_bbl]
  rfl

/-- The calls stand at the instructions they were inserted at. -/
theorem records_eq (k : Knobs) (r : BblRun) :
    r.records k = r.instrs.flatMap fun e => (insCalls k e.ins).filterMap e.fill := by
  obtain ⟨rest, hrest⟩ := r.instrs_prefix
  have hcalls : (r.inserted k).calls =
      (r.instrs.map fun e => insCalls k e.ins) ++ rest.map (insCalls k) := by
    rw [inserted_eq, blockOf, ← hrest, List.map_append, List.map_map, Function.comp_def]
  rw [records, hcalls, zip_map_append, List.flatMap_map]

theorem records_sublist (k : Knobs) (r : BblRun) :
    (r.records k).Sublist (r.instrs.flatMap Executed.operandRecords) := by
  rw [records_eq]
  exact List.Sublist.flatMap_right _ fun e _ => e.filterMap_fill_sublist k

end BblRun

/-- **Every memory operand is traced** exactly when no executed instruction has a second read
operand. -/
theorem memory_operands_traced_iff (k : Knobs) (rs : List BblRun) :
    rs.flatMap (fun r => r.records k) =
        rs.flatMap (fun r => r.instrs.flatMap Executed.operandRecords) ↔
      ∀ r ∈ rs, ∀ e ∈ r.instrs, e.ins.memoryReads ≤ 1 := by
  have hrun : ∀ r : BblRun, r.records k = r.instrs.flatMap Executed.operandRecords ↔
      ∀ e ∈ r.instrs, e.ins.memoryReads ≤ 1 := by
    intro r
    rw [r.records_eq, flatMap_eq_iff fun e _ => e.filterMap_fill_sublist k]
    simp only [Executed.filterMap_fill_eq_iff]
  rw [flatMap_eq_iff fun r _ => r.records_sublist k]
  simp only [hrun]

/-- `cmpsb` on the bytes at 0x2000 and 0x3000. -/
def cmps : Executed := .ofOperands 0x401000 "cmpsb" [⟨0x2000, 1⟩, ⟨0x3000, 1⟩] none

/-- One execution of the trace of this instruction. -/
def cmpsRun : BblRun where
  trace := { bbls := [[cmps.ins]] }
  maps := {}
  bbl := 0
  block := [cmps.ins]
  instrs := [cmps]
  instrs_prefix := List.prefix_refl _

/-- The second read is not in the buffer. -/
theorem second_read_not_traced :
    [cmpsRun].flatMap (fun r => r.records {}) ≠
      [cmpsRun].flatMap (fun r => r.instrs.flatMap Executed.operandRecords) := by
  decide

end BulletTime.Pintool
