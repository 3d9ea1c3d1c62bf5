import Mathlib.Data.List.Infix
import Mathlib.Tactic.Linarith
import BulletTime.Lib.Double

/-!
# Pintool — Trace

`Trace`, which Pin calls with every trace it compiles: the calls it inserts before the instructions,
the pair of counts it attaches to each block, and the maps from a pc that `Fini` prints.

* `Ins`, `Trace`: what Pin tells of the instructions.  `insCalls` is inserted before each.
* `instrument`: the two nested passes over a trace.
* `instrument_blocks`: the first pass, as a map over the blocks.
* `pcInsRatio_instrument`: the second pass, at one pc.

`[about the source]`: the ratio divides the number of memory-accessing instructions by itself; the
number of instructions is counted beside it and not used.
-/

namespace BulletTime.Pintool

/-! ### What Pin tells -/

/-- An instruction. -/
structure Ins where
  address : UInt64
  disassembly : String := ""
  /-- The name of its routine, where it is in one. -/
  rtn : Option String := none
  /-- The number of its memory-read operands. -/
  memoryReads : ℕ := 0
  /-- It has a memory-write operand. -/
  memoryWrite : Bool := false
  deriving DecidableEq

namespace Ins

/-- `INS_IsMemoryRead`. -/
def isMemoryRead (ins : Ins) : Bool := decide (0 < ins.memoryReads)

/-- `INS_IsMemoryWrite`. -/
def isMemoryWrite (ins : Ins) : Bool := ins.memoryWrite

def isMemory (ins : Ins) : Bool := ins.isMemoryRead || ins.isMemoryWrite

end Ins

/-- A trace: its blocks, of which no address space has room for 2^64 instructions. -/
structure Trace where
  bbls : List (List Ins)
  length_lt : bbls.flatten.length < 0x10000000000000000 := by decide

namespace Trace

def instrs (t : Trace) : List Ins := t.bbls.flatten

def pcs (t : Trace) : List UInt64 := t.instrs.map Ins.address

/-- The number of memory-accessing instructions. -/
def memCount (t : Trace) : ℕ := t.instrs.countP Ins.isMemory

/-- No block of a trace is too long for its counters. -/
theorem length_bbl_lt (t : Trace) {bbl : List Ins} (h : bbl ∈ t.bbls) :
    bbl.length < 0x10000000000000000 :=
  (List.sublist_flatten_of_mem h).length_le.trans_lt t.length_lt

/-- The name of the routine of the first instruction. -/
def fname (t : Trace) : String :=
  match t.bbls.head?.bind List.head? with
  | none => "unknown"
  | some ins => ins.rtn.getD "unknown"

end Trace

/-- The knobs `Trace` reads. -/
structure Knobs where
  recordFreq : String := ""
  profSync : Int32 := 0

namespace Knobs

/-- `KnobRecordFreq` is set. -/
def recording (k : Knobs) : Bool := k.recordFreq != ""

end Knobs

/-! ### The calls inserted -/

/-- An argument of an inserted call. -/
inductive Iarg where
  | instPtr
  | memoryReadEa
  | memoryReadSize
  | memoryWriteEa
  | memoryWriteSize
  | uint32 (n : UInt32)
  deriving DecidableEq

/-- A call inserted before an instruction. -/
inductive InsCall where
  | recordFrequency (pc : Iarg)
  | threadPause
  /-- `INS_InsertFillBuffer`, with the argument for each field of the record. -/
  | fillBuffer (pc ea sz isRead : Iarg)
  deriving DecidableEq

/-- `disassembled.find("pause") != npos`. -/
def Ins.isPause (ins : Ins) : Bool := decide ("pause".toList <:+: ins.disassembly.toList)

/-- The fill call for the reads of an instruction. -/
def fillRead : InsCall := .fillBuffer .instPtr .memoryReadEa .memoryReadSize (.uint32 1)

/-- The fill call for its write. -/
def fillWrite : InsCall := .fillBuffer .instPtr .memoryWriteEa .memoryWriteSize (.uint32 0)

/-- A call inserted under a condition. -/
def insertIf (b : Bool) (c : InsCall) : List InsCall := if b then [c] else []

/-- The calls inserted before an instruction, in their order. -/
def insCalls (k : Knobs) (ins : Ins) : List InsCall :=
  insertIf (ins.isMemory && k.recording) (.recordFrequency .instPtr) ++
    (insertIf (k.profSync == 1 && ins.isPause) .threadPause ++
      (insertIf ins.isMemoryRead fillRead ++ insertIf ins.isMemoryWrite fillWrite))

theorem filterMap_insertIf {α : Type*} (f : InsCall → Option α) (b : Bool) (c : InsCall) :
    (insertIf b c).filterMap f = if b then (f c).toList else [] := by
  cases b with
  | false => rfl
  | true => cases h : f c <;> simp [insertIf, h]

/-- An instrumented block: the calls before its instructions, and the arguments of
`RecordInsExecuted`. -/
structure Block where
  calls : List (List InsCall) := []
  numIns : UInt64 := 0
  numMemIns : UInt64 := 0
  deriving DecidableEq

/-- The maps from a pc. -/
structure Maps where
  pcInsString : Std.ExtTreeMap UInt64 String := ∅
  pcInsFunction : Std.ExtTreeMap UInt64 String := ∅
  pcInsRatio : Std.ExtTreeMap UInt64 Double := ∅

/-- The names of a memory-accessing instruction, recorded by its pc. -/
def nameStep (k : Knobs) (fname : String) (g : Maps) (ins : Ins) : Maps :=
  if ins.isMemory && k.recording then
    { g with
      pcInsString := g.pcInsString.insert ins.address ins.disassembly
      pcInsFunction := g.pcInsFunction.insert ins.address fname }
  else g

/-- One instruction of the first pass. -/
def insStep (k : Knobs) (fname : String) (s : Block × Maps) (ins : Ins) : Block × Maps :=
  ({ calls := s.1.calls ++ [insCalls k ins]
     numIns := s.1.numIns + 1
     numMemIns := if ins.isMemory then s.1.numMemIns + 1 else s.1.numMemIns },
   nameStep k fname s.2 ins)

/-- What the first pass carries from block to block. -/
structure Pass where
  traceIns : UInt64 := 0
  traceMemIns : UInt64 := 0
  blocks : List Block := []
  maps : Maps

/-- One block of the first pass. -/
def bblStep (k : Knobs) (fname : String) (s : Pass) (bbl : List Ins) : Pass :=
  let r := bbl.foldl (insStep k fname) ({}, s.maps)
  { traceIns := s.traceIns + r.1.numIns
    traceMemIns := s.traceMemIns + r.1.numMemIns
    blocks := s.blocks ++ [r.1]
    maps := r.2 }

/-- `(double)trace_mem_ins / trace_mem_ins`. -/
def traceRatio (traceMemIns : UInt64) : Double :=
  Double.fin traceMemIns.toNat / Double.fin traceMemIns.toNat

/-- The second pass. -/
def attachRatios (ratio : Double) (bbls : List (List Ins)) (m : Std.ExtTreeMap UInt64 Double) :
    Std.ExtTreeMap UInt64 Double :=
  bbls.foldl (fun m bbl => bbl.foldl (fun m ins => m.insert ins.address ratio) m) m

/-- `Trace`. -/
def instrument (k : Knobs) (g : Maps) (t : Trace) : List Block × Maps :=
  let s := t.bbls.foldl (bblStep k t.fname) { maps := g }
  (s.blocks,
    if k.recording then
      { s.maps with
        pcInsRatio :=
          attachRatios (traceRatio s.traceMemIns) t.bbls s.maps.pcInsRatio }
    else s.maps)

/-! ### The first pass, as a map over the blocks -/

/-- The instrumentation of a block, by its instructions. -/
def blockOf (k : Knobs) (bbl : List Ins) : Block where
  calls := bbl.map (insCalls k)
  numIns := .ofNat bbl.length
  numMemIns := .ofNat (bbl.countP Ins.isMemory)

theorem add_one_ofNat (w : UInt64) (n : ℕ) : w + 1 + .ofNat n = w + .ofNat (n + 1) := by
  rw [UInt64.ofNat_add, UInt64.add_assoc, UInt64.add_comm 1]
  rfl

/-- The instructions `bbl`, after those already in the block `b`. -/
theorem foldl_insStep_block (k : Knobs) (fname : String) (bbl : List Ins) (b : Block) (g : Maps) :
    (bbl.foldl (insStep k fname) (b, g)).1 =
      { calls := b.calls ++ (blockOf k bbl).calls
        numIns := b.numIns + (blockOf k bbl).numIns
        numMemIns := b.numMemIns + (blockOf k bbl).numMemIns } := by
  induction bbl generalizing b g with
  | nil => simp [blockOf]
  | cons ins bbl ih =>
    have hcount : (if ins.isMemory then b.numMemIns + 1 else b.numMemIns) +
        .ofNat (bbl.countP Ins.isMemory) =
          b.numMemIns + .ofNat ((ins :: bbl).countP Ins.isMemory) := by
      by_cases h : ins.isMemory
      · rw [if_pos h, List.countP_cons_of_pos h, add_one_ofNat]
      · rw [if_neg h, List.countP_cons_of_neg h]
    rw [List.foldl_cons, insStep, ih]
    simp only [blockOf, List.map_cons, List.append_assoc, List.singleton_append, hcount,
      List.length_cons, add_one_ofNat]

theorem foldl_insStep (k : Knobs) (fname : String) (bbl : List Ins) (g : Maps) :
    (bbl.foldl (insStep k fname) ({}, g)).1 = blockOf k bbl := by
  rw [foldl_insStep_block]
  simp [blockOf]

theorem pcInsRatio_nameStep (k : Knobs) (fname : String) (g : Maps) (ins : Ins) :
    (nameStep k fname g ins).pcInsRatio = g.pcInsRatio := by
  rw [nameStep]
  split <;> rfl

/-- The first pass leaves the ratios alone. -/
theorem pcInsRatio_insStep (k : Knobs) (fname : String) (bbl : List Ins) (s : Block × Maps) :
    (bbl.foldl (insStep k fname) s).2.pcInsRatio = s.2.pcInsRatio := by
  induction bbl generalizing s with
  | nil => rfl
  | cons ins bbl ih =>
    rw [List.foldl_cons, ih, insStep]
    exact pcInsRatio_nameStep k fname s.2 ins

/-- The first pass over the blocks `bbls`. -/
theorem foldl_bblStep (k : Knobs) (fname : String) (bbls : List (List Ins)) (s : Pass) :
    (bbls.foldl (bblStep k fname) s).blocks = s.blocks ++ bbls.map (blockOf k) ∧
    (bbls.foldl (bblStep k fname) s).traceIns =
      s.traceIns + .ofNat bbls.flatten.length ∧
    (bbls.foldl (bblStep k fname) s).traceMemIns =
      s.traceMemIns + .ofNat (bbls.flatten.countP Ins.isMemory) ∧
    (bbls.foldl (bblStep k fname) s).maps.pcInsRatio = s.maps.pcInsRatio := by
  induction bbls generalizing s with
  | nil => simp
  | cons bbl bbls ih =>
    obtain ⟨hblocks, hins, hmem, hratio⟩ := ih (bblStep k fname s bbl)
    have hblock : (bbl.foldl (insStep k fname) ({}, s.maps)).1 = blockOf k bbl :=
      foldl_insStep k fname bbl s.maps
    rw [List.foldl_cons, hblocks, hins, hmem, hratio, bblStep]
    refine ⟨?_, ?_, ?_, ?_⟩
    · simp [hblock]
    · simp [hblock, blockOf, UInt64.ofNat_add, UInt64.add_assoc]
    · simp [hblock, blockOf, UInt64.ofNat_add, UInt64.add_assoc]
    · exact pcInsRatio_insStep k fname bbl _

/-- **The blocks of a trace** are instrumented one by one, whatever the maps hold. -/
theorem instrument_blocks (k : Knobs) (g : Maps) (t : Trace) :
    (instrument k g t).1 = t.bbls.map (blockOf k) := by
  have h := (foldl_bblStep k t.fname t.bbls { maps := g }).1
  rw [List.nil_append] at h
  exact h

/-! ### The second pass, at one pc -/

theorem getElem?_foldl_insert (ratio : Double) (l : List Ins) (m : Std.ExtTreeMap UInt64 Double)
    (pc : UInt64) : (l.foldl (fun m ins => m.insert ins.address ratio) m)[pc]? =
      if pc ∈ l.map Ins.address then some ratio else m[pc]? := by
  induction l generalizing m with
  | nil => simp
  | cons ins l ih =>
    rw [List.foldl_cons, ih, List.map_cons, Std.ExtTreeMap.getElem?_insert]
    by_cases hl : pc ∈ l.map Ins.address
    · rw [if_pos hl, if_pos (List.mem_cons_of_mem _ hl)]
    · rw [if_neg hl]
      simp only [List.mem_cons, hl, or_false, Std.LawfulEqOrd.compare_eq_iff_eq, eq_comm (a := pc)]

theorem getElem?_attachRatios (ratio : Double) (bbls : List (List Ins))
    (m : Std.ExtTreeMap UInt64 Double) (pc : UInt64) :
    (attachRatios ratio bbls m)[pc]? =
      if pc ∈ bbls.flatten.map Ins.address then some ratio else m[pc]? := by
  rw [attachRatios, ← List.foldl_flatten, getElem?_foldl_insert]

/-- **The ratios after a trace**: its own at its pcs, and the earlier ones at the others. -/
theorem pcInsRatio_instrument {k : Knobs} (hk : k.recording = true) (g : Maps) (t : Trace)
    (pc : UInt64) : (instrument k g t).2.pcInsRatio[pc]? =
      if pc ∈ t.pcs then some (traceRatio (.ofNat t.memCount)) else g.pcInsRatio[pc]? := by
  obtain ⟨-, -, hmem, hratio⟩ := foldl_bblStep k t.fname t.bbls { maps := g }
  rw [instrument, if_pos hk]
  refine (getElem?_attachRatios _ t.bbls _ pc).trans ?_
  rw [hmem, hratio, UInt64.zero_add]
  rfl

end BulletTime.Pintool
