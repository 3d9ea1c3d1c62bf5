import Mathlib.Algebra.BigOperators.Group.List.Basic
import Mathlib.Tactic.Positivity
import BulletTime.Pintool.Trace

/-!
# Pintool — Ratios

The bookkeeping of `Trace` over the sequence of traces Pin compiles.

* `instrumentAll`: the traces one after the other, on the maps left by those before.
* `pairsRight_blocks`: the pairs of counts attached to the blocks of a trace are right.
* `pcInsRatio_instrumentAll`: the ratio at a pc is the one of the latest trace that contains it.
* `trace_bookkeeping_iff`: it is a fraction of that trace's instructions exactly when all of them
  access memory.
-/

namespace BulletTime.Pintool

/-- The traces `ts`, with the instrumented blocks of each. -/
def instrumentAll (k : Knobs) (ts : List Trace) : List (List Block) × Maps :=
  ts.foldl (fun s t => (s.1 ++ [(instrument k s.2 t).1], (instrument k s.2 t).2)) ([], {})

theorem instrumentAll_snoc (k : Knobs) (ts : List Trace) (t : Trace) :
    instrumentAll k (ts ++ [t]) =
      ((instrumentAll k ts).1 ++ [t.bbls.map (blockOf k)],
        (instrument k (instrumentAll k ts).2 t).2) := by
  rw [instrumentAll, List.foldl_append, List.foldl_cons, List.foldl_nil, ← instrumentAll,
    instrument_blocks]

/-! ### The pairs of counts -/

/-- The pairs attached to the blocks of `t` are at most 1:1 and sum to the counts of the trace. -/
structure PairsRight (t : Trace) (bs : List Block) : Prop where
  le : ∀ b ∈ bs, b.numMemIns ≤ b.numIns
  sumIns : (bs.map fun b => b.numIns.toNat).sum = t.instrs.length
  sumMemIns : (bs.map fun b => b.numMemIns.toNat).sum = t.memCount

theorem toNat_numIns (k : Knobs) {bbl : List Ins} (h : bbl.length < 0x10000000000000000) :
    (blockOf k bbl).numIns.toNat = bbl.length :=
  UInt64.toNat_ofNat_of_lt' h

theorem toNat_numMemIns (k : Knobs) {bbl : List Ins} (h : bbl.length < 0x10000000000000000) :
    (blockOf k bbl).numMemIns.toNat = bbl.countP Ins.isMemory :=
  UInt64.toNat_ofNat_of_lt' (List.countP_le_length.trans_lt h)

theorem pairsRight_blocks (k : Knobs) (t : Trace) : PairsRight t (t.bbls.map (blockOf k)) := by
  have hins : ∀ bbl ∈ t.bbls, (blockOf k bbl).numIns.toNat = bbl.length := fun bbl h =>
    toNat_numIns k (t.length_bbl_lt h)
  have hmem : ∀ bbl ∈ t.bbls, (blockOf k bbl).numMemIns.toNat = bbl.countP Ins.isMemory :=
    fun bbl h => toNat_numMemIns k (t.length_bbl_lt h)
  refine ⟨?_, ?_, ?_⟩
  · intro b hb
    obtain ⟨bbl, hbbl, rfl⟩ := List.mem_map.mp hb
    rw [UInt64.le_iff_toNat_le, hins bbl hbbl, hmem bbl hbbl]
    exact List.countP_le_length
  · rw [List.map_map, Trace.instrs, List.length_flatten]
    exact congrArg List.sum (List.map_congr_left hins)
  · rw [List.map_map, Trace.memCount, Trace.instrs, List.countP_flatten]
    exact congrArg List.sum (List.map_congr_left hmem)

/-! ### The ratio at a pc -/

/-- The latest trace that contains `pc`. -/
def latest (ts : List Trace) (pc : UInt64) : Option Trace :=
  ts.reverse.find? fun t => decide (pc ∈ t.pcs)

theorem latest_isSome {ts : List Trace} {pc : UInt64} (h : ∃ t ∈ ts, pc ∈ t.pcs) :
    ∃ t, latest ts pc = some t := by
  obtain ⟨t, ht, hpc⟩ := h
  exact Option.isSome_iff_exists.mp
    (List.find?_isSome.mpr ⟨t, List.mem_reverse.mpr ht, decide_eq_true hpc⟩)

theorem mem_pcs_of_latest {ts : List Trace} {pc : UInt64} {t : Trace}
    (h : latest ts pc = some t) : pc ∈ t.pcs := by
  rw [latest] at h
  have hpc := List.find?_some h
  exact of_decide_eq_true hpc

theorem exists_mem_of_latest {ts : List Trace} {pc : UInt64} {t : Trace}
    (h : latest ts pc = some t) : ∃ t ∈ ts, pc ∈ t.pcs := by
  have hpc := mem_pcs_of_latest h
  rw [latest] at h
  exact ⟨t, List.mem_reverse.mp (List.mem_of_find?_eq_some h), hpc⟩

/-- **The ratio at a pc is the one of the latest trace that contains it.** -/
theorem pcInsRatio_instrumentAll {k : Knobs} (hk : k.recording = true) (ts : List Trace)
    (pc : UInt64) : (instrumentAll k ts).2.pcInsRatio[pc]? =
      (latest ts pc).map fun t => traceRatio (.ofNat t.memCount) := by
  induction ts using List.reverseRecOn with
  | nil => exact Std.ExtTreeMap.getElem?_empty
  | append_singleton ts t ih =>
    rw [instrumentAll_snoc, pcInsRatio_instrument hk, ih, latest, latest, List.reverse_append,
      List.reverse_singleton, List.singleton_append, List.find?_cons]
    by_cases h : pc ∈ t.pcs
    · simp [h]
    · simp [h]

/-! ### The fraction of memory-accessing instructions -/

/-- The fraction of memory-accessing instructions among all instructions of a trace. -/
def Trace.memFraction (t : Trace) : ℚ := t.memCount / t.instrs.length

theorem Trace.memFraction_nonneg (t : Trace) : 0 ≤ t.memFraction := by
  unfold Trace.memFraction
  positivity

theorem Trace.memFraction_le_one (t : Trace) : t.memFraction ≤ 1 := by
  refine div_le_one_of_le₀ ?_ (by positivity)
  exact_mod_cast List.countP_le_length

/-- The ratio of a trace with a memory-accessing instruction is 1. -/
theorem traceRatio_of_pos {t : Trace} (h : 0 < t.memCount) :
    traceRatio (.ofNat t.memCount) = .fin 1 := by
  have hlt : t.memCount < 0x10000000000000000 := List.countP_le_length.trans_lt t.length_lt
  have hne : (t.memCount : ℚ) ≠ 0 := by exact_mod_cast h.ne'
  rw [traceRatio, UInt64.toNat_ofNat_of_lt' hlt, Double.fin_div hne, div_self hne]

/-- Without one it is undefined. -/
theorem traceRatio_of_zero {t : Trace} (h : t.memCount = 0) :
    traceRatio (.ofNat t.memCount) = .nan := by
  rw [h]
  rfl

/-- The ratio of a trace is its fraction exactly when all its instructions access memory. -/
theorem traceRatio_eq_iff {t : Trace} (ht : t.instrs ≠ []) :
    traceRatio (.ofNat t.memCount) = .fin t.memFraction ↔ ∀ ins ∈ t.instrs, ins.isMemory := by
  have hlen : (t.instrs.length : ℚ) ≠ 0 := by
    exact_mod_cast fun h => ht (List.eq_nil_of_length_eq_zero h)
  have hall : t.memFraction = 1 ↔ ∀ ins ∈ t.instrs, ins.isMemory := by
    rw [Trace.memFraction, div_eq_one_iff_eq hlen, Nat.cast_inj]
    exact List.countP_eq_length
  rcases Nat.eq_zero_or_pos t.memCount with h | h
  · -- nothing divided by nothing
    rw [traceRatio_of_zero h, ← hall, Trace.memFraction, h]
    simp
  · rw [traceRatio_of_pos h, Double.fin.injEq, eq_comm]
    exact hall

/-- What `Trace` keeps of the traces `ts` is right: the pairs of every trace, and at every pc seen
the fraction of the latest trace that contains it, a number between 0 and 1. -/
structure Bookkeeping (k : Knobs) (ts : List Trace) : Prop where
  pairs : List.Forall₂ PairsRight ts (instrumentAll k ts).1
  ratios : ∀ pc, (∃ t ∈ ts, pc ∈ t.pcs) → ∃ t q, latest ts pc = some t ∧
    (instrumentAll k ts).2.pcInsRatio[pc]? = some (.fin q) ∧ q = t.memFraction ∧ 0 ≤ q ∧ q ≤ 1

theorem pairs_instrumentAll (k : Knobs) (ts : List Trace) :
    List.Forall₂ PairsRight ts (instrumentAll k ts).1 := by
  have hblocks : (instrumentAll k ts).1 = ts.map fun t => t.bbls.map (blockOf k) := by
    induction ts using List.reverseRecOn with
    | nil => rfl
    | append_singleton ts t ih => rw [instrumentAll_snoc, ih, List.map_append, List.map_singleton]
  rw [hblocks, List.forall₂_map_right_iff]
  exact List.forall₂_same.mpr fun t _ => pairsRight_blocks k t

/-- **`Trace`'s bookkeeping is right** exactly when, for every pc seen, the latest trace that
contains it has no instruction without a memory access. -/
theorem trace_bookkeeping_iff {k : Knobs} (hk : k.recording = true) (ts : List Trace) :
    Bookkeeping k ts ↔ ∀ pc t, latest ts pc = some t → ∀ ins ∈ t.instrs, ins.isMemory := by
  have hratio : ∀ {pc t}, latest ts pc = some t →
      ((instrumentAll k ts).2.pcInsRatio[pc]? = some (.fin t.memFraction) ↔
        ∀ ins ∈ t.instrs, ins.isMemory) := by
    intro pc t ht
    have hne : t.instrs ≠ [] := by
      intro h
      have hpc := mem_pcs_of_latest ht
      rw [Trace.pcs, h] at hpc
      cases hpc
    rw [pcInsRatio_instrumentAll hk, ht, Option.map_some, Option.some.injEq, traceRatio_eq_iff hne]
  constructor
  · intro h pc t ht
    obtain ⟨t', q, ht', hq, rfl, -, -⟩ := h.ratios pc (exists_mem_of_latest ht)
    obtain rfl := Option.some.inj (ht.symm.trans ht')
    exact (hratio ht).mp hq
  · intro h
    refine ⟨pairs_instrumentAll k ts, ?_⟩
    intro pc hpc
    obtain ⟨t, ht⟩ := latest_isSome hpc
    exact ⟨t, t.memFraction, ht, (hratio ht).mpr (h pc t ht), rfl, t.memFraction_nonneg,
      t.memFraction_le_one⟩

/-- The knobs of a run with `-record_file`. -/
def recordKnobs : Knobs := { recordFreq := "freq.txt" }

/-- `mov rax, qword ptr [rbx]`. -/
def load : Ins where
  address := 0x401000
  disassembly := "mov rax, qword ptr [rbx]"
  memoryReads := 1

/-- `inc rax`. -/
def inc : Ins where
  address := 0x401003
  disassembly := "inc rax"

/-- `mov qword ptr [rbx], rax`. -/
def store : Ins where
  address := 0x401006
  disassembly := "mov qword ptr [rbx], rax"
  memoryWrite := true

/-- The load and the store behind it, each in a block of its own. -/
def loadStore : Trace := { bbls := [[load], [store]] }

/-- A trace of two blocks, and then one that shares two of its pcs. -/
def overlapping : List Trace := [{ bbls := [[load, inc], [store]] }, loadStore]

theorem trace_bookkeeping_iff_overlapping : recordKnobs.recording = true ∧
    latest overlapping load.address = some loadStore ∧
    (Bookkeeping recordKnobs overlapping ↔
      ∀ pc t, latest overlapping pc = some t → ∀ ins ∈ t.instrs, ins.isMemory) :=
  ⟨by decide, rfl, trace_bookkeeping_iff (by decide) _⟩

/-- A load and an increment. -/
def loadInc : Trace := { bbls := [[load, inc]] }

/-- One of its two instructions accesses memory, and the ratio is 1. -/
theorem ratio_of_loadInc :
    (instrumentAll recordKnobs [loadInc]).2.pcInsRatio[load.address]? = some (.fin 1) ∧
      loadInc.memFraction = 1 / 2 ∧ ¬ Bookkeeping recordKnobs [loadInc] := by
  have hlatest : latest [loadInc] load.address = some loadInc := rfl
  have hratio : (instrumentAll recordKnobs [loadInc]).2.pcInsRatio[load.address]? =
      some (.fin 1) := by
    rw [pcInsRatio_instrumentAll (by decide), hlatest, Option.map_some,
      traceRatio_of_pos (by decide)]
  have hhalf : loadInc.memFraction = 1 / 2 := rfl
  refine ⟨hratio, hhalf, ?_⟩
  intro h
  obtain ⟨t, q, ht, hq, rfl, -, -⟩ := h.ratios load.address ⟨loadInc, by simp, by decide⟩
  obtain rfl := Option.some.inj (hlatest.symm.trans ht)
  have hone := Double.fin.inj (Option.some.inj (hratio.symm.trans hq))
  rw [hhalf] at hone
  exact absurd hone (by norm_num)

end BulletTime.Pintool
