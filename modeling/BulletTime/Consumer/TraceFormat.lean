import Mathlib.Data.List.TakeWhile
import BulletTime.Lib.Records
import BulletTime.Consumer.CompressedFile
import BulletTime.Consumer.RawFile

/-!
# Consumer — TraceFormat

The records of a trace, and the two files a sequence of buffers gives: with compression on one
stream of the buffers' bytes, with compression off a block of 2^20 bytes for each.  24 does not
divide 2^20, so only the first block is read in step.

* `MemRef`: `MEMREF`, its 24 bytes and what a reader makes of them (`decode_encode`).
* `session`: the loop of `Listen`, which an empty buffer stops.
* `Zstd.Inverts`: what is asked of the decompressor.
* `decompress_compressedTrace`: the compressed file below 2^36 bytes, decompressed.
* `RawBlocks.mem_of_two`: from the second block on the raw file has a record whose `pc` is 0.
* `raw_agrees_iff`: the two files agree exactly when one buffer is processed.
-/

namespace BulletTime.Consumer
open PosFile Transition Output Handoff Records RawState

/-! ### Records -/

/-- `struct MEMREF`. -/
@[ext]
structure MemRef where
  pc : UInt64
  ea : UInt64
  sz : UInt32
  isRead : UInt32
  deriving DecidableEq

namespace MemRef

/-- `sizeof(MEMREF)`. -/
def size : ℕ := 24

/-- The record of 24 zero bytes. -/
def zero : MemRef := ⟨0, 0, 0, 0⟩

/-- The record in memory. -/
def encode (r : MemRef) : List UInt8 :=
  wordBytes 8 r.pc.toNat ++ (wordBytes 8 r.ea.toNat ++
    (wordBytes 4 r.sz.toNat ++ wordBytes 4 r.isRead.toNat))

/-- A record as the documented format has it: words at the offsets 0, 8, 16 and 20. -/
def decode (bytes : List UInt8) : MemRef where
  pc := .ofNat (wordOf (bytes.take 8))
  ea := .ofNat (wordOf ((bytes.drop 8).take 8))
  sz := .ofNat (wordOf ((bytes.drop 16).take 4))
  isRead := .ofNat (wordOf ((bytes.drop 20).take 4))

theorem length_encode (r : MemRef) : r.encode.length = size := by
  simp only [encode, List.length_append, length_wordBytes]
  rfl

/-- The words of a record, field by field. -/
theorem decode_append {pc ea sz isRead : List UInt8} (hpc : pc.length = 8) (hea : ea.length = 8)
    (hsz : sz.length = 4) (hr : isRead.length = 4) :
    decode (pc ++ (ea ++ (sz ++ isRead))) =
      ⟨.ofNat (wordOf pc), .ofNat (wordOf ea), .ofNat (wordOf sz), .ofNat (wordOf isRead)⟩ := by
  have h16 : (pc ++ (ea ++ (sz ++ isRead))).drop 16 = sz ++ isRead := by
    rw [show 16 = pc.length + ea.length by rw [hpc, hea], List.drop_length_add_append,
      List.drop_left]
  have h20 : (pc ++ (ea ++ (sz ++ isRead))).drop 20 = isRead := by
    rw [show 20 = 16 + sz.length by rw [hsz], ← List.drop_drop, h16, List.drop_left]
  rw [decode, h16, h20, ← hpc, List.take_left, List.drop_left, hpc, ← hea, List.take_left, ← hsz,
    List.take_left, hsz, ← hr, List.take_length]

/-- **A record is read back.** -/
theorem decode_encode (r : MemRef) : decode r.encode = r := by
  rw [encode, decode_append (length_wordBytes _ _) (length_wordBytes _ _) (length_wordBytes _ _)
    (length_wordBytes _ _)]
  simp only [wordOf_wordBytes]
  have h8 : ∀ w : UInt64, UInt64.ofNat (w.toNat % 256 ^ 8) = w := fun w => by
    rw [Nat.mod_eq_of_lt (show w.toNat < 256 ^ 8 from w.toNat_lt), UInt64.ofNat_toNat]
  have h4 : ∀ w : UInt32, UInt32.ofNat (w.toNat % 256 ^ 4) = w := fun w => by
    rw [Nat.mod_eq_of_lt (show w.toNat < 256 ^ 4 from w.toNat_lt), UInt32.ofNat_toNat]
  rw [h8, h8, h4, h4]

theorem decode_zeroes : decode (List.replicate size 0) = zero := by
  have h : List.replicate size (0 : UInt8) = List.replicate 8 0 ++
      (List.replicate 8 0 ++ (List.replicate 4 0 ++ List.replicate 4 0)) := rfl
  rw [h, decode_append List.length_replicate List.length_replicate List.length_replicate
    List.length_replicate]
  simp only [wordOf_zeroes]
  rfl

/-- 16 bytes of padding and the first word of the next block: a record that is not all zeroes, with
`pc` 0. -/
theorem decode_cross {pc : UInt64} (h : pc ≠ 0) :
    (decode (List.replicate 16 0 ++ wordBytes 8 pc.toNat)).pc = 0 ∧
      decode (List.replicate 16 0 ++ wordBytes 8 pc.toNat) ≠ zero := by
  have hsplit : List.replicate 16 (0 : UInt8) ++ wordBytes 8 pc.toNat =
      List.replicate 8 0 ++ (List.replicate 8 0 ++
        (wordBytes 4 pc.toNat ++ wordBytes 4 (pc.toNat / 256 ^ 4))) := by
    rw [← wordBytes_add 4 4, ← List.append_assoc, List.replicate_append_replicate]
  rw [hsplit, decode_append List.length_replicate List.length_replicate (length_wordBytes _ _)
    (length_wordBytes _ _)]
  simp only [wordOf_wordBytes, wordOf_zeroes]
  refine ⟨rfl, fun hz => h (UInt64.toNat_inj.mp ?_)⟩
  have hlo := congrArg UInt32.toNat (congrArg sz hz)
  have hhi := congrArg UInt32.toNat (congrArg isRead hz)
  have hlt := pc.toNat_lt
  simp only [zero, UInt32.toNat_ofNat', UInt32.toNat_zero, UInt64.toNat_zero] at hlo hhi ⊢
  omega

end MemRef

/-- `buf_entry_limit` with the default of `KnobNumPagesInBuffer`. -/
def bufEntryLimit : ℕ := 256 * 4096 / MemRef.size

/-- A trace buffer of records, none of them at address 0. -/
structure RecordBuffer where
  records : List MemRef
  fits : records.length ≤ bufEntryLimit
  pc_ne_zero : ∀ r ∈ records, r.pc ≠ 0

namespace RecordBuffer

def bytes (b : RecordBuffer) : List UInt8 := b.records.flatMap MemRef.encode

theorem length_bytes (b : RecordBuffer) : b.bytes.length = b.records.length * MemRef.size :=
  length_flatMap _ MemRef.length_encode _

/-- A full buffer leaves 16 bytes of a block. -/
theorem length_bytes_le (b : RecordBuffer) : b.bytes.length + 16 ≤ consumerBufferSize := by
  have h : b.bytes.length ≤ bufEntryLimit * MemRef.size :=
    b.length_bytes ▸ Nat.mul_le_mul_right _ b.fits
  exact Nat.add_le_add_right h 16

def toTrace (b : RecordBuffer) : TraceBuffer :=
  ⟨b.bytes, Nat.le_trans (Nat.le_add_right _ 16) b.length_bytes_le⟩

theorem toTrace_bytes (b : RecordBuffer) : b.toTrace.bytes = b.bytes := rfl

theorem bytes_eq_nil {b : RecordBuffer} : b.toTrace.bytes = [] ↔ b.records = [] := by
  rw [toTrace_bytes, ← List.length_eq_zero_iff, length_bytes, Nat.mul_eq_zero,
    List.length_eq_zero_iff]
  exact or_iff_left (by decide)

end RecordBuffer

/-- A trace file as the documented sequence of records. -/
def readTrace (bytes : List UInt8) : List MemRef := (split MemRef.size bytes).map MemRef.decode

def dropZeroes (records : List MemRef) : List MemRef := records.filter (· ≠ MemRef.zero)

/-- Records at the beginning of a file are read back. -/
theorem readTrace_append (records : List MemRef) (bytes : List UInt8) :
    readTrace (records.flatMap MemRef.encode ++ bytes) = records ++ readTrace bytes := by
  have hdec : MemRef.decode ∘ MemRef.encode = id := funext MemRef.decode_encode
  rw [readTrace, split_flatMap_append (by decide) MemRef.length_encode, List.map_append,
    List.map_map, hdec, List.map_id]
  rfl

theorem length_readTrace (bytes : List UInt8) :
    (readTrace bytes).length = bytes.length / MemRef.size := by
  rw [readTrace, List.length_map, length_split]

/-- Padding is read as records of zeroes. -/
theorem dropZeroes_padding (n : ℕ) : dropZeroes (readTrace (List.replicate n 0)) = [] := by
  refine List.filter_eq_nil_iff.mpr fun r hr => ?_
  obtain ⟨bytes, hb, rfl⟩ := List.mem_map.mp hr
  obtain ⟨i, hi, rfl⟩ := List.mem_map.mp hb
  have hlt : i < n / MemRef.size := by
    rwa [List.mem_range, List.length_replicate] at hi
  have hle : MemRef.size ≤ n - i * MemRef.size := by
    have h : (i + 1) * MemRef.size ≤ n := (Nat.le_div_iff_mul_le (by decide)).mp hlt
    rw [Nat.succ_mul] at h
    omega
  rw [List.drop_replicate, List.take_replicate, Nat.min_eq_left hle, MemRef.decode_zeroes]
  simp

theorem dropZeroes_of_pc {records : List MemRef} (h : ∀ r ∈ records, r.pc ≠ 0) :
    dropZeroes records = records :=
  List.filter_eq_self.mpr fun r hr => decide_eq_true fun hz => h r hr (congrArg MemRef.pc hz)

/-! ### The two files -/

variable {Z : Zstd} {mem : ℕ → UInt8} {bufs : List RecordBuffer}

/-- The loop of `Listen` over the buffers handed to it; an empty one is the stop signal. -/
def session (round : RawState Z → TraceBuffer → Option (RawState Z)) :
    RawState Z → List RecordBuffer → Option (RawState Z)
  | s, [] => some s
  | s, b :: bufs =>
      if b.toTrace.bytes = [] then some s
      else (round s b.toTrace).bind fun t => session round t bufs

/-- A round with compression on: the pintool's copy, and the flush of `shared_mem[0, data_size)`. -/
def streamRound (s : RawState Z) (b : TraceBuffer) : Option (RawState Z) :=
  let mem := copyIn s.mem b
  (flushStep s.out (payload mem b.bytes.length)).map fun o => ⟨mem, o⟩

/-- The raw file. -/
def rawTrace (Z : Zstd) (mem : ℕ → UInt8) (bufs : List RecordBuffer) : Option (List UInt8) :=
  (session rawStep (RawState.start Z mem) bufs).map fun s => s.out.file

/-- `Listen` with compression on, up to the rename. -/
def compressedTrace (Z : Zstd) (mem : ℕ → UInt8) (bufs : List RecordBuffer) : Option (Output Z) :=
  (session streamRound (RawState.start Z mem) bufs).bind fun s =>
    match s.out.finish (rest s.mem s.out.zIn) finishOk with
    | (o, true) => some o
    | (_, false) => none

/-- The buffers before the first empty one. -/
def processed (bufs : List RecordBuffer) : List RecordBuffer :=
  bufs.takeWhile fun b => b.records ≠ []

theorem session_eq (round : RawState Z → TraceBuffer → Option (RawState Z)) (s : RawState Z)
    (bufs : List RecordBuffer) :
    session round s bufs = exec round s ((processed bufs).map RecordBuffer.toTrace) := by
  induction bufs generalizing s with
  | nil => rfl
  | cons b bufs ih =>
      by_cases hb : b.records = []
      · rw [session, if_pos (RecordBuffer.bytes_eq_nil.mpr hb), processed,
          List.takeWhile_cons_of_neg (by simpa using hb)]
        rfl
      · rw [session, if_neg (mt RecordBuffer.bytes_eq_nil.mp hb), processed,
          List.takeWhile_cons_of_pos (by simpa using hb), List.map_cons, exec_cons]
        exact congrArg _ (funext fun t => ih t)

theorem records_ne_nil {b : RecordBuffer} (hb : b ∈ processed bufs) : b.records ≠ [] := by
  simpa using List.mem_takeWhile_imp hb

/-! ### The compressed file -/

/-- The contexts a stream passes through, with the bytes presented and produced so far. -/
inductive Zstd.Stream (Z : Zstd) : Z.Ctx → List UInt8 → List UInt8 → Prop where
  | start : Z.Stream Z.createCCtx [] []
  | flush {ctx ctx' fed emitted input bytes room n} (h : Z.Stream ctx fed emitted)
      (hc : Z.compressStream2 ctx .flush input room = (ctx', bytes, some n)) :
      Z.Stream ctx' (fed ++ input) (emitted ++ bytes)

/-- Decompressing all that a finished stream has produced gives the bytes presented to it. -/
def Zstd.Inverts (Z : Zstd) (decompress : List UInt8 → Option (List UInt8)) : Prop :=
  ∀ {ctx ctx' fed emitted input bytes room}, Z.Stream ctx fed emitted →
    Z.compressStream2 ctx .finish input room = (ctx', bytes, some 0) →
      decompress (emitted ++ bytes) = some (fed ++ input)

/-- **What one flush adds** to the stream. -/
theorem flushStep_stream {o o' : Output Z} {payload : List UInt8}
    (hs : Z.Stream o.cctx o.fed o.emitted) (h : flushStep o payload = some o') :
    Z.Stream o'.cctx o'.fed o'.emitted ∧ o'.fed = o.fed ++ payload ∧
      o'.emitted = o.emitted ++ o.flushed payload ∧
      o'.zIn = ⟨payload.length, payload.length⟩ := by
  obtain ⟨o₁, h₁, rfl⟩ := flushStep_eq_some.mp h
  have hfed := fed_processCompressed o payload .full
  have hzIn := zIn_processCompressed o payload .full
  rw [h₁] at hfed hzIn
  cases hr : (o.flushInput payload).2 with
  | none =>
      rw [processCompressed, if_pos hr] at h₁
      cases h₁
  | some n =>
      rw [processCompressed, if_neg (by rw [hr]; exact Option.some_ne_none n)] at h₁
      obtain rfl : ((o.flushInput payload).1.writeWhole .full).1 = o₁ := congrArg Prod.fst h₁
      simp only [cctx_reopen, cctx_writeWhole, fed_reopen, fed_writeWhole, emitted_reopen,
        emitted_writeWhole, zIn_reopen] at hfed hzIn ⊢
      exact ⟨.flush hs (Prod.ext rfl (Prod.ext rfl hr)), hfed, rfl, hzIn⟩

/-- What the loop has made of the buffers `bs`. -/
structure Presented (mem : ℕ → UInt8) (bs : List TraceBuffer) (s : RawState Z) : Prop where
  loop : exec flushStep (Output.start Z) (bs.map TraceBuffer.bytes) = some s.out
  stream : Z.Stream s.out.cctx s.out.fed s.out.emitted
  fed : s.out.fed = bs.flatMap TraceBuffer.bytes
  rest : rest s.mem s.out.zIn = if bs = [] then payload mem allocationSize else []

theorem rest_all (mem : ℕ → UInt8) (n : ℕ) : Handoff.rest mem ⟨n, 0⟩ = payload mem n := by
  rw [Handoff.rest, payload, List.range_eq_range']
  rfl

theorem rest_end (mem : ℕ → UInt8) (n : ℕ) : Handoff.rest mem ⟨n, n⟩ = [] := by
  rw [Handoff.rest, Nat.sub_self]
  rfl

theorem exec_presented {bs : List TraceBuffer} {s : RawState Z}
    (h : exec streamRound (RawState.start Z mem) bs = some s) : Presented mem bs s := by
  refine exec_induction (P := Presented mem) ⟨rfl, .start, rfl, rest_all mem _⟩ ?_ h
  intro bs b s t _ hs ht
  obtain ⟨o, ho, rfl⟩ := Option.map_eq_some_iff.mp ht
  rw [payload_copyIn] at ho
  obtain ⟨hstream, hfed, -, hzIn⟩ := flushStep_stream hs.stream ho
  refine ⟨?_, hstream, ?_, ?_⟩
  · rw [List.map_append, List.map_singleton]
    exact exec_snoc.mpr ⟨s.out, hs.loop, ho⟩
  · rw [hfed, hs.fed, List.flatMap_append, List.flatMap_singleton]
  · rw [hzIn, rest_end, if_neg (List.append_ne_nil_of_right_ne_nil _ (List.cons_ne_nil _ _))]

/-- The stream only grows. -/
theorem exec_emitted_le {o o' : Output Z} {payloads : List (List UInt8)}
    (hs : Z.Stream o.cctx o.fed o.emitted) (h : exec flushStep o payloads = some o') :
    o.emitted.length ≤ o'.emitted.length := by
  induction payloads generalizing o with
  | nil => cases h; exact Nat.le_refl _
  | cons p payloads ih =>
      obtain ⟨t, ht, h⟩ := Option.bind_eq_some_iff.mp h
      obtain ⟨hst, -, he, -⟩ := flushStep_stream hs ht
      refine Nat.le_trans ?_ (ih hst h)
      rw [he, List.length_append]
      exact Nat.le_add_right _ _

/-- **Below 2^36 bytes** the loop writes one intact stream. -/
theorem streamed_of_lt {payloads : List (List UInt8)} {o : Output Z}
    (h : exec flushStep (Output.start Z) payloads = some o)
    (hlt : o.emitted.length < overwriteLimit) : Streamed o := by
  refine loop_streamed (fun done p todo t hsplit ht hlim => absurd hlim ?_) h
  rw [hsplit] at h
  obtain ⟨t', ht', h⟩ := exec_split.mp h
  obtain rfl : t = t' := Option.some.inj (ht.symm.trans ht')
  have hst : Z.Stream t.cctx t.fed t.emitted :=
    exec_induction (P := fun _ o => Z.Stream o.cctx o.fed o.emitted) .start
      (fun _ _ _ _ _ hs h => (flushStep_stream hs h).1) ht
  exact Nat.not_le.mpr (Nat.lt_of_le_of_lt (exec_emitted_le hst h) hlt)

/-- **The compressed file, decompressed**: the buffers' bytes, and where no buffer was processed the
whole mapping, which `z_in` spans until the first flush. -/
theorem decompress_compressedTrace {decompress : List UInt8 → Option (List UInt8)}
    (hz : Z.Inverts decompress) {o : Output Z} (h : compressedTrace Z mem bufs = some o)
    (hsize : o.emitted.length < overwriteLimit) :
    decompress o.file = some ((processed bufs).flatMap RecordBuffer.bytes ++
      if processed bufs = [] then payload mem allocationSize else []) := by
  obtain ⟨s, hs, hfin⟩ := Option.bind_eq_some_iff.mp h
  rw [session_eq] at hs
  have hp := exec_presented hs
  have hfin : s.out.finish (rest s.mem s.out.zIn) finishOk = (o, true) := by
    split at hfin
    · rename_i e
      cases hfin
      exact e
    · cases hfin
  obtain ⟨ctx, bytes, hc, hfile, hem⟩ := finish_ok hfin
  have hlt : s.out.emitted.length < overwriteLimit := by
    rw [hem, List.length_append] at hsize
    exact Nat.lt_of_le_of_lt (Nat.le_add_right _ _) hsize
  rw [hfile, ← (streamed_of_lt hp.loop hlt).emitted, hz hp.stream hc, hp.fed, hp.rest,
    List.flatMap_map]
  exact congrArg some (congrArg _ (if_congr List.map_eq_nil_iff rfl rfl))

/-! ### The raw file -/

/-- `file` is a ring of blocks, of the processed buffers. -/
structure RawBlocks (bufs : List RecordBuffer) (file : List UInt8) (blocks : List (List UInt8)) :
    Prop where
  flatten : file = blocks.flatten
  size : ∀ b ∈ blocks, b.length = consumerBufferSize
  ring : Ring.Holds ringSlots (((processed bufs).map RecordBuffer.toTrace).map padded) blocks

/-- A raw trace is always written. -/
theorem exists_rawTrace (Z : Zstd) (mem : ℕ → UInt8) (bufs : List RecordBuffer) :
    ∃ file blocks, rawTrace Z mem bufs = some file ∧ RawBlocks bufs file blocks := by
  have hne : ∀ b ∈ (processed bufs).map RecordBuffer.toTrace, b.bytes ≠ [] := fun b hb => by
    obtain ⟨b', hb', rfl⟩ := List.mem_map.mp hb
    exact mt RecordBuffer.bytes_eq_nil.mp (records_ne_nil hb')
  obtain ⟨s, hs, hr⟩ := exec_ringed (Z := Z) mem hne
  obtain ⟨blocks, hfile, hblocks, hring⟩ := hr.file
  refine ⟨s.out.file, blocks, ?_, hfile, hblocks, hring⟩
  rw [rawTrace, session_eq, hs]
  rfl

theorem rawBlocks_of_rawTrace {file : List UInt8} (h : rawTrace Z mem bufs = some file) :
    ∃ blocks, RawBlocks bufs file blocks := by
  obtain ⟨file', blocks, h', hb⟩ := exists_rawTrace Z mem bufs
  obtain rfl := Option.some.inj (h.symm.trans h')
  exact ⟨blocks, hb⟩

/-- A block of the file is a processed buffer with its padding. -/
theorem RawBlocks.padded_of_getElem? {file : List UInt8} {blocks : List (List UInt8)}
    (h : RawBlocks bufs file blocks) {k : ℕ} {p : List UInt8} (hk : blocks[k]? = some p) :
    ∃ b ∈ processed bufs, padded b.toTrace = p := by
  have hmem := h.ring.mem hk
  rw [List.map_map] at hmem
  exact List.mem_map.mp hmem

/-- One block is read as the records of its buffer. -/
theorem readTrace_padded (b : RecordBuffer) :
    dropZeroes (readTrace (padded b.toTrace)) = b.records := by
  have h : padded b.toTrace = b.records.flatMap MemRef.encode ++ List.replicate _ 0 := rfl
  rw [h, readTrace_append, dropZeroes, List.filter_append]
  have hz := dropZeroes_padding (consumerBufferSize - b.toTrace.bytes.length)
  rw [dropZeroes] at hz
  rw [hz, List.append_nil]
  exact dropZeroes_of_pc b.pc_ne_zero

/-- The last 16 bytes of a block are padding. -/
theorem padded_eq (b : RecordBuffer) : ∃ front : List UInt8,
    front.length = bufEntryLimit * MemRef.size ∧
      padded b.toTrace = front ++ List.replicate 16 0 := by
  have hle := b.length_bytes_le
  have hblock : bufEntryLimit * MemRef.size + 16 = consumerBufferSize := rfl
  refine ⟨b.bytes ++ List.replicate (bufEntryLimit * MemRef.size - b.bytes.length) 0, ?_, ?_⟩
  · rw [List.length_append, List.length_replicate]
    omega
  · rw [List.append_assoc, List.replicate_append_replicate, padded]
    refine congrArg (fun n => b.bytes ++ List.replicate n 0) ?_
    rw [RecordBuffer.toTrace_bytes]
    omega

/-- A block begins with the `pc` of a record. -/
theorem padded_head {b : RecordBuffer} (hb : b.records ≠ []) : ∃ pc : UInt64, ∃ tail,
    pc ≠ 0 ∧ padded b.toTrace = wordBytes 8 pc.toNat ++ tail := by
  obtain ⟨r, records, hr⟩ := List.exists_cons_of_ne_nil hb
  have hpre : wordBytes 8 r.pc.toNat <+: b.toTrace.bytes := by
    rw [RecordBuffer.toTrace_bytes, RecordBuffer.bytes, hr, List.flatMap_cons, MemRef.encode,
      List.append_assoc]
    exact List.prefix_append _ _
  obtain ⟨tail, htail⟩ := hpre
  exact ⟨r.pc, _, b.pc_ne_zero r (hr ▸ List.mem_cons_self), by
    rw [padded, ← htail, List.append_assoc]⟩

/-- Where two blocks meet, a record has the padding of the first as `pc` and `ea`, and an address as
`sz` and `is_read`. -/
theorem take_drop_cross (b₀ : RecordBuffer) {b₁ : RecordBuffer} (hb : b₁.records ≠ [])
    (more : List UInt8) : ∃ pc : UInt64, pc ≠ 0 ∧
      ((padded b₀.toTrace ++ (padded b₁.toTrace ++ more)).drop
        (bufEntryLimit * MemRef.size)).take MemRef.size =
          List.replicate 16 0 ++ wordBytes 8 pc.toNat := by
  obtain ⟨front, hfront, hp₀⟩ := padded_eq b₀
  obtain ⟨pc, tail, hpc, hp₁⟩ := padded_head hb
  refine ⟨pc, hpc, ?_⟩
  have hsize : MemRef.size = (List.replicate 16 (0 : UInt8) ++ wordBytes 8 pc.toNat).length := by
    rw [List.length_append, length_wordBytes, List.length_replicate]
    rfl
  rw [hp₀, hp₁, ← hfront, List.append_assoc, List.drop_left, List.append_assoc,
    ← List.append_assoc, hsize, List.take_left]

/-- **From the second block on** the raw file is read out of step: one of its records has a `pc` of
0 and is not all zeroes. -/
theorem RawBlocks.mem_of_two {file : List UInt8} {blocks : List (List UInt8)}
    (h : RawBlocks bufs file blocks) (htwo : 2 ≤ (processed bufs).length) :
    ∃ r ∈ dropZeroes (readTrace file), r.pc = 0 := by
  have hlen : 2 ≤ blocks.length := by
    rw [h.ring.length, List.length_map, List.length_map]
    exact Nat.le_min.mpr ⟨htwo, by decide⟩
  have hlt : bufEntryLimit < file.length / MemRef.size := by
    rw [h.flatten, length_flatten_blocks h.size]
    exact Nat.lt_of_lt_of_le (by decide)
      (Nat.div_le_div_right (Nat.mul_le_mul_right consumerBufferSize hlen))
  obtain ⟨p₀, p₁, more, rfl⟩ : ∃ p₀ p₁ more, blocks = p₀ :: p₁ :: more := by
    match blocks, hlen with
    | p₀ :: p₁ :: more, _ => exact ⟨p₀, p₁, more, rfl⟩
  obtain ⟨b₀, -, rfl⟩ := h.padded_of_getElem? (k := 0) rfl
  obtain ⟨b₁, hmem, rfl⟩ := h.padded_of_getElem? (k := 1) rfl
  obtain ⟨pc, hpc, hcross⟩ := take_drop_cross b₀ (records_ne_nil hmem) more.flatten
  obtain ⟨hzero, hne⟩ := MemRef.decode_cross hpc
  rw [← hcross, ← List.flatten_cons, ← List.flatten_cons, ← h.flatten] at hzero hne
  exact ⟨_, List.mem_filter.mpr ⟨List.mem_map_of_mem (List.mem_of_getElem? (getElem?_split hlt)),
    decide_eq_true hne⟩, hzero⟩

/-! ### The comparison -/

/-- The raw file without its records of zeroes, and the decompressed file, as records. -/
def TracesAgree (decompress : List UInt8 → Option (List UInt8)) (raw compressed : List UInt8) :
    Prop :=
  (decompress compressed).map readTrace = some (dropZeroes (readTrace raw))

/-- The records of the compressed file. -/
theorem readTrace_flatMap (bs : List RecordBuffer) :
    readTrace (bs.flatMap RecordBuffer.bytes) = bs.flatMap RecordBuffer.records := by
  have h := readTrace_append (bs.flatMap RecordBuffer.records) []
  rw [List.append_nil, List.flatMap_assoc] at h
  rw [← List.append_nil (bs.flatMap RecordBuffer.records)]
  exact h

section Compare
variable {decompress : List UInt8 → Option (List UInt8)} {o : Output Z}

/-- With no buffer processed the compressed file has the records of the mapping, the raw one
none. -/
theorem not_agree_of_none (hz : Z.Inverts decompress) (h : compressedTrace Z mem bufs = some o)
    (hsize : o.emitted.length < overwriteLimit) (hp : processed bufs = []) {file : List UInt8}
    (hraw : rawTrace Z mem bufs = some file) : ¬ TracesAgree decompress file o.file := by
  intro ha
  obtain ⟨blocks, hfile, -, hring⟩ := rawBlocks_of_rawTrace hraw
  rw [hp] at hring
  obtain rfl : blocks = [] := List.length_eq_zero_iff.mp hring.length
  rw [TracesAgree, decompress_compressedTrace hz h hsize, hp, if_pos rfl, hfile, Option.map_some,
    Option.some_inj] at ha
  have hlen := congrArg List.length ha
  rw [List.flatMap_nil, List.nil_append, length_readTrace, payload, List.length_map,
    List.length_range] at hlen
  exact absurd hlen (by decide)

/-- One buffer gives its records in both files. -/
theorem agree_of_one (hz : Z.Inverts decompress) (h : compressedTrace Z mem bufs = some o)
    (hsize : o.emitted.length < overwriteLimit) {b : RecordBuffer} (hp : processed bufs = [b])
    {file : List UInt8} (hraw : rawTrace Z mem bufs = some file) :
    TracesAgree decompress file o.file := by
  obtain ⟨blocks, hfile, -, hring⟩ := rawBlocks_of_rawTrace hraw
  rw [hp] at hring
  obtain ⟨p, rfl⟩ := List.length_eq_one_iff.mp hring.length
  have hmem : p ∈ [padded b.toTrace] := hring.mem (k := 0) rfl
  rw [TracesAgree, decompress_compressedTrace hz h hsize, hp, if_neg (List.cons_ne_nil _ _),
    List.append_nil, Option.map_some, readTrace_flatMap, hfile, List.flatten_singleton,
    List.mem_singleton.mp hmem, readTrace_padded, List.flatMap_singleton]

/-- From two buffers on the raw file has a record the compressed one cannot have. -/
theorem not_agree_of_two (hz : Z.Inverts decompress) (h : compressedTrace Z mem bufs = some o)
    (hsize : o.emitted.length < overwriteLimit) (hp : 2 ≤ (processed bufs).length)
    {file : List UInt8} (hraw : rawTrace Z mem bufs = some file) :
    ¬ TracesAgree decompress file o.file := by
  intro ha
  obtain ⟨blocks, hb⟩ := rawBlocks_of_rawTrace hraw
  have hne : processed bufs ≠ [] := fun e => by
    rw [e] at hp
    exact absurd hp (by decide)
  rw [TracesAgree, decompress_compressedTrace hz h hsize, if_neg hne, List.append_nil,
    Option.map_some, readTrace_flatMap, Option.some_inj] at ha
  obtain ⟨r, hr, hpc⟩ := hb.mem_of_two hp
  rw [← ha] at hr
  obtain ⟨b, -, hmem⟩ := List.mem_flatMap.mp hr
  exact b.pc_ne_zero r hmem hpc

/-- **The raw file and the compressed one agree** exactly when one buffer is processed.  From the
second on the blocks are out of step with the records, and with none the compressed file holds the
mapping. -/
theorem raw_agrees_iff (hz : Z.Inverts decompress) (mem : ℕ → UInt8) (bufs : List RecordBuffer)
    (h : compressedTrace Z mem bufs = some o) (hsize : o.emitted.length < overwriteLimit) :
    (∃ file, rawTrace Z mem bufs = some file ∧ TracesAgree decompress file o.file) ↔
      (processed bufs).length = 1 := by
  constructor
  · rintro ⟨file, hraw, ha⟩
    have hnone : (processed bufs).length ≠ 0 := fun e =>
      not_agree_of_none hz h hsize (List.length_eq_zero_iff.mp e) hraw ha
    have htwo : ¬ 2 ≤ (processed bufs).length := fun hp => not_agree_of_two hz h hsize hp hraw ha
    omega
  · intro hp
    obtain ⟨b, hb⟩ := List.length_eq_one_iff.mp hp
    obtain ⟨file, -, hraw, -⟩ := exists_rawTrace Z mem bufs
    exact ⟨file, hraw, agree_of_one hz h hsize hb hraw⟩

end Compare

/-! ### With the storing compressor -/

theorem stream_storing {ctx : storing.Ctx} {fed emitted : List UInt8}
    (h : storing.Stream ctx fed emitted) : emitted = fed := by
  induction h with
  | start => rfl
  | flush _ hc ih =>
      obtain ⟨-, rfl, -⟩ := hc
      rw [ih]

theorem inverts_storing : storing.Inverts some := by
  intro ctx ctx' fed emitted input bytes room hs hc
  obtain ⟨-, rfl, -⟩ := hc
  rw [stream_storing hs]

/-- A buffer of one record. -/
def oneRecord : RecordBuffer where
  records := [⟨0x401000, 0x7ffe0010, 8, 1⟩]
  fits := by decide
  pc_ne_zero := by decide

theorem raw_agrees_iff_storing :
    ∃ o, compressedTrace storing (fun _ => 0) [oneRecord] = some o ∧
      o.emitted.length < overwriteLimit ∧
      ((∃ file, rawTrace storing (fun _ => 0) [oneRecord] = some file ∧
        TracesAgree some file o.file) ↔ (processed [oneRecord]).length = 1) :=
  ⟨_, rfl, by decide, raw_agrees_iff inverts_storing _ _ rfl (by decide)⟩

/-- Two buffers of one record each. -/
theorem raw_differs_two : storing.Inverts some ∧
    ∃ o file, compressedTrace storing (fun _ => 0) [oneRecord, oneRecord] = some o ∧
      rawTrace storing (fun _ => 0) [oneRecord, oneRecord] = some file ∧
      o.emitted.length < overwriteLimit ∧ ¬ TracesAgree some file o.file := by
  obtain ⟨file, -, hraw, -⟩ :=
    exists_rawTrace storing (fun _ => 0) [oneRecord, oneRecord]
  exact ⟨inverts_storing, _, file, rfl, hraw, by decide,
    not_agree_of_two inverts_storing rfl (by decide) (by decide) hraw⟩

end BulletTime.Consumer
