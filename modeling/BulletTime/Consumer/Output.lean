import Mathlib.Data.List.Basic
import Mathlib.Data.Int.Basic
import Mathlib.Tactic.SplitIfs
import BulletTime.Common
import BulletTime.Lib.PosFile

/-!
# Consumer — Output

What `Listen` does to a processed buffer and to its output file: the flush of a buffer through the
compressor (`processCompressed`), the raw block (`processRaw`), the re-open at 64 GB (`reopen`) and
the code after the loop (`finish`).  Each write and each open takes its outcome as an argument; the
compressor is a parameter (`Zstd`), any function that appends bytes at `z_out.pos`.

`ended`, `fed`, `emitted`, `writes` and `moves` are history: whether the frame's end was asked for,
the bytes presented to `ZSTD_compressStream2` and the bytes it produced, what each call of `write`
put into the file, and the residues copied to the beginning of `out_buffer`.  No definition reads
them.
-/

namespace BulletTime.Consumer
open PosFile

/-- Bytes written after which `Listen` opens its file again: `(size_t)1 << 36`. -/
def overwriteLimit : Nat := 2 ^ 36

/-- The block size direct I/O needs. -/
def ioBlock : Nat := 4096

/-! ### The compressor -/

/-- `ZSTD_e_flush` and `ZSTD_e_end`. -/
inductive EndDirective where
  | flush
  | finish
  deriving DecidableEq

/-- The compressor.  A call on a context is given the directive, the input from `z_in.pos` to
`z_in.size`, which it consumes, and the room left in the output buffer; it appends bytes at
`z_out.pos` and returns what remains to be flushed, or `none` where `ZSTD_isError` holds. -/
structure Zstd where
  Ctx : Type
  createCCtx : Ctx
  compressStream2 : Ctx → EndDirective → List UInt8 → Nat → Ctx × List UInt8 × Option Nat

/-- A compressor whose every call produces the bytes it is given. -/
def storing : Zstd where
  Ctx := Unit
  createCCtx := ()
  compressStream2 _ _ input _ := ((), input, some 0)

/-- `ZSTD_inBuffer` over the shared mapping. -/
structure InBuffer where
  size : Nat
  pos : Nat
  deriving DecidableEq

/-- The outcome of a `write`: all bytes, fewer, or an error. -/
inductive WriteResult where
  | full
  | short (n : Nat)
  | fail
  deriving DecidableEq

/-- What a `write` has put into the file, and where. -/
structure FileWrite where
  offset : Nat
  data : List UInt8
  deriving DecidableEq

/-- The content of the file after the writes. -/
def replay (ws : List FileWrite) : List UInt8 :=
  ws.foldl (fun f w => writeAt 0 f w.offset w.data) []

theorem replay_append (ws : List FileWrite) (w : FileWrite) :
    replay (ws ++ [w]) = writeAt 0 (replay ws) w.offset w.data :=
  List.foldl_append

/-- `memcpy(out_buffer, out_buffer + source, size)`. -/
structure Move where
  source : Nat
  size : Nat
  deriving DecidableEq

/-- The part of `Listen`'s state its output goes through. -/
structure Output (Z : Zstd) where
  cctx : Z.Ctx
  zIn : InBuffer
  /-- `out_buffer[0, z_out.pos)`. -/
  outBuf : List UInt8
  /-- `none` when an `open` has returned -1. -/
  outFd : Option Fd
  file : List UInt8
  dataWritten : Nat
  /-- `in_data` and `out_data` are `uint64_t`. -/
  inData : Nat
  outData : Nat
  renamed : Bool
  /-- `ZSTD_e_end` has been called. -/
  ended : Bool
  fed : List UInt8
  emitted : List UInt8
  writes : List FileWrite
  moves : List Move

namespace Output

variable {Z : Zstd}

/-- The state `Listen` enters its loop with, over the empty file `ReceiverThread` has opened. -/
def start (Z : Zstd) : Output Z where
  cctx := Z.createCCtx
  zIn := ⟨allocationSize, 0⟩
  outBuf := []
  outFd := some ⟨0, false⟩
  file := []
  dataWritten := 0
  inData := 0
  outData := 0
  renamed := false
  ended := false
  fed := []
  emitted := []
  writes := []
  moves := []

/-- `data` goes to the file through `d`. -/
def put (o : Output Z) (d : Fd) (data : List UInt8) : Output Z × Int :=
  let w := d.write 0 o.file data
  ({ o with
      file := w.1
      outFd := some w.2
      writes := o.writes ++ [⟨d.pos o.file, data⟩] }, data.length)

/-- `write(out_fd, data, data.length)` and the value it returns. -/
def write (o : Output Z) (data : List UInt8) (r : WriteResult) : Output Z × Int :=
  match o.outFd, r with
  | none, _ | some _, .fail => (o, -1)
  | some d, .full => o.put d data
  | some d, .short n => o.put d (data.take n)

/-- One call of `ZSTD_compressStream2` on `input`; `none` where it reports an error. -/
def compressStream2 (o : Output Z) (dir : EndDirective) (input : List UInt8) :
    Output Z × Option Nat :=
  let c := Z.compressStream2 o.cctx dir input (zstdBufferSize - o.outBuf.length)
  ({ o with
      cctx := c.1
      zIn := { o.zIn with pos := o.zIn.size }
      outBuf := o.outBuf ++ c.2.1
      fed := o.fed ++ input
      emitted := o.emitted ++ c.2.1 }, c.2.2)

/-- `z_out.pos` rounded down to a 4 KB boundary. -/
def whole (buf : List UInt8) : Nat := buf.length / ioBlock * ioBlock

/-- Write the whole blocks of the output buffer and move the residue to its beginning; the flag is
`false` where `Listen` returns. -/
def writeWhole (o : Output Z) (r : WriteResult) : Output Z × Bool :=
  let newSize := whole o.outBuf
  if newSize > 0 then
    let w := o.write (o.outBuf.take newSize) r
    if w.2 ≠ newSize then (w.1, false)
    else
      ({ w.1 with
          dataWritten := w.1.dataWritten + newSize
          outData := addWord w.1.outData newSize
          outBuf := w.1.outBuf.drop newSize
          moves := w.1.moves ++ [⟨newSize, w.1.outBuf.length - newSize⟩] }, true)
  else (o, true)

/-- `z_in` is set to the payload and flushed through the compressor. -/
def flushInput (o : Output Z) (payload : List UInt8) : Output Z × Option Nat :=
  { o with
    inData := addWord o.inData payload.length
    zIn := ⟨payload.length, 0⟩ }.compressStream2 .flush payload

/-- The compressed branch of the loop body on the payload `shared_mem[0, data_size)`. -/
def processCompressed (o : Output Z) (payload : List UInt8) (r : WriteResult) : Output Z × Bool :=
  let c := o.flushInput payload
  if c.2 = none then (c.1, false) else c.1.writeWhole r

/-- The raw branch on `block`, the first `CONSUMER_BUFFER_SIZE` bytes of the padded mapping. -/
def processRaw (o : Output Z) (block : List UInt8) (r : WriteResult) : Output Z × Bool :=
  let w := o.write block r
  if w.2 ≠ block.length then (w.1, false)
  else ({ w.1 with dataWritten := w.1.dataWritten + block.length }, true)

/-- The end of the loop body: past 64 GB the file is opened again, at offset 0 and untruncated. -/
def reopen (o : Output Z) (openOk : Bool) : Output Z :=
  if o.dataWritten ≥ overwriteLimit then
    { o with outFd := if openOk then some ⟨0, false⟩ else none, dataWritten := 0 }
  else o

/-- The outcomes of the system calls after the loop. -/
structure FinishResults where
  openOk : Bool
  residue : WriteResult
  last : WriteResult
  renameOk : Bool
  deriving DecidableEq

/-- After the loop: all data in the output buffer is written. -/
def writeResidue (o : Output Z) (r : WriteResult) : Output Z × Bool :=
  let w := o.write o.outBuf r
  if w.2 ≠ o.outBuf.length then (w.1, false)
  else ({ w.1 with outData := addWord w.1.outData o.outBuf.length, outBuf := [] }, true)

/-- The end of the frame on `input`, which is `shared_mem[z_in.pos, z_in.size)`, and the rename.
The write's return value is not looked at, and -1 after an error is added to `out_data`. -/
def endFrame (o : Output Z) (input : List UInt8) (last : WriteResult) (renameOk : Bool) :
    Output Z × Bool :=
  let c := { o with ended := true }.compressStream2 .finish input
  if c.2 ≠ some 0 then (c.1, false)
  else
    let w := c.1.write c.1.outBuf last
    ({ w.1 with
        outData := addWord w.1.outData w.2
        outFd := none
        renamed := renameOk }, true)

/-- The code after the loop with compression on: the file is opened again to append. -/
def finish (o : Output Z) (input : List UInt8) (r : FinishResults) : Output Z × Bool :=
  if r.openOk then
    let w := { o with outFd := some ⟨0, true⟩ }.writeResidue r.residue
    if w.2 then w.1.endFrame input r.last r.renameOk else (w.1, false)
  else ({ o with outFd := none }, false)

/-! ### What the calls leave alone -/

section Frame
variable (o : Output Z) (data : List UInt8) (r : WriteResult)

theorem write_full {d : Fd} (h : o.outFd = some d) :
    o.write data .full =
      ({ o with
          file := (d.write 0 o.file data).1
          outFd := some (d.write 0 o.file data).2
          writes := o.writes ++ [⟨d.pos o.file, data⟩] }, (data.length : Int)) := by
  simp only [write, h, put]

/-! A field is left alone by a call if it does not look at what the call writes. -/

section Field
variable {α : Type*} (f : Output Z → α)

theorem write_field
    (hf : ∀ (o : Output Z) l d v, f { o with file := l, outFd := d, writes := v } = f o) :
    f (o.write data r).1 = f o := by
  simp only [write]
  split
  · rfl
  · rfl
  · exact hf ..
  · exact hf ..

theorem writeWhole_field
    (hf : ∀ (o : Output Z) l d v, f { o with file := l, outFd := d, writes := v } = f o)
    (hw : ∀ (o : Output Z) n m b v,
      f { o with dataWritten := n, outData := m, outBuf := b, moves := v } = f o) :
    f (o.writeWhole r).1 = f o := by
  have hwrite := write_field o (o.outBuf.take (whole o.outBuf)) r f hf
  simp only [writeWhole]
  split_ifs
  · exact hwrite
  · exact (hw ..).trans hwrite
  · rfl

theorem reopen_field (hf : ∀ (o : Output Z) d n, f { o with outFd := d, dataWritten := n } = f o)
    (openOk : Bool) : f (o.reopen openOk) = f o := by
  rw [reopen]
  split
  · exact hf ..
  · rfl

theorem writeResidue_field
    (hf : ∀ (o : Output Z) l d v, f { o with file := l, outFd := d, writes := v } = f o)
    (hw : ∀ (o : Output Z) m b, f { o with outData := m, outBuf := b } = f o) :
    f (o.writeResidue r).1 = f o := by
  have hwrite := write_field o o.outBuf r f hf
  simp only [writeResidue]
  split_ifs
  · exact hwrite
  · exact (hw ..).trans hwrite

end Field

@[simp] theorem fed_write : (o.write data r).1.fed = o.fed :=
  write_field o data r Output.fed fun _ _ _ _ => rfl

@[simp] theorem emitted_write : (o.write data r).1.emitted = o.emitted :=
  write_field o data r Output.emitted fun _ _ _ _ => rfl

@[simp] theorem zIn_write : (o.write data r).1.zIn = o.zIn :=
  write_field o data r Output.zIn fun _ _ _ _ => rfl

@[simp] theorem outBuf_write : (o.write data r).1.outBuf = o.outBuf :=
  write_field o data r Output.outBuf fun _ _ _ _ => rfl

@[simp] theorem cctx_write : (o.write data r).1.cctx = o.cctx :=
  write_field o data r Output.cctx fun _ _ _ _ => rfl

@[simp] theorem ended_write : (o.write data r).1.ended = o.ended :=
  write_field o data r Output.ended fun _ _ _ _ => rfl

@[simp] theorem fed_writeWhole : (o.writeWhole r).1.fed = o.fed :=
  writeWhole_field o r Output.fed (fun _ _ _ _ => rfl) fun _ _ _ _ _ => rfl

@[simp] theorem emitted_writeWhole : (o.writeWhole r).1.emitted = o.emitted :=
  writeWhole_field o r Output.emitted (fun _ _ _ _ => rfl) fun _ _ _ _ _ => rfl

@[simp] theorem zIn_writeWhole : (o.writeWhole r).1.zIn = o.zIn :=
  writeWhole_field o r Output.zIn (fun _ _ _ _ => rfl) fun _ _ _ _ _ => rfl

@[simp] theorem cctx_writeWhole : (o.writeWhole r).1.cctx = o.cctx :=
  writeWhole_field o r Output.cctx (fun _ _ _ _ => rfl) fun _ _ _ _ _ => rfl

@[simp] theorem ended_writeWhole : (o.writeWhole r).1.ended = o.ended :=
  writeWhole_field o r Output.ended (fun _ _ _ _ => rfl) fun _ _ _ _ _ => rfl

@[simp] theorem fed_reopen (openOk : Bool) : (o.reopen openOk).fed = o.fed :=
  reopen_field o Output.fed (fun _ _ _ => rfl) openOk

@[simp] theorem emitted_reopen (openOk : Bool) : (o.reopen openOk).emitted = o.emitted :=
  reopen_field o Output.emitted (fun _ _ _ => rfl) openOk

@[simp] theorem zIn_reopen (openOk : Bool) : (o.reopen openOk).zIn = o.zIn :=
  reopen_field o Output.zIn (fun _ _ _ => rfl) openOk

@[simp] theorem cctx_reopen (openOk : Bool) : (o.reopen openOk).cctx = o.cctx :=
  reopen_field o Output.cctx (fun _ _ _ => rfl) openOk

@[simp] theorem ended_reopen (openOk : Bool) : (o.reopen openOk).ended = o.ended :=
  reopen_field o Output.ended (fun _ _ _ => rfl) openOk

@[simp] theorem ended_processCompressed : (o.processCompressed data r).1.ended = o.ended := by
  simp only [processCompressed]
  split_ifs <;> simp [flushInput, compressStream2]

/-- Whatever becomes of the compressor and the write, the payload has been presented whole. -/
@[simp] theorem fed_processCompressed : (o.processCompressed data r).1.fed = o.fed ++ data := by
  simp only [processCompressed]
  split_ifs <;> simp [flushInput, compressStream2]

/-- After a flush nothing of the mapping is left to present. -/
@[simp] theorem zIn_processCompressed :
    (o.processCompressed data r).1.zIn = ⟨data.length, data.length⟩ := by
  simp only [processCompressed]
  split_ifs <;> simp [flushInput, compressStream2]

@[simp] theorem fed_writeResidue : (o.writeResidue r).1.fed = o.fed :=
  writeResidue_field o r Output.fed (fun _ _ _ _ => rfl) fun _ _ _ => rfl

@[simp] theorem ended_writeResidue : (o.writeResidue r).1.ended = o.ended :=
  writeResidue_field o r Output.ended (fun _ _ _ _ => rfl) fun _ _ _ => rfl

/-- Asking for the end of the frame presents the rest of the input, whatever comes of it. -/
theorem endFrame_spec (renameOk : Bool) :
    (o.endFrame data r renameOk).1.ended = true ∧
      (o.endFrame data r renameOk).1.fed = o.fed ++ data := by
  simp only [endFrame]
  split_ifs <;> simp [compressStream2]

/-- After the loop either the end of the frame is not asked for, or the rest of the input is
presented. -/
theorem finish_spec (f : FinishResults) :
    ((o.finish data f).1.ended = o.ended ∧ (o.finish data f).1.fed = o.fed) ∨
      ((o.finish data f).1.ended = true ∧ (o.finish data f).1.fed = o.fed ++ data) := by
  simp only [finish]
  split_ifs
  · refine .inr ?_
    have h := endFrame_spec ({ o with outFd := some ⟨0, true⟩ }.writeResidue f.residue).1
      data f.last f.renameOk
    rw [fed_writeResidue] at h
    exact h
  · exact .inl ⟨by simp, by simp⟩
  · exact .inl ⟨rfl, rfl⟩

end Frame

/-! ### The file is what the writes have made it -/

section Replayed
variable {o : Output Z}

/-- The file is what the logged writes leave of an empty one. -/
def Replayed (o : Output Z) : Prop := o.file = replay o.writes

theorem replayed_start (Z : Zstd) : (start Z).Replayed := rfl

theorem Replayed.put (h : o.Replayed) (d : Fd) (data : List UInt8) : (o.put d data).1.Replayed := by
  have happ := replay_append o.writes ⟨d.pos o.file, data⟩
  rw [← h] at happ
  exact happ.symm

theorem Replayed.write (h : o.Replayed) (data : List UInt8) (r : WriteResult) :
    (o.write data r).1.Replayed := by
  simp only [Output.write]
  split
  · exact h
  · exact h
  · exact h.put _ _
  · exact h.put _ _

theorem Replayed.writeWhole (h : o.Replayed) (r : WriteResult) : (o.writeWhole r).1.Replayed := by
  simp only [Output.writeWhole]
  split_ifs
  · exact h.write _ _
  · exact h.write _ _
  · exact h

theorem Replayed.processCompressed (h : o.Replayed) (data : List UInt8) (r : WriteResult) :
    (o.processCompressed data r).1.Replayed := by
  have hflush : (o.flushInput data).1.Replayed := h
  simp only [Output.processCompressed]
  split_ifs
  · exact hflush
  · exact hflush.writeWhole r

theorem Replayed.processRaw (h : o.Replayed) (block : List UInt8) (r : WriteResult) :
    (o.processRaw block r).1.Replayed := by
  simp only [Output.processRaw]
  split_ifs
  · exact h.write _ _
  · exact h.write _ _

theorem Replayed.reopen (h : o.Replayed) (openOk : Bool) : (o.reopen openOk).Replayed := by
  rw [Output.reopen]
  split
  · exact h
  · exact h

theorem Replayed.writeResidue (h : o.Replayed) (r : WriteResult) :
    (o.writeResidue r).1.Replayed := by
  simp only [Output.writeResidue]
  split_ifs
  · exact h.write _ _
  · exact h.write _ _

theorem Replayed.endFrame (h : o.Replayed) (input : List UInt8) (last : WriteResult)
    (renameOk : Bool) : (o.endFrame input last renameOk).1.Replayed := by
  have hask : ({ o with ended := true }.compressStream2 .finish input).1.Replayed := h
  simp only [Output.endFrame]
  split_ifs
  · exact hask
  · exact hask.write _ _

theorem Replayed.finish (h : o.Replayed) (input : List UInt8) (f : FinishResults) :
    (o.finish input f).1.Replayed := by
  have hopen : ({ o with outFd := some ⟨0, true⟩ } : Output Z).Replayed := h
  simp only [Output.finish]
  split_ifs
  · exact (hopen.writeResidue _).endFrame _ _ _
  · exact hopen.writeResidue _
  · exact h

end Replayed

/-- A raw block that lets the loop go on has been written whole. -/
theorem writes_processRaw {o : Output Z} {block : List UInt8} {r : WriteResult}
    (h : (o.processRaw block r).2 = true) :
    (o.processRaw block r).1.writes.map (·.data) = o.writes.map (·.data) ++ [block] := by
  simp only [processRaw] at h ⊢
  by_cases hw : (o.write block r).2 ≠ block.length
  · rw [if_pos hw] at h
    cases h
  · rw [if_neg hw]
    rw [ne_eq, not_not] at hw
    cases hd : o.outFd with
    | none =>
        simp only [write, hd] at hw
        omega
    | some d =>
        cases r with
        | full => simp [write, hd, put]
        | fail =>
            simp only [write, hd] at hw
            omega
        | short n =>
            simp only [write, hd, put, List.length_take] at hw
            have htake : block.take n = block := List.take_of_length_le (by omega)
            simp [write, hd, put, htake]

end Output

end BulletTime.Consumer
