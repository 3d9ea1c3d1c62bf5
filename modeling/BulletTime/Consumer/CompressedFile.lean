import Mathlib.Algebra.BigOperators.Group.List.Basic
import BulletTime.Lib.Transition
import BulletTime.Consumer.Output

/-!
# Consumer — CompressedFile

The compressed output file over any number of buffers, every open and write succeeding.  The file
is written through three descriptors: the one `ReceiverThread` opened, the one of the re-open at
64 GB, which starts again at offset 0, and the appending one of the code after the loop.

* `Streamed`: the file followed by the residue in `out_buffer` is all the compressor has produced,
  and below 64 GB the next write appends.
* `Overwritten`: bytes of the file have been written over; the file then stays shorter than what
  the compressor has produced (`loop_overwritten`).
* `compressed_file_intact_iff`: the renamed file is the compressor's output exactly when no flush
  completes a 4096-byte block once 2^36 bytes have been produced.
-/

namespace BulletTime.Consumer
open PosFile Transition

variable {Z : Zstd}

namespace Output

/-- One round of the compressed loop with its write and its open succeeding; no step where the
compressor reports an error. -/
def flushStep (o : Output Z) (payload : List UInt8) : Option (Output Z) :=
  match o.processCompressed payload .full with
  | (o, true) => some (o.reopen true)
  | (_, false) => none

/-- All system calls after the loop succeed. -/
def finishOk : FinishResults := ⟨true, .full, .full, true⟩

/-- `Listen` with compression on over the buffers `bufs`, up to the rename. -/
def compressedRun (Z : Zstd) (bufs : List (List UInt8)) (input : List UInt8) : Option (Output Z) :=
  (exec flushStep (start Z) bufs).bind fun o =>
    match o.finish input finishOk with
    | (o, true) => some o
    | (_, false) => none

/-- What the compressor produces when `o` flushes `payload`. -/
def flushed (o : Output Z) (payload : List UInt8) : List UInt8 :=
  (Z.compressStream2 o.cctx .flush payload (zstdBufferSize - o.outBuf.length)).2.1

/-! ### One flush -/

theorem whole_le (buf : List UInt8) : whole buf ≤ buf.length := Nat.div_mul_le_self _ _

theorem length_drop_whole (buf : List UInt8) :
    (buf.drop (whole buf)).length = buf.length % ioBlock := by
  rw [List.length_drop, whole, Nat.mod_eq_sub_div_mul]

/-- Writing no byte at the offset of a descriptor moves nothing. -/
theorem write_nil {d : Fd} (ha : d.append = false) (f : List UInt8) : d.write 0 f [] = (f, d) := by
  obtain ⟨off, app⟩ := d
  obtain rfl : app = false := ha
  simp [Fd.write, Fd.pos]

/-- **The write of a flush**: the whole blocks go to the file, the residue stays. -/
theorem writeWhole_full {o : Output Z} {d : Fd} (hd : o.outFd = some d) (h : 0 < whole o.outBuf) :
    o.writeWhole .full =
      ({ o with
          file := (d.write 0 o.file (o.outBuf.take (whole o.outBuf))).1
          outFd := some (d.write 0 o.file (o.outBuf.take (whole o.outBuf))).2
          writes := o.writes ++ [⟨d.pos o.file, o.outBuf.take (whole o.outBuf)⟩]
          dataWritten := o.dataWritten + whole o.outBuf
          outData := addWord o.outData (whole o.outBuf)
          outBuf := o.outBuf.drop (whole o.outBuf)
          moves := o.moves ++ [⟨whole o.outBuf, o.outBuf.length - whole o.outBuf⟩] }, true) := by
  have hlen : (o.outBuf.take (whole o.outBuf)).length = whole o.outBuf :=
    List.length_take_of_le (whole_le _)
  simp only [writeWhole, gt_iff_lt, if_pos h, write_full _ _ hd, hlen, ne_eq, not_true_eq_false,
    if_false]

/-- A flush that completes no block writes nothing. -/
theorem writeWhole_zero {o : Output Z} (h : whole o.outBuf = 0) (r : WriteResult) :
    o.writeWhole r = (o, true) := by
  simp only [writeWhole, h, gt_iff_lt, lt_irrefl, if_false]

/-- What a flush leaves in the file, in `out_buffer` and of the descriptor. -/
theorem writeWhole_spec {o : Output Z} {d : Fd} (hd : o.outFd = some d) (ha : d.append = false) :
    let w := d.write 0 o.file (o.outBuf.take (whole o.outBuf))
    ∃ o', o.writeWhole .full = (o', true) ∧ o'.emitted = o.emitted ∧ o'.file = w.1 ∧
      o'.outFd = some w.2 ∧ o'.outBuf = o.outBuf.drop (whole o.outBuf) ∧
      o'.dataWritten = o.dataWritten + whole o.outBuf := by
  rcases Nat.eq_zero_or_pos (whole o.outBuf) with h | h
  · refine ⟨o, writeWhole_zero h _, rfl, ?_⟩
    rw [h, List.take_zero, write_nil ha]
    exact ⟨rfl, hd, rfl, rfl⟩
  · exact ⟨_, writeWhole_full hd h, rfl, rfl, rfl, rfl, rfl⟩

/-- **One flush**: what the compressor produces joins `out_buffer`, whose whole blocks go to the
file. -/
theorem processCompressed_full {o o' : Output Z} {d : Fd} {payload : List UInt8}
    (hd : o.outFd = some d) (ha : d.append = false)
    (h : o.processCompressed payload .full = (o', true)) :
    let buf := o.outBuf ++ o.flushed payload
    let w := d.write 0 o.file (buf.take (whole buf))
    o'.emitted = o.emitted ++ o.flushed payload ∧ o'.file = w.1 ∧ o'.outFd = some w.2 ∧
      o'.outBuf = buf.drop (whole buf) ∧ o'.dataWritten = o.dataWritten + whole buf := by
  simp only [processCompressed] at h
  split_ifs at h with hr
  · cases h
  · obtain ⟨o₁, h₁, hspec⟩ := writeWhole_spec (o := (o.flushInput payload).1) hd ha
    rw [h₁] at h
    obtain ⟨rfl, -⟩ := Prod.mk.inj h
    exact hspec

theorem flushStep_eq_some {o o' : Output Z} {payload : List UInt8} :
    flushStep o payload = some o' ↔
      ∃ o₁, o.processCompressed payload .full = (o₁, true) ∧ o' = o₁.reopen true := by
  unfold flushStep
  split <;> rename_i e <;> simp [e, eq_comm]

theorem writeResidue_full {o : Output Z} {d : Fd} (hd : o.outFd = some d) (ha : d.append = true) :
    o.writeResidue .full =
      ({ o with
          file := o.file ++ o.outBuf
          outFd := some (d.write 0 o.file o.outBuf).2
          writes := o.writes ++ [⟨o.file.length, o.outBuf⟩]
          outData := addWord o.outData o.outBuf.length
          outBuf := [] }, true) := by
  have hpos : d.pos o.file = o.file.length := Fd.atEnd_append ha o.file
  simp only [writeResidue, write_full _ _ hd, ne_eq, not_true_eq_false, if_false,
    Fd.write_atEnd hpos, hpos]

theorem endFrame_full {o o' : Output Z} {d : Fd} {input : List UInt8} {renameOk : Bool}
    (hd : o.outFd = some d) (ha : d.append = true)
    (h : o.endFrame input .full renameOk = (o', true)) :
    ∃ ctx bytes,
      Z.compressStream2 o.cctx .finish input (zstdBufferSize - o.outBuf.length) =
        (ctx, bytes, some 0) ∧
      o'.file = o.file ++ o.outBuf ++ bytes ∧ o'.emitted = o.emitted ++ bytes := by
  simp only [endFrame] at h
  split_ifs at h with hend
  · cases h
  · have hw := write_full ({ o with ended := true }.compressStream2 .finish input).1
      ({ o with ended := true }.compressStream2 .finish input).1.outBuf hd
    simp only [hw] at h
    obtain ⟨rfl, -⟩ := Prod.mk.inj h
    refine ⟨_, (Z.compressStream2 o.cctx .finish input (zstdBufferSize - o.outBuf.length)).2.1,
      Prod.ext rfl (Prod.ext rfl (not_not.mp hend)), ?_, rfl⟩
    rw [List.append_assoc]
    exact Fd.write_atEnd (Fd.atEnd_append ha o.file) _

/-- **The code after the loop**: the residue and the end of the frame are appended. -/
theorem finish_ok {o o' : Output Z} {input : List UInt8}
    (h : o.finish input finishOk = (o', true)) :
    ∃ ctx bytes, Z.compressStream2 o.cctx .finish input zstdBufferSize = (ctx, bytes, some 0) ∧
      o'.file = o.file ++ o.outBuf ++ bytes ∧ o'.emitted = o.emitted ++ bytes := by
  have hw := writeResidue_full (o := { o with outFd := some ⟨0, true⟩ }) rfl rfl
  simp only [finish, finishOk, if_true, hw] at h
  obtain ⟨ctx, bytes, hc, hf, he⟩ := endFrame_full rfl rfl h
  exact ⟨ctx, bytes, hc, by simpa using hf, he⟩

/-! ### The two kinds of file -/

/-- Nothing has been written over: the file and the residue are the compressor's output, and the
next write appends while the file is below the limit. -/
structure Streamed (o : Output Z) : Prop where
  emitted : o.emitted = o.file ++ o.outBuf
  residue : o.outBuf.length < ioBlock
  blocks : ioBlock ∣ o.file.length
  fd : ∃ off, o.outFd = some ⟨off, false⟩ ∧
    if o.file.length < overwriteLimit then off = o.file.length ∧ o.dataWritten = o.file.length
    else off = 0

/-- Bytes of the file have been written over. -/
structure Overwritten (o : Output Z) : Prop where
  short : o.file.length + o.outBuf.length < o.emitted.length
  fd : ∃ off, o.outFd = some ⟨off, false⟩ ∧ off ≤ o.file.length

/-- Once 2^36 bytes have been produced, this flush completes no further block. -/
def KeepsBlock (o : Output Z) (payload : List UInt8) : Prop :=
  overwriteLimit ≤ o.emitted.length →
    (o.emitted.length + (o.flushed payload).length) / ioBlock = o.emitted.length / ioBlock

theorem streamed_start : Streamed (start Z) where
  emitted := rfl
  residue := Nat.pos_of_ne_zero (by decide)
  blocks := ⟨0, rfl⟩
  fd := ⟨0, rfl, by simp [start]⟩

/-- **One round**: what it leaves in the file, in `out_buffer` and of the descriptor, before and
after the re-open. -/
theorem flushStep_spec {o o' : Output Z} {off : Nat} {payload : List UInt8}
    (hd : o.outFd = some ⟨off, false⟩) (h : flushStep o payload = some o') :
    let buf := o.outBuf ++ o.flushed payload
    let w := (Fd.mk off false).write 0 o.file (buf.take (whole buf))
    o'.emitted = o.emitted ++ o.flushed payload ∧ o'.file = w.1 ∧
      o'.outBuf = buf.drop (whole buf) ∧
      if o.dataWritten + whole buf ≥ overwriteLimit then
        o'.outFd = some ⟨0, false⟩ ∧ o'.dataWritten = 0
      else
        o'.outFd = some ⟨off + whole buf, false⟩ ∧
          o'.dataWritten = o.dataWritten + whole buf := by
  intro buf w
  obtain ⟨o₁, h₁, rfl⟩ := flushStep_eq_some.mp h
  obtain ⟨he, hf, hfd, hb, hw⟩ := processCompressed_full hd rfl h₁
  have hlen : (buf.take (whole buf)).length = whole buf := List.length_take_of_le (whole_le buf)
  have hfd' : o₁.outFd = some ⟨off + whole buf, false⟩ := by
    rw [hfd]; simp only [Fd.write, Fd.pos]; simp [buf, hlen]
  by_cases hlim : o₁.dataWritten ≥ overwriteLimit
  · rw [if_pos (hw ▸ hlim), reopen, if_pos hlim]
    exact ⟨he, hf, hb, rfl, rfl⟩
  · rw [if_neg (hw ▸ hlim), reopen, if_neg hlim]
    exact ⟨he, hf, hb, hfd', hw⟩

/-- The arithmetic of a flush: with `f` bytes in whole blocks and a residue `r`, the produced `e`
bytes complete a block exactly when the residue overflows. -/
theorem blocks_add {f r e : Nat} (hf : ioBlock ∣ f) (hr : r < ioBlock) :
    (f + r + e) / ioBlock = (f + r) / ioBlock ↔ (r + e) / ioBlock = 0 := by
  obtain ⟨k, rfl⟩ := hf
  have hpos : 0 < ioBlock := by decide
  rw [Nat.add_assoc, Nat.mul_add_div hpos, Nat.mul_add_div hpos, Nat.div_eq_of_lt hr]
  omega

/-- Whole blocks reach the limit as soon as whole blocks and residue do. -/
theorem limit_le {f r : Nat} (hf : ioBlock ∣ f) (hr : r < ioBlock)
    (h : overwriteLimit ≤ f + r) : overwriteLimit ≤ f := by
  have hl : ioBlock ∣ overwriteLimit := by decide
  obtain ⟨k, rfl⟩ := hf
  obtain ⟨l, hl⟩ := hl
  rw [hl] at h ⊢
  have hk : l < k + 1 := by
    by_contra hlt
    have : ioBlock * (k + 1) ≤ ioBlock * l := Nat.mul_le_mul_left _ (by omega)
    rw [Nat.mul_add] at this
    omega
  exact Nat.mul_le_mul_left _ (by omega)

theorem length_emitted {o : Output Z} (hs : Streamed o) :
    o.emitted.length = o.file.length + o.outBuf.length := by
  rw [hs.emitted, List.length_append]

/-- **A step that keeps the block keeps the stream.** -/
theorem streamed_step {o o' : Output Z} {payload : List UInt8} (hs : Streamed o)
    (hk : KeepsBlock o payload) (h : flushStep o payload = some o') : Streamed o' := by
  obtain ⟨off, hd, hoff⟩ := hs.fd
  obtain ⟨he, hf, hb, hfd⟩ := flushStep_spec hd h
  set buf := o.outBuf ++ o.flushed payload with hbuf
  have hres : o'.outBuf.length < ioBlock := by
    rw [hb, length_drop_whole]
    exact Nat.mod_lt _ (by decide)
  have hsplit : o'.emitted = o.file ++ (buf.take (whole buf) ++ o'.outBuf) := by
    rw [he, hb, List.take_append_drop, hs.emitted, hbuf, List.append_assoc]
  split_ifs at hoff with hlim
  · -- below the limit the descriptor is at the end and the write appends
    obtain ⟨rfl, hw⟩ := hoff
    rw [Fd.write_atEnd (by simp [Fd.AtEnd, Fd.pos])] at hf
    have hlen : o'.file.length = o.file.length + whole buf := by
      rw [hf, List.length_append, List.length_take_of_le (whole_le buf)]
    refine ⟨by rw [hsplit, hf, List.append_assoc], hres, ?_, ?_⟩
    · rw [hlen]
      exact Nat.dvd_add hs.blocks ⟨_, Nat.mul_comm _ _⟩
    · rw [hw, ← hlen] at hfd
      split_ifs at hfd with hre
      · exact ⟨0, hfd.1, by rw [if_neg (by omega)]⟩
      · exact ⟨_, hfd.1, by rw [if_pos (by omega)]; exact ⟨rfl, hfd.2⟩⟩
  · -- past the limit the hypothesis says that nothing is written
    subst hoff
    have hE := length_emitted hs
    have hw : whole buf = 0 := by
      have := hk (by omega)
      rw [hE, blocks_add hs.blocks hs.residue] at this
      rw [whole, hbuf, List.length_append, this, Nat.zero_mul]
    rw [hw, List.take_zero, write_nil rfl] at hf
    refine ⟨by rw [hsplit, hf, hw]; rfl, hres, hf ▸ hs.blocks, ?_⟩
    rw [hw] at hfd
    refine ⟨0, by split_ifs at hfd <;> exact hfd.1, ?_⟩
    rw [hf, if_neg hlim]

/-- The lengths after a round whose descriptor is inside the file. -/
theorem flushStep_lengths {o o' : Output Z} {off : Nat} {payload : List UInt8}
    (hd : o.outFd = some ⟨off, false⟩) (hoff : off ≤ o.file.length)
    (h : flushStep o payload = some o') :
    let n := whole (o.outBuf ++ o.flushed payload)
    o'.file.length ≤ o.file.length + n ∧
      (off < o.file.length → 0 < n → o'.file.length < o.file.length + n) ∧
      o'.outBuf.length + n = o.outBuf.length + (o.flushed payload).length ∧
      o'.emitted.length = o.emitted.length + (o.flushed payload).length ∧
      ∃ off', o'.outFd = some ⟨off', false⟩ ∧ off' ≤ o'.file.length := by
  intro n
  obtain ⟨he, hf, hb, hfd⟩ := flushStep_spec hd h
  have hn : n ≤ o.outBuf.length + (o.flushed payload).length :=
    le_of_le_of_eq (whole_le _) List.length_append
  have hlen : ((o.outBuf ++ o.flushed payload).take n).length = n :=
    List.length_take_of_le (whole_le _)
  have hpos : (Fd.mk off false).pos o.file ≤ o.file.length := hoff
  refine ⟨?_, fun hlt hn0 => ?_, ?_, by rw [he, List.length_append], ?_⟩
  · have := Fd.length_write_le (z := 0) hpos ((o.outBuf ++ o.flushed payload).take n)
    rwa [hlen, ← hf] at this
  · -- a write from inside the file covers some of it
    have hne : (o.outBuf ++ o.flushed payload).take n ≠ [] := fun e => by
      rw [e, List.length_nil] at hlen
      omega
    have := Fd.length_write_lt (z := 0) (d := ⟨off, false⟩) hlt hne
    rwa [hlen, ← hf] at this
  · rw [hb, List.length_drop, List.length_append]
    exact Nat.sub_add_cancel hn
  · have hle : off + n ≤ o'.file.length := by
      have := Fd.pos_write_le (z := 0) hpos ((o.outBuf ++ o.flushed payload).take n)
      rw [← hf] at this
      simp only [Fd.pos, Fd.write, Bool.false_eq_true, if_false, hlen] at this
      exact this
    split_ifs at hfd
    · exact ⟨0, hfd.1, Nat.zero_le _⟩
    · exact ⟨_, hfd.1, hle⟩

/-- **A block completed past the limit is written over the file's beginning.** -/
theorem overwritten_of_streamed {o o' : Output Z} {payload : List UInt8} (hs : Streamed o)
    (hk : ¬ KeepsBlock o payload) (h : flushStep o payload = some o') : Overwritten o' := by
  obtain ⟨off, hd, hoff⟩ := hs.fd
  have hE := length_emitted hs
  simp only [KeepsBlock, Classical.not_imp] at hk
  obtain ⟨hlim, hblk⟩ := hk
  have hfile : overwriteLimit ≤ o.file.length :=
    limit_le hs.blocks hs.residue (le_of_le_of_eq hlim hE)
  rw [if_neg (by omega)] at hoff
  subst hoff
  obtain ⟨-, hlt, hres, hem, hfd⟩ := flushStep_lengths hd (Nat.zero_le _) h
  have hn : 0 < whole (o.outBuf ++ o.flushed payload) := by
    rw [hE, blocks_add hs.blocks hs.residue, ← List.length_append] at hblk
    exact Nat.mul_pos (Nat.pos_of_ne_zero hblk) (Nat.pos_of_ne_zero (by decide))
  have hpos : 0 < o.file.length :=
    lt_of_lt_of_le (Nat.pos_of_ne_zero (by decide)) hfile
  have := hlt hpos hn
  exact ⟨by omega, hfd⟩

/-- **An overwritten file stays too short.** -/
theorem overwritten_step {o o' : Output Z} {payload : List UInt8} (hs : Overwritten o)
    (h : flushStep o payload = some o') : Overwritten o' := by
  obtain ⟨off, hd, hoff⟩ := hs.fd
  obtain ⟨hle, -, hres, hem, hfd⟩ := flushStep_lengths hd hoff h
  have := hs.short
  exact ⟨by omega, hfd⟩

/-! ### The loop -/

section Loop
variable {bufs : List (List UInt8)} {o : Output Z}

theorem loop_streamed (hk : EveryStep flushStep (start Z) bufs KeepsBlock)
    (h : exec flushStep (start Z) bufs = some o) : Streamed o :=
  hk.invariant streamed_start (fun _ _ _ hs hk h => streamed_step hs hk h) h

theorem loop_overwritten (hk : ¬ EveryStep flushStep (start Z) bufs KeepsBlock)
    (h : exec flushStep (start Z) bufs = some o) : Overwritten o := by
  refine SomeStep.reaches (I := fun o => Streamed o ∨ Overwritten o) (.inl streamed_start)
    (fun o b o' hs h => ?_) (fun o b o' hs hk h => ?_) (fun o b o' _ hs h => overwritten_step hs h)
    (not_everyStep.mp hk) h
  · rcases hs with hs | hs
    · by_cases hk : KeepsBlock o b
      · exact .inl (streamed_step hs hk h)
      · exact .inr (overwritten_of_streamed hs hk h)
    · exact .inr (overwritten_step hs h)
  · rcases hs with hs | hs
    · exact overwritten_of_streamed hs hk h
    · exact overwritten_step hs h

end Loop

theorem compressedRun_eq_some {bufs : List (List UInt8)} {input : List UInt8} {o : Output Z} :
    compressedRun Z bufs input = some o ↔
      ∃ o₁, exec flushStep (start Z) bufs = some o₁ ∧ o₁.finish input finishOk = (o, true) := by
  rw [compressedRun, Option.bind_eq_some_iff]
  refine exists_congr fun o₁ => and_congr_right fun _ => ?_
  split <;> rename_i e <;> simp [e]

/-- An overwritten file is not the compressor's output. -/
theorem Overwritten.file_ne {o o' : Output Z} {input : List UInt8} (hs : Overwritten o)
    (h : o.finish input finishOk = (o', true)) : o'.file ≠ o'.emitted := by
  obtain ⟨-, bytes, -, hf, he⟩ := finish_ok h
  intro e
  have hlen := congrArg List.length e
  rw [hf, he] at hlen
  simp only [List.length_append] at hlen
  have := hs.short
  omega

/-- **The compressed trace is one intact stream** exactly when no flush completes a block once 2^36
bytes have been produced: past the limit the loop writes at the beginning of the file again. -/
theorem compressed_file_intact_iff (bufs : List (List UInt8)) (input : List UInt8)
    {o : Output Z} (h : compressedRun Z bufs input = some o) :
    o.file = o.emitted ↔ EveryStep flushStep (start Z) bufs KeepsBlock := by
  obtain ⟨o₁, hl, hf⟩ := compressedRun_eq_some.mp h
  constructor
  · intro e
    by_contra hk
    exact (loop_overwritten hk hl).file_ne hf e
  · intro hk
    obtain ⟨-, bytes, -, hf, he⟩ := finish_ok hf
    rw [hf, he, (loop_streamed hk hl).emitted]

/-! ### With the storing compressor -/

theorem compressed_file_intact_iff_storing :
    ∃ o, compressedRun storing [[1, 2, 3], [4]] [] = some o ∧
      (o.file = o.emitted ↔ EveryStep flushStep (start storing) [[1, 2, 3], [4]] KeepsBlock) :=
  ⟨_, rfl, compressed_file_intact_iff _ _ rfl⟩

theorem flushStep_storing {o : Output storing} {off : Nat} (hd : o.outFd = some ⟨off, false⟩)
    (payload : List UInt8) : ∃ o', flushStep o payload = some o' := by
  obtain ⟨o₁, h₁, -⟩ := writeWhole_spec (o := (o.flushInput payload).1) hd rfl
  have hok : (o.flushInput payload).2 ≠ none := by simp [flushInput, compressStream2, storing]
  have h : o.processCompressed payload .full = (o.flushInput payload).1.writeWhole .full := by
    rw [processCompressed, if_neg hok]
  rw [h₁] at h
  exact ⟨_, flushStep_eq_some.mpr ⟨_, h, rfl⟩⟩

/-- A stored run never fails, and produces what it is given. -/
theorem exec_storing (bufs : List (List UInt8)) :
    ∃ o, exec flushStep (start storing) bufs = some o ∧ o.emitted = bufs.flatten ∧
      ∃ off, o.outFd = some ⟨off, false⟩ := by
  induction bufs using List.reverseRecOn with
  | nil => exact ⟨_, rfl, rfl, 0, rfl⟩
  | append_singleton bufs b ih =>
      obtain ⟨o, ho, he, off, hd⟩ := ih
      obtain ⟨o', ho'⟩ := flushStep_storing hd b
      obtain ⟨he', -, -, hfd⟩ := flushStep_spec hd ho'
      refine ⟨o', exec_snoc.mpr ⟨o, ho, ho'⟩, ?_, ?_⟩
      · rw [he', he, List.flatten_append, List.flatten_singleton]
        rfl
      · split_ifs at hfd <;> exact ⟨_, hfd.1⟩

theorem finish_storing (o : Output storing) : ∃ o', o.finish [] finishOk = (o', true) := by
  have hw := writeResidue_full (o := { o with outFd := some ⟨0, true⟩ }) rfl rfl
  have hc : ∀ o : Output storing, (o.compressStream2 .finish []).2 = some 0 := fun _ => rfl
  simp only [finish, finishOk, if_true, hw, endFrame, hc, ne_eq, not_true_eq_false, if_false]
  exact ⟨_, rfl⟩

/-- 65537 incompressible buffers of 1 MB each: the last one is written over the first. -/
theorem compressed_file_overwritten :
    ∃ o, compressedRun storing (List.replicate 65537 (List.replicate (2 ^ 20) 0)) [] = some o ∧
      o.file ≠ o.emitted := by
  set b : List UInt8 := List.replicate (2 ^ 20) 0 with hb
  have hblen : b.length = 2 ^ 20 := List.length_replicate
  obtain ⟨o, ho, he, off, hd⟩ := exec_storing (List.replicate 65537 b)
  obtain ⟨p, hp, hpe, -⟩ := exec_storing (List.replicate 65536 b)
  have hplen : p.emitted.length = 2 ^ 36 := by
    rw [hpe, List.length_flatten, List.map_replicate, List.sum_replicate, hblen]
    rfl
  have hover : Overwritten o := by
    refine loop_overwritten (fun hk => ?_) ho
    have := hk (List.replicate 65536 b) b [] p List.replicate_succ' hp (le_of_eq hplen.symm)
    have hfl : (p.flushed b).length = 2 ^ 20 := hblen
    rw [hplen, hfl] at this
    exact absurd this (by decide)
  obtain ⟨o', hfin⟩ := finish_storing o
  exact ⟨o', compressedRun_eq_some.mpr ⟨o, ho, hfin⟩, hover.file_ne hfin⟩

end Output

end BulletTime.Consumer
