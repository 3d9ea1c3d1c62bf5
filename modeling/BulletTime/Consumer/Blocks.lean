import BulletTime.Consumer.CompressedFile

/-!
# Consumer — Blocks

The writes of the compressed loop, for direct I/O: whole blocks of 4096 bytes at offsets that are
whole blocks, with what is left of a block kept at the beginning of `out_buffer`.

* `blockStep`: a round of the loop, whose re-open may fail.
* `Aligned`: what holds at every head of the loop, for every compressor, of the calls of `write`
  and `memcpy` so far.
* `processCompressed_spec`: what one flush leaves in `out_buffer`, in `out_data` and of the
  descriptor, and the calls it makes.
* `blocks_aligned`: every state of the loop is aligned, also past the re-open at 64 GB, whether it
  succeeds or not.
-/

namespace BulletTime.Consumer
open PosFile Transition

variable {Z : Zstd}

namespace Output

variable {o o' : Output Z} {payload : List UInt8}

/-- A round: a payload, its write succeeding in full, and the outcome of the re-open. -/
def blockStep (o : Output Z) (a : List UInt8 × Bool) : Option (Output Z) :=
  match o.processCompressed a.1 .full with
  | (o, true) => some (o.reopen a.2)
  | (_, false) => none

theorem blockStep_eq_some {a : List UInt8 × Bool} : o.blockStep a = some o' ↔
    ∃ o₁, o.processCompressed a.1 .full = (o₁, true) ∧ o' = o₁.reopen a.2 := by
  unfold blockStep
  split <;> rename_i e <;> simp [e, eq_comm]

/-- **The loop head.**  There is room for all but a block's residue; the writes are whole blocks at
whole blocks; no residue was moved onto itself; the bytes written and the residue are the
compressor's output; `out_data` counts the bytes written, on its 64 bits; the file is what the
writes have made it. -/
structure Aligned (o : Output Z) : Prop where
  pos_lt : o.outBuf.length < ioBlock
  room : allocationSize - 4095 ≤ zstdBufferSize - o.outBuf.length
  fits : ∀ payload, (o.flushed payload).length ≤ allocationSize - 4095 →
    (o.flushInput payload).1.outBuf.length ≤ zstdBufferSize
  length : ∀ w ∈ o.writes, ioBlock ∣ w.data.length
  offset : ∀ w ∈ o.writes, ioBlock ∣ w.offset
  apart : ∀ v ∈ o.moves, v.size ≤ v.source
  stream : o.writes.flatMap (·.data) ++ o.outBuf = o.emitted
  outData : o.outData = (o.writes.map (·.data.length)).sum % 2 ^ 64
  file : o.Replayed

/-- The descriptor, where there is one, is at a whole block. -/
def FdAligned (o : Output Z) : Prop :=
  ∀ d, o.outFd = some d → d.append = false ∧ ioBlock ∣ d.offset

/-- With less than a block in it, `out_buffer` has the room. -/
theorem room_of_pos_lt (h : o.outBuf.length < ioBlock) :
    allocationSize - 4095 ≤ zstdBufferSize - o.outBuf.length ∧
      ∀ payload, (o.flushed payload).length ≤ allocationSize - 4095 →
        (o.flushInput payload).1.outBuf.length ≤ zstdBufferSize := by
  have hblock : ioBlock = 4096 := rfl
  have hsize : zstdBufferSize = allocationSize := rfl
  have halloc : 4095 ≤ allocationSize := by decide
  refine ⟨by omega, fun payload hp => ?_⟩
  have hbuf : (o.flushInput payload).1.outBuf = o.outBuf ++ o.flushed payload := rfl
  rw [hbuf, List.length_append]
  omega

/-! ### One flush -/

/-- A write of a block through no descriptor fails, and with it the round. -/
theorem whole_eq_zero_of_none (hfd : o.outFd = none) (h : o.writeWhole .full = (o', true)) :
    whole o.outBuf = 0 := by
  simp only [writeWhole] at h
  split_ifs at h with hw hne
  · cases h
  · have hret : ((o.write (o.outBuf.take (whole o.outBuf)) .full).2 : ℤ) = -1 := by
      simp only [Output.write, hfd]
    omega
  · omega

/-- **One flush**: either no block is complete and nothing is written or moved, or the whole blocks
are written where the descriptor is and the residue behind them is moved. -/
theorem processCompressed_spec (hfd : FdAligned o)
    (h : o.processCompressed payload .full = (o', true)) :
    let buf := o.outBuf ++ o.flushed payload
    o'.emitted = o.emitted ++ o.flushed payload ∧ o'.outBuf = buf.drop (whole buf) ∧
      ((whole buf = 0 ∧ o'.outData = o.outData ∧ o'.outFd = o.outFd ∧ o'.writes = o.writes ∧
          o'.moves = o.moves) ∨
        (0 < whole buf ∧ o'.outData = addWord o.outData (whole buf) ∧
          ∃ d, o.outFd = some d ∧ o'.outFd = some { d with offset := d.offset + whole buf } ∧
            o'.writes = o.writes ++ [⟨d.offset, buf.take (whole buf)⟩] ∧
            o'.moves = o.moves ++ [⟨whole buf, buf.length - whole buf⟩])) := by
  intro buf
  simp only [processCompressed] at h
  split_ifs at h
  · cases h
  · rcases Nat.eq_zero_or_pos (whole buf) with h0 | hpos
    · rw [writeWhole_zero (o := (o.flushInput payload).1) h0] at h
      obtain ⟨rfl, -⟩ := Prod.mk.inj h
      exact ⟨rfl, by rw [h0]; rfl, .inl ⟨h0, rfl, rfl, rfl, rfl⟩⟩
    · cases hd : o.outFd with
      | none =>
          have h0 := whole_eq_zero_of_none (o := (o.flushInput payload).1) hd h
          exact absurd h0 (Nat.ne_of_gt hpos)
      | some d =>
          obtain ⟨ha, -⟩ := hfd d hd
          have hdpos : d.pos o.file = d.offset := by rw [Fd.pos, ha]; rfl
          have hlen : (buf.take (whole buf)).length = whole buf :=
            List.length_take_of_le (whole_le buf)
          rw [writeWhole_full (o := (o.flushInput payload).1) hd hpos] at h
          obtain ⟨rfl, -⟩ := Prod.mk.inj h
          refine ⟨rfl, rfl, .inr ⟨hpos, rfl, d, rfl, ?_, ?_, rfl⟩⟩
          · exact congrArg some (congrArg (fun n => { d with offset := n })
              (congrArg₂ (· + ·) hdpos hlen))
          · exact congrArg (fun n => o.writes ++ [⟨n, buf.take (whole buf)⟩]) hdpos

/-! ### The loop -/

theorem aligned_start (Z : Zstd) : Aligned (start Z) := by
  have hpos : (start Z).outBuf.length < ioBlock := Nat.pos_of_ne_zero (by decide)
  obtain ⟨hroom, hfits⟩ := room_of_pos_lt hpos
  exact ⟨hpos, hroom, hfits, nofun, nofun, nofun, rfl, rfl, rfl⟩

theorem fdAligned_start (Z : Zstd) : FdAligned (start Z) := by
  intro d hd
  obtain rfl := Option.some.inj hd
  exact ⟨rfl, Nat.dvd_zero _⟩

theorem dvd_whole (buf : List UInt8) : ioBlock ∣ whole buf := ⟨_, Nat.mul_comm _ _⟩

/-- A residue is less than a block, and a write is at least one. -/
theorem residue_le {buf : List UInt8} (h : 0 < whole buf) : buf.length - whole buf ≤ whole buf := by
  have hlt : buf.length % ioBlock < ioBlock := Nat.mod_lt _ (by decide)
  have hle := Nat.le_of_dvd h (dvd_whole buf)
  rw [whole] at hle ⊢
  rw [← Nat.mod_eq_sub_div_mul]
  omega

theorem FdAligned.processCompressed (hfd : FdAligned o)
    (h : o.processCompressed payload .full = (o', true)) : FdAligned o' := by
  obtain ⟨-, -, ⟨-, -, hd, -⟩ | ⟨-, -, d, hd, hd', -⟩⟩ := processCompressed_spec hfd h
  · rwa [FdAligned, hd]
  · obtain ⟨ha, hoff⟩ := hfd d hd
    intro e he
    rw [hd'] at he
    obtain rfl := Option.some.inj he
    exact ⟨ha, Nat.dvd_add hoff (dvd_whole _)⟩

/-- A re-open begins the file again, at offset 0. -/
theorem FdAligned.reopen (h : FdAligned o) (openOk : Bool) : FdAligned (o.reopen openOk) := by
  unfold Output.reopen
  by_cases hlim : o.dataWritten ≥ overwriteLimit
  · rw [if_pos hlim]
    intro d hd
    obtain ⟨-, hd⟩ := Option.ite_none_right_eq_some.mp hd
    obtain rfl := Option.some.inj hd
    exact ⟨rfl, Nat.dvd_zero _⟩
  · rw [if_neg hlim]
    exact h

theorem Aligned.processCompressed (hs : Aligned o) (hfd : FdAligned o)
    (h : o.processCompressed payload .full = (o', true)) : Aligned o' := by
  obtain ⟨hem, hbuf, hcalls⟩ := processCompressed_spec hfd h
  have hfile : o'.Replayed := by
    have hrep := hs.file.processCompressed payload .full
    rwa [h] at hrep
  set buf := o.outBuf ++ o.flushed payload with hbuf_def
  have hpos : o'.outBuf.length < ioBlock := by
    rw [hbuf, length_drop_whole]
    exact Nat.mod_lt _ (by decide)
  obtain ⟨hroom, hfits⟩ := room_of_pos_lt hpos
  rcases hcalls with ⟨h0, hdata, -, hw, hm⟩ | ⟨hwhole, hdata, d, hd, -, hw, hm⟩
  · rw [h0, List.drop_zero] at hbuf
    refine ⟨hpos, hroom, hfits, by rw [hw]; exact hs.length, by rw [hw]; exact hs.offset,
      by rw [hm]; exact hs.apart, ?_, by rw [hw, hdata]; exact hs.outData, hfile⟩
    rw [hw, hem, ← hs.stream, hbuf, hbuf_def, List.append_assoc]
  · have hlen : (buf.take (whole buf)).length = whole buf := List.length_take_of_le (whole_le buf)
    refine ⟨hpos, hroom, hfits, fun w hw' => ?_, fun w hw' => ?_, fun v hv => ?_, ?_, ?_, hfile⟩
    · rw [hw, List.mem_append, List.mem_singleton] at hw'
      rcases hw' with hw' | rfl
      · exact hs.length w hw'
      · exact (congrArg (ioBlock ∣ ·) hlen).mpr (dvd_whole buf)
    · rw [hw, List.mem_append, List.mem_singleton] at hw'
      rcases hw' with hw' | rfl
      · exact hs.offset w hw'
      · exact (hfd d hd).2
    · rw [hm, List.mem_append, List.mem_singleton] at hv
      rcases hv with hv | rfl
      · exact hs.apart v hv
      · exact residue_le hwhole
    · rw [hw, hem, ← hs.stream, hbuf, List.flatMap_append, List.flatMap_singleton,
        List.append_assoc, List.take_append_drop, hbuf_def, List.append_assoc]
    · rw [hw, hdata, hs.outData, addWord_natCast, Nat.mod_add_mod, List.map_append, List.sum_append,
        List.map_singleton, List.sum_singleton, hlen]

/-- The re-open changes the descriptor and the count of bytes to the next one. -/
theorem Aligned.reopen (hs : Aligned o) (openOk : Bool) : Aligned (o.reopen openOk) := by
  unfold Output.reopen
  split
  · exact ⟨hs.pos_lt, hs.room, hs.fits, hs.length, hs.offset, hs.apart, hs.stream, hs.outData,
      hs.file⟩
  · exact hs

/-- **Flushing block by block keeps every byte and stays aligned**, at every head of the loop, for
every compressor and any payloads. -/
theorem blocks_aligned (h : Reachable blockStep (start Z) o) : Aligned o := by
  refine (h.invariant (I := fun o => Aligned o ∧ FdAligned o)
    ⟨aligned_start Z, fdAligned_start Z⟩ fun o a o' hs h => ?_).1
  obtain ⟨o₁, h₁, rfl⟩ := blockStep_eq_some.mp h
  exact ⟨(hs.1.processCompressed hs.2 h₁).reopen a.2, (hs.2.processCompressed h₁).reopen a.2⟩

/-- Two blocks and a residue of 808 bytes, three bytes that complete none, and a third block. -/
def threeBlocks : List (List UInt8 × Bool) :=
  [(List.replicate 9000 1, true), ([2, 3, 4], true), (List.replicate 4000 5, false)]

theorem blocks_aligned_storing : ∃ o : Output storing,
    exec blockStep (start storing) threeBlocks = some o ∧
      o.writes.map (fun w => (w.offset, w.data.length)) = [(0, 8192), (8192, 4096)] ∧
      o.outBuf.length = 715 ∧ Aligned o := by
  have hrun : (exec blockStep (start storing) threeBlocks).map (fun o =>
      (o.writes.map (fun w => (w.offset, w.data.length)), o.outBuf.length)) =
        some ([(0, 8192), (8192, 4096)], 715) := by
    decide +kernel
  obtain ⟨o, ho, hr⟩ := Option.map_eq_some_iff.mp hrun
  obtain ⟨hw, hb⟩ := Prod.mk.inj hr
  exact ⟨o, ho, hw, hb, blocks_aligned ⟨threeBlocks, ho⟩⟩

end Output

end BulletTime.Consumer
