import BulletTime.Lib.Ring
import BulletTime.Handoff.Presented

/-!
# Consumer — RawFile

The output file with compression off: each buffer is padded with zeroes to a block of
`CONSUMER_BUFFER_SIZE` bytes, in the mapping itself, and after 2^36 bytes the file is opened again
and written over from its beginning.

* `rawStep`: the pintool's copy into the mapping and the round of `Listen` that follows it.
* `block_eq_padded`: the block written is the buffer and its padding, whatever the mapping held.
* `processOut_eq`: the processing of the whole machine is that of these rounds.
* `Ringed`: the file is a ring of blocks, with the descriptor at the next slot.
* `raw_file_is_ring`: every sequence of buffers is written, and each block of the file is the last
  buffer of its slot.
-/

namespace BulletTime.Consumer
open PosFile Transition Output Handoff

variable {Z : Zstd}

/-- A buffer as it stands in the file. -/
def padded (b : TraceBuffer) : List UInt8 :=
  b.bytes ++ List.replicate (consumerBufferSize - b.bytes.length) 0

/-- The mapping after the pintool's `memcpy`. -/
def copyIn (mem : ℕ → UInt8) (b : TraceBuffer) : ℕ → UInt8 := fun j => (b.bytes[j]?).getD (mem j)

/-- The mapping and the output. -/
structure RawState (Z : Zstd) where
  mem : ℕ → UInt8
  out : Output Z

/-- The blocks the file has room for before it is written over. -/
def ringSlots : ℕ := 65536

namespace RawState

def start (Z : Zstd) (mem : ℕ → UInt8) : RawState Z := ⟨mem, Output.start Z⟩

/-- A buffer is copied, padded and written, every write and open succeeding; an empty one is the
stop signal, and not processed. -/
def rawStep (s : RawState Z) (b : TraceBuffer) : Option (RawState Z) :=
  if b.bytes = [] then none
  else
    let mem := pad (copyIn s.mem b) b.bytes.length
    match s.out.processRaw (payload mem consumerBufferSize) .full with
    | (o, true) => some ⟨mem, o.reopen true⟩
    | (_, false) => none

theorem length_padded (b : TraceBuffer) : (padded b).length = consumerBufferSize := by
  rw [padded, List.length_append, List.length_replicate]
  exact Nat.add_sub_cancel' b.fits

theorem payload_copyIn (mem : ℕ → UInt8) (b : TraceBuffer) :
    payload (copyIn mem b) b.bytes.length = b.bytes := by
  refine List.ext_getElem (by rw [payload, List.length_map, List.length_range]) fun j _ hj => ?_
  simp only [payload, List.getElem_map, List.getElem_range, copyIn, List.getElem?_eq_getElem hj,
    Option.getD_some]

/-- **The block written** is the buffer that stands in the mapping, and its padding. -/
theorem block_eq_padded {mem : ℕ → UInt8} {b : TraceBuffer}
    (h : payload mem b.bytes.length = b.bytes) :
    payload (pad mem b.bytes.length) consumerBufferSize = padded b := by
  rw [payload_pad mem b.fits, h]
  rfl

/-- The processing of `Listen` on a buffer that stands in the mapping. -/
theorem processOut_eq (cfg : Config) {s : Sys Z} {b : TraceBuffer}
    (hsize : s.recvData.dataSize = b.bytes.length)
    (hmem : payload s.mem b.bytes.length = b.bytes) (r : WriteResult) :
    s.processOut cfg r =
      if cfg.useCompression then s.out.processCompressed b.bytes r
      else s.out.processRaw (padded b) r := by
  rw [Sys.processOut, hsize, hmem, Sys.padded]
  split_ifs
  · rfl
  · rw [hsize, block_eq_padded hmem]

/-! ### The ring -/

/-- The file is a ring of blocks, and the descriptor is at the slot of the next one. -/
structure Ringed (bufs : List TraceBuffer) (s : RawState Z) : Prop where
  file : ∃ blocks : List (List UInt8), s.out.file = blocks.flatten ∧
    (∀ b ∈ blocks, b.length = consumerBufferSize) ∧
    Ring.Holds ringSlots (bufs.map padded) blocks
  fd : s.out.outFd = some ⟨bufs.length % ringSlots * consumerBufferSize, false⟩
  written : s.out.dataWritten = bufs.length % ringSlots * consumerBufferSize

theorem ringed_start (Z : Zstd) (mem : ℕ → UInt8) : Ringed [] (start Z mem) where
  file := ⟨[], rfl, nofun, Ring.holds_nil _⟩
  fd := rfl
  written := rfl

/-- A block written at the descriptor, and the re-open after the last slot. -/
theorem reopen_processRaw {o : Output Z} {slot : ℕ} {block : List UInt8}
    (hlen : block.length = consumerBufferSize) (hslot : slot < ringSlots)
    (hd : o.outFd = some ⟨slot * consumerBufferSize, false⟩)
    (hw : o.dataWritten = slot * consumerBufferSize) :
    ∃ o', o.processRaw block .full = (o', true) ∧
      (o'.reopen true).file = writeAt 0 o.file (slot * consumerBufferSize) block ∧
      (o'.reopen true).outFd = some ⟨(slot + 1) % ringSlots * consumerBufferSize, false⟩ ∧
      (o'.reopen true).dataWritten = (slot + 1) % ringSlots * consumerBufferSize := by
  have hlimit : overwriteLimit = ringSlots * consumerBufferSize := rfl
  have hproc : o.processRaw block .full =
      ({ o with
          file := writeAt 0 o.file (slot * consumerBufferSize) block
          outFd := some ⟨(slot + 1) * consumerBufferSize, false⟩
          writes := o.writes ++ [⟨slot * consumerBufferSize, block⟩]
          dataWritten := (slot + 1) * consumerBufferSize }, true) := by
    simp only [processRaw, write_full _ _ hd, hlen, ne_eq, not_true_eq_false, if_false, hw,
      Nat.succ_mul, Fd.write, Fd.pos, Bool.false_eq_true]
  refine ⟨_, hproc, ?_⟩
  unfold Output.reopen
  by_cases hlast : slot + 1 = ringSlots
  · have hge : (slot + 1) * consumerBufferSize ≥ overwriteLimit := by rw [hlast, hlimit]
    rw [if_pos hge, hlast, Nat.mod_self, Nat.zero_mul]
    exact ⟨rfl, rfl, rfl⟩
  · have hlt : slot + 1 < ringSlots := Nat.lt_of_le_of_ne hslot hlast
    have hpos : 0 < consumerBufferSize := by decide
    have hnge : ¬ (slot + 1) * consumerBufferSize ≥ overwriteLimit := by
      rw [hlimit]
      exact Nat.not_le.mpr (Nat.mul_lt_mul_of_pos_right hlt hpos)
    rw [if_neg hnge, Nat.mod_eq_of_lt hlt]
    exact ⟨rfl, rfl, rfl⟩

/-- Writing a block at the next slot. -/
theorem writeAt_slot {xs : List (List UInt8)} {blocks : List (List UInt8)}
    (hb : ∀ b ∈ blocks, b.length = consumerBufferSize) (h : Ring.Holds ringSlots xs blocks)
    {block : List UInt8} (hlen : block.length = consumerBufferSize) :
    writeAt 0 blocks.flatten (xs.length % ringSlots * consumerBufferSize) block =
      (Ring.push ringSlots xs.length blocks block).flatten := by
  have hl := h.length
  unfold Ring.push
  split_ifs with hn
  · rw [Nat.mod_eq_of_lt hn, show xs.length = blocks.length by omega]
    exact writeAt_flatten_end hb block
  · have hlt : xs.length % ringSlots < blocks.length := by
      have := Nat.mod_lt xs.length (show 0 < ringSlots by decide)
      omega
    exact writeAt_flatten hb hlt hlen

/-- **One buffer** goes to the next slot. -/
theorem Ringed.step {bufs : List TraceBuffer} {s : RawState Z} (hs : Ringed bufs s)
    {b : TraceBuffer} (hne : b.bytes ≠ []) :
    ∃ t, s.rawStep b = some t ∧ Ringed (bufs ++ [b]) t := by
  obtain ⟨blocks, hfile, hblocks, hring⟩ := hs.file
  have hslots : 0 < ringSlots := by decide
  have hn : (bufs.map padded).length = bufs.length := List.length_map _
  obtain ⟨o, ho, hf, hfd, hw⟩ := reopen_processRaw (length_padded b)
    (Nat.mod_lt bufs.length hslots) hs.fd hs.written
  rw [hfile, ← hn, writeAt_slot hblocks hring (length_padded b)] at hf
  have hnext : (bufs.length % ringSlots + 1) % ringSlots = (bufs ++ [b]).length % ringSlots := by
    rw [List.length_append, List.length_singleton, Nat.mod_add_mod]
  rw [hnext] at hfd hw
  refine ⟨⟨pad (copyIn s.mem b) b.bytes.length, o.reopen true⟩, ?_, ⟨_, hf, ?_, ?_⟩, hfd, hw⟩
  · rw [rawStep, if_neg hne]
    simp only [block_eq_padded (payload_copyIn s.mem b), ho]
  · intro b' hb'
    unfold Ring.push at hb'
    split_ifs at hb'
    · rcases List.mem_append.mp hb' with hb' | hb'
      · exact hblocks b' hb'
      · rw [List.mem_singleton.mp hb']
        exact length_padded b
    · rcases List.mem_or_eq_of_mem_set hb' with hb' | rfl
      · exact hblocks b' hb'
      · exact length_padded b
  · rw [List.map_append, List.map_singleton]
    exact hring.push hslots _

theorem exec_ringed (mem : ℕ → UInt8) {bufs : List TraceBuffer}
    (hne : ∀ b ∈ bufs, b.bytes ≠ []) :
    ∃ s, exec rawStep (start Z mem) bufs = some s ∧ Ringed bufs s := by
  induction bufs using List.reverseRecOn with
  | nil => exact ⟨_, rfl, ringed_start Z mem⟩
  | append_singleton bufs b ih =>
      obtain ⟨s, hs, hr⟩ := ih fun b' hb' => hne b' (List.mem_append_left _ hb')
      obtain ⟨t, ht, hr'⟩ := hr.step (hne b (by simp))
      exact ⟨t, exec_snoc.mpr ⟨s, hs, ht⟩, hr'⟩

/-- **The raw file is a ring of the latest buffers.**  After `n` of them it has `min n 65536`
blocks, and block `k` is the last buffer whose number is `k` modulo 65536, padded with zeroes. -/
theorem raw_file_is_ring (Z : Zstd) (mem : ℕ → UInt8) {bufs : List TraceBuffer}
    (hne : ∀ b ∈ bufs, b.bytes ≠ []) :
    ∃ s, exec rawStep (start Z mem) bufs = some s ∧
      s.out.file.length = min bufs.length 65536 * consumerBufferSize ∧
      ∀ k < min bufs.length 65536, ∀ j b, bufs[j]? = some b → j % 65536 = k →
        (∀ i < bufs.length, i % 65536 = k → i ≤ j) →
        (s.out.file.drop (k * consumerBufferSize)).take consumerBufferSize = padded b := by
  obtain ⟨s, hs, hr⟩ := exec_ringed (Z := Z) mem hne
  obtain ⟨blocks, hfile, hblocks, hring⟩ := hr.file
  have hn : (bufs.map padded).length = bufs.length := List.length_map _
  refine ⟨s, hs, ?_, fun k _ j b hb hj hlast => ?_⟩
  · rw [hfile, length_flatten_blocks hblocks, hring.length, hn]
    rfl
  · obtain ⟨hlt, hbj⟩ := List.getElem?_eq_some_iff.mp hb
    rw [hfile]
    refine take_drop_flatten hblocks ?_
    have hslot := hring.last j (hn ▸ hlt) fun i hi hij => hlast i (hn ▸ hi) (hij.trans hj)
    rw [List.getElem?_map, hb] at hslot
    rw [← hj]
    exact hslot

/-- A buffer of one byte. -/
def singleByte (b : UInt8) : TraceBuffer := ⟨[b], Nat.le_of_ble_eq_true rfl⟩

/-- One buffer more than the file has slots. -/
def oneRoundMore : List TraceBuffer := List.replicate 65536 (singleByte 7) ++ [singleByte 8]

/-- The last buffer stands in the place of the first. -/
theorem raw_file_is_ring_wraps :
    ∃ s, exec rawStep (start storing fun _ => 0) oneRoundMore = some s ∧
      s.out.file.length = 65536 * consumerBufferSize ∧
      (s.out.file.drop (0 * consumerBufferSize)).take consumerBufferSize =
        padded (singleByte 8) := by
  set bufs := oneRoundMore with hbufs
  have hlen : bufs.length = 65537 := by
    rw [hbufs, oneRoundMore, List.length_append, List.length_replicate, List.length_singleton]
  have hne : ∀ b ∈ bufs, b.bytes ≠ [] := by
    intro b hb
    rcases List.mem_append.mp hb with hb | hb
    · rw [List.eq_of_mem_replicate hb]
      exact List.cons_ne_nil 7 []
    · rw [List.mem_singleton.mp hb]
      exact List.cons_ne_nil 8 []
  obtain ⟨s, hs, hsize, hslot⟩ := raw_file_is_ring storing (fun _ => 0) hne
  rw [hlen] at hsize hslot
  refine ⟨s, hs, hsize, hslot 0 (by decide) 65536 (singleByte 8) ?_ (by decide) ?_⟩
  · rw [hbufs, oneRoundMore, List.getElem?_append_right (by rw [List.length_replicate])]
    rw [List.length_replicate]
    rfl
  · intro i hi _
    omega

end RawState

end BulletTime.Consumer
