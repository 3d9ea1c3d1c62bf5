import BulletTime.Handoff.History

/-!
# Handoff — Presented

What the commits are outside the machine's own history, read off what `compressStream2` and `write`
were called with.

* `Fed`: inside the loop the compressor has been given the commits, in order, and `z_in` is used
  up; before the first commit `z_in` spans the whole mapping, and it is this that the end of the
  frame presents.
* `Stored`: with compression off the commits have been written, each padded to a block
  (`payload_pad`).
* `Presented`: in every reachable state the one or the other, and the file is what the writes have
  made it.
-/

namespace BulletTime.Handoff
open BulletTime.Pintool BulletTime.Consumer Transition

variable {Z : Zstd} {cfg : Config} {s t : Sys Z} {a : Action}

/-! ### The mapping -/

theorem length_payload (mem : ℕ → UInt8) (n : ℕ) : (payload mem n).length = n := by
  rw [payload, List.length_map, List.length_range]

/-- The pad begins after the payload. -/
theorem payload_padded (cfg : Config) (s : Sys Z) :
    payload (s.padded cfg) s.recvData.dataSize = payload s.mem s.recvData.dataSize := by
  unfold Sys.padded
  split_ifs
  · rfl
  · refine List.map_congr_left fun j hj => if_neg fun h => ?_
    exact absurd (List.mem_range.mp hj) (Nat.not_lt.mpr h.1)

/-- A payload as it stands in a file without compression. -/
def zeroPadded (bytes : List UInt8) : List UInt8 :=
  bytes ++ List.replicate (consumerBufferSize - bytes.length) 0

/-- **The block written** is the payload and its padding. -/
theorem payload_pad (mem : ℕ → UInt8) {n : ℕ} (hn : n ≤ consumerBufferSize) :
    payload (pad mem n) consumerBufferSize = zeroPadded (payload mem n) := by
  refine List.ext_getElem ?_ fun j hj hj' => ?_
  · rw [zeroPadded, List.length_append, List.length_replicate, length_payload, length_payload]
    exact (Nat.add_sub_cancel' hn).symm
  · rw [length_payload] at hj
    simp only [zeroPadded, payload, List.getElem_map, List.getElem_range, pad]
    rcases Nat.lt_or_ge j n with hlt | hge
    · rw [if_neg fun h => absurd h.1 (Nat.not_le.mpr hlt),
        List.getElem_append_left (by rwa [List.length_map, List.length_range]), List.getElem_map,
        List.getElem_range]
    · rw [if_pos ⟨hge, hj⟩,
        List.getElem_append_right (by rwa [List.length_map, List.length_range]),
        List.getElem_replicate]

/-! ### With compression on -/

structure Fed (s : Sys Z) : Prop where
  nonempty : ∀ c ∈ s.commits, c.bytes ≠ []
  running : s.con.hasReturned = false → s.out.ended = false ∧
    s.out.zIn = if s.commits = [] then ⟨allocationSize, 0⟩ else ⟨s.out.zIn.size, s.out.zIn.size⟩
  open_ : s.out.ended = false → s.out.fed = s.commits.flatMap (·.bytes)
  ended : s.out.ended = true → ∃ tail, s.out.fed = s.commits.flatMap (·.bytes) ++ tail ∧
    tail.length = if s.commits = [] then allocationSize else 0

theorem fed_init (Z : Zstd) (mem : ℕ → UInt8) : Fed (init Z mem) where
  nonempty := nofun
  running := fun _ => ⟨rfl, rfl⟩
  open_ := fun _ => rfl
  ended := nofun

/-- A step that leaves the output and the commits alone. -/
theorem Fed.move (hi : Fed s) (ho : t.out = s.out) (hc : t.commits = s.commits)
    (hr : t.con.hasReturned = false → s.con.hasReturned = false) : Fed t where
  nonempty := by rw [hc]; exact hi.nonempty
  running h := by rw [ho, hc]; exact hi.running (hr h)
  open_ := by rw [ho, hc]; exact hi.open_
  ended := by rw [ho, hc]; exact hi.ended

/-- Processing gives the compressor what it commits. -/
theorem Fed.process (hcfg : cfg.useCompression = true) (hh : History s) (hi : Fed s)
    (hc : s.con = .process) {r : WriteResult} (ho : t.out = (s.processOut cfg r).1)
    (hcm : t.commits = s.commits ++ [s.commit cfg]) : Fed t := by
  have hout : t.out = (s.out.processCompressed (payload s.mem s.recvData.dataSize) r).1 := by
    rw [ho, Sys.processOut, if_pos hcfg]
  have hbytes : (s.commit cfg).bytes = payload s.mem s.recvData.dataSize := payload_padded cfg s
  have hended : t.out.ended = false := by
    rw [hout, Output.ended_processCompressed]
    exact (hi.running (by rw [hc]; rfl)).1
  have hne : t.commits ≠ [] := by rw [hcm]; exact List.append_ne_nil_of_right_ne_nil _ nofun
  refine ⟨fun c hmem => ?_, fun _ => ⟨hended, ?_⟩, fun _ => ?_, fun h => ?_⟩
  · rw [hcm, List.mem_append, List.mem_singleton] at hmem
    rcases hmem with hmem | rfl
    · exact hi.nonempty c hmem
    · rw [hbytes]
      refine List.ne_nil_of_length_pos ?_
      rw [length_payload]
      exact Nat.pos_of_ne_zero (hh.nonempty hc)
  · rw [if_neg hne, hout, Output.zIn_processCompressed]
  · rw [hout, Output.fed_processCompressed, hi.open_ (hi.running (by rw [hc]; rfl)).1, hcm,
      List.flatMap_append, List.flatMap_singleton, hbytes]
  · rw [hended] at h; cases h

/-- The end of the frame presents what `z_in` still spans. -/
theorem Fed.postLoop (hcfg : cfg.useCompression = true) (hi : Fed s) (hc : s.con = .postLoop)
    {r : Output.FinishResults} (ho : t.out = (s.finishOut cfg r).1) (hcm : t.commits = s.commits)
    (hret : t.con.hasReturned = true) : Fed t := by
  obtain ⟨hopen, hz⟩ := hi.running (by rw [hc]; rfl)
  have hout : t.out = (s.out.finish (rest s.mem s.out.zIn) r).1 := by
    rw [ho, Sys.finishOut, if_pos hcfg]
  have hlen : (rest s.mem s.out.zIn).length = if s.commits = [] then allocationSize else 0 := by
    rw [rest, List.length_map, List.length_range', hz]
    split_ifs
    · rfl
    · exact Nat.sub_self _
  have hfed := hi.open_ hopen
  refine ⟨by rw [hcm]; exact hi.nonempty, fun h => ?_, fun h => ?_, fun h => ?_⟩
  · rw [hret] at h; cases h
  · rcases s.out.finish_spec (rest s.mem s.out.zIn) r with ⟨-, hf⟩ | ⟨he, -⟩
    · rw [hout, hf, hcm]; exact hfed
    · rw [hout, he] at h; cases h
  · rcases s.out.finish_spec (rest s.mem s.out.zIn) r with ⟨he, -⟩ | ⟨-, hf⟩
    · rw [hout, he, hopen] at h; cases h
    · exact ⟨_, by rw [hout, hf, hcm, hfed], by rw [hcm]; exact hlen⟩

theorem Fed.fires (hcfg : cfg.useCompression = true) (hh : History s) (hi : Fed s)
    (h : Fires cfg s a t) : Fed t := by
  cases h with
  | processOk hc => exact hi.process hcfg hh hc rfl rfl
  | processFail hc => exact hi.process hcfg hh hc rfl rfl
  | postLoop hc => exact hi.postLoop hcfg hc rfl rfl rfl
  | account hc =>
      obtain ⟨he, hz⟩ := hi.running (by rw [hc]; rfl)
      refine ⟨hi.nonempty, fun _ => ⟨?_, ?_⟩, fun _ => ?_, fun h => ?_⟩
      · rw [Output.ended_reopen]; exact he
      · rw [Output.zIn_reopen]; exact hz
      · rw [Output.fed_reopen]; exact hi.open_ he
      · rw [Output.ended_reopen, he] at h; cases h
  | recordIns | countCall | enter | readSignal | readEof | readError | copyByte | copyDone
  | sendOk | sendFail | threadFini | shutRdy | shutSize | closeRdy | closeSize | createStop
  | seeStop => exact hi.move rfl rfl id
  | stopped hc | loop hc | readyOk hc | readyEpipe hc | readyError hc | recvMessage hc
  | recvEof hc | recvError hc | terminated hc | counted hc | sizeZero hc | sizePos hc =>
      exact hi.move rfl rfl fun _ => by rw [hc]; rfl
  | closeRdyFd | closeSizeFd => exact hi.move rfl rfl nofun

/-! ### With compression off -/

structure Stored (s : Sys Z) : Prop where
  size : s.recvData.dataSize ≤ consumerBufferSize
  /-- A last write that has failed may be short. -/
  blocks : s.aborted = false →
    s.out.writes.map (·.data) = s.commits.map fun c => zeroPadded c.bytes

theorem stored_init (Z : Zstd) (mem : ℕ → UInt8) : Stored (init Z mem) where
  size := Nat.zero_le _
  blocks := fun _ => rfl

/-- A step that leaves the writes and the commits alone. -/
theorem Stored.move (hi : Stored s) (hw : t.out.writes = s.out.writes)
    (hc : t.commits = s.commits) (hd : t.recvData = s.recvData)
    (ha : t.aborted = false → s.aborted = false) : Stored t where
  size := by rw [hd]; exact hi.size
  blocks h := by rw [hw, hc]; exact hi.blocks (ha h)

/-- A message announces a buffer that has been handed off. -/
theorem History.dataSize_le (hi : History s) {m : Metadata} (h : m ∈ s.size.queue) :
    m.dataSize ≤ consumerBufferSize := by
  have hsent : m.dataSize ∈ s.size.sent.map (·.dataSize) :=
    List.mem_map_of_mem (List.mem_append_right _ h)
  rw [hi.announced] at hsent
  obtain ⟨b, -, hb⟩ := List.mem_map.mp hsent
  exact hb ▸ b.fits

theorem Stored.fires (hcfg : cfg.useCompression = false) (he : Ends s) (hh : History s)
    (hi : Stored s) (h : Fires cfg s a t) : Stored t := by
  have hraw : ¬ cfg.useCompression = true := by rw [hcfg]; exact nofun
  cases h with
  | @processOk r hc hw =>
      have hprev := hi.blocks (he.not_aborted (by rw [hc]; rfl))
      have hbytes : (s.commit cfg).bytes = payload s.mem s.recvData.dataSize :=
        payload_padded cfg s
      refine ⟨hi.size, fun _ => ?_⟩
      simp only [Sys.processOut, if_neg hraw] at hw ⊢
      rw [Output.writes_processRaw hw, hprev, List.map_append, List.map_singleton, hbytes,
        Sys.padded, if_neg hraw, payload_pad _ hi.size]
  | processFail => exact ⟨hi.size, nofun⟩
  | postLoop hc =>
      refine hi.move ?_ rfl rfl fun _ => he.not_aborted (by rw [hc]; rfl)
      rw [Sys.finishOut, if_neg hraw]
  | @account _ openOk =>
      exact hi.move (Output.reopen_field s.out (·.writes) (fun _ _ _ => rfl) openOk) rfl rfl id
  | @recvMessage m q hc hq =>
      exact ⟨hh.dataSize_le (hq ▸ List.mem_cons_self), hi.blocks⟩
  | readyError | recvError => exact ⟨hi.size, nofun⟩
  | _ => exact hi.move rfl rfl rfl id

/-! ### Every reachable state -/

/-- What the commits are to the compressor or in the file. -/
structure Presented (cfg : Config) (s : Sys Z) : Prop where
  fed : cfg.useCompression = true → Fed s
  stored : cfg.useCompression = false → Stored s
  file : s.out.Replayed

theorem presented_init (cfg : Config) (Z : Zstd) (mem : ℕ → UInt8) :
    Presented cfg (init Z mem) where
  fed := fun _ => fed_init Z mem
  stored := fun _ => stored_init Z mem
  file := Output.replayed_start Z

/-- Every call on the file is a logged write. -/
theorem replayed_fires (hi : s.out.Replayed) (h : Fires cfg s a t) : t.out.Replayed := by
  cases h with
  | @processOk r | @processFail r =>
      dsimp only [Sys.processOut]
      split_ifs
      · exact hi.processCompressed _ _
      · exact hi.processRaw _ _
  | account => exact hi.reopen _
  | postLoop =>
      dsimp only [Sys.finishOut]
      split_ifs
      · exact hi.finish _ _
      · exact hi
  | _ => exact hi

theorem Presented.fires (he : Ends s) (hh : History s) (hi : Presented cfg s)
    (h : Fires cfg s a t) : Presented cfg t where
  fed hcfg := (hi.fed hcfg).fires hcfg hh h
  stored hcfg := (hi.stored hcfg).fires hcfg he hh h
  file := replayed_fires hi.file h

theorem presented_reachable {mem : ℕ → UInt8} (h : Reachable (step cfg) (init Z mem) s) :
    Presented cfg s := by
  have hI : (Ends s ∧ History s) ∧ Presented cfg s := by
    refine h.invariant (I := fun s => (Ends s ∧ History s) ∧ Presented cfg s)
      ⟨⟨ends_init Z mem, history_init Z mem⟩, presented_init cfg Z mem⟩ fun s a t hi hs => ?_
    have hf := fires_of_step hs
    exact ⟨⟨hi.1.1.fires hf, hi.1.2.fires hi.1.1 hf⟩, hi.2.fires hi.1.1 hi.1.2 hf⟩
  exact hI.2

end BulletTime.Handoff
