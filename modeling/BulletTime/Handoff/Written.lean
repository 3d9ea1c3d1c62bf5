import BulletTime.Consumer.TraceFormat
import BulletTime.Handoff.Feed

/-!
# Handoff — Written

The compressed file `Listen` leaves, where all its calls on the compressor and the file succeed.

* `Succeeds`: the outcomes asked for.
* `Written`: the output is that of the loop over the commits, round by round, and once `Listen` has
  returned the end of the frame was written after them.
* `decompress_file`: below 2^36 bytes the file decompresses to the commits.
-/

namespace BulletTime.Handoff
open BulletTime.Pintool BulletTime.Consumer Transition
open BulletTime.Consumer.Output (flushStep finishOk flushStep_eq_some)

variable {Z : Zstd} {cfg : Config} {s t : Sys Z} {a : Action}

/-- The writes and opens of the output file succeed. -/
def Succeeds : Action → Prop
  | .process r => r = .full
  | .account _ openOk => openOk = true
  | .postLoop r => r = finishOk
  | _ => True

/-- The output at the end of the round: past 64 GB the file is opened again. -/
def Sys.roundOut (s : Sys Z) : Output Z := if s.con = .account then s.out.reopen true else s.out

structure Written (s : Sys Z) : Prop where
  loop : s.con.hasReturned = false →
    exec flushStep (Output.start Z) (s.commits.map (·.bytes)) = some s.roundOut
  finished : s.con.hasReturned = true → s.aborted = false → ∃ o input,
    exec flushStep (Output.start Z) (s.commits.map (·.bytes)) = some o ∧
      o.finish input finishOk = (s.out, true) ∧ (s.commits ≠ [] → input = [])

theorem written_init (Z : Zstd) (mem : ℕ → UInt8) : Written (init Z mem) where
  loop := fun _ => rfl
  finished := nofun

theorem roundOut_of_ne (h : s.con ≠ .account) : s.roundOut = s.out := if_neg h

/-- A step that leaves the output and the commits alone. -/
theorem Written.move (hi : Written s) (ho : t.out = s.out) (hc : t.commits = s.commits)
    (ha : t.aborted = s.aborted) (hret : t.con.hasReturned = s.con.hasReturned)
    (hround : t.con = .account ↔ s.con = .account) : Written t where
  loop h := by
    rw [hc, Sys.roundOut, ho, if_congr hround rfl rfl]
    exact hi.loop (hret ▸ h)
  finished := by
    rw [hc, ho, ha, hret]
    exact hi.finished

/-- A `Listen` that returns from its loop has failed. -/
theorem written_of_aborted (hret : t.con.hasReturned = true) (ha : t.aborted = true) :
    Written t where
  loop h := by
    rw [hret] at h
    cases h
  finished _ h := by
    rw [ha] at h
    cases h

/-- A round that processes and writes is one step of the loop. -/
theorem Written.process (hcfg : cfg.useCompression = true) (hi : Written s) (hp : s.con = .process)
    (hok : (s.processOut cfg .full).2 = true) (ht : t.con = .account)
    (ho : t.out = (s.processOut cfg .full).1) (hc : t.commits = s.commits ++ [s.commit cfg]) :
    Written t where
  loop _ := by
    have hloop := hi.loop (by rw [hp]; rfl)
    rw [roundOut_of_ne (by rw [hp]; exact nofun)] at hloop
    have hbytes : (s.commit cfg).bytes = payload s.mem s.recvData.dataSize := payload_padded cfg s
    rw [Sys.processOut, if_pos hcfg] at hok ho
    rw [hc, List.map_append, List.map_singleton, hbytes, Sys.roundOut, if_pos ht, ho]
    exact exec_snoc.mpr ⟨s.out, hloop, flushStep_eq_some.mpr ⟨_, Prod.ext rfl hok, rfl⟩⟩
  finished h := by
    rw [ht] at h
    cases h

/-- The code after the loop. -/
theorem Written.postLoop (hcfg : cfg.useCompression = true) (hf : Fed s) (hi : Written s)
    (hp : s.con = .postLoop) (hret : t.con = .returned)
    (ho : t.out = (s.finishOut cfg finishOk).1) (ha : t.aborted = !(s.finishOut cfg finishOk).2)
    (hc : t.commits = s.commits) : Written t where
  loop h := by
    rw [hret] at h
    cases h
  finished _ hab := by
    have hloop := hi.loop (by rw [hp]; rfl)
    rw [roundOut_of_ne (by rw [hp]; exact nofun)] at hloop
    rw [ha, Bool.not_eq_false'] at hab
    rw [Sys.finishOut, if_pos hcfg] at ho hab
    refine ⟨s.out, rest s.mem s.out.zIn, hc ▸ hloop, Prod.ext ho.symm hab, fun hne => ?_⟩
    -- `z_in` is used up once a buffer has been flushed
    rw [(hf.running (by rw [hp]; rfl)).2, if_neg (hc ▸ hne)]
    exact rest_end _ _

theorem Written.fires (hcfg : cfg.useCompression = true) (hf : Fed s)
    (hi : Written s) (ha : Succeeds a) (h : Fires cfg s a t) : Written t := by
  cases h with
  | processOk hp hok =>
      obtain rfl := ha
      exact hi.process hcfg hp hok rfl rfl rfl
  | account hp =>
      obtain rfl := ha
      have hloop := hi.loop (by rw [hp]; rfl)
      rw [Sys.roundOut, if_pos hp] at hloop
      exact ⟨fun _ => hloop, nofun⟩
  | postLoop hp =>
      obtain rfl := ha
      exact hi.postLoop hcfg hf hp rfl rfl rfl rfl
  | processFail | readyError | recvError => exact written_of_aborted rfl rfl
  | recordIns | countCall | enter | readSignal | readEof | readError | copyByte | copyDone
  | sendOk | sendFail | threadFini | shutRdy | shutSize | closeRdy | closeSize | createStop
  | seeStop => exact hi.move rfl rfl rfl rfl Iff.rfl
  | stopped hc | loop hc | readyOk hc | readyEpipe hc | recvMessage hc | recvEof hc
  | terminated hc | counted hc | sizeZero hc | sizePos hc =>
      exact hi.move rfl rfl rfl (by rw [hc]; rfl) (iff_of_false nofun (by rw [hc]; exact nofun))
  | closeRdyFd hc | closeSizeFd hc =>
      exact hi.move rfl rfl rfl (by rw [hc]; rfl) (iff_of_false nofun (by rw [hc]; exact nofun))

/-! ### The file -/

/-- What the loop has presented and produced. -/
theorem stream_of_exec {payloads : List (List UInt8)} {o : Output Z}
    (h : exec flushStep (Output.start Z) payloads = some o) :
    Z.Stream o.cctx o.fed o.emitted ∧ o.fed = payloads.flatten := by
  refine exec_induction
    (P := fun ps o => Z.Stream o.cctx o.fed o.emitted ∧ o.fed = ps.flatten) ⟨.start, rfl⟩ ?_ h
  intro ps p o o' _ ho ho'
  obtain ⟨hstream, hfed, -, -⟩ := flushStep_stream ho.1 ho'
  refine ⟨hstream, ?_⟩
  rw [hfed, ho.2, List.flatten_append, List.flatten_singleton]

/-- **The file, decompressed**, is what was committed, if anything was. -/
theorem decompress_file {decompress : List UInt8 → Option (List UInt8)} (hz : Z.Inverts decompress)
    (hi : Written s) (hret : s.con.hasReturned = true) (hab : s.aborted = false)
    (hsize : s.out.emitted.length < overwriteLimit) (hne : s.commits ≠ []) :
    decompress s.out.file = some (s.commits.flatMap (·.bytes)) := by
  obtain ⟨o, input, hloop, hfin, hinput⟩ := hi.finished hret hab
  obtain ⟨ctx, bytes, hc, hfile, hem⟩ := Output.finish_ok hfin
  obtain ⟨hstream, hfed⟩ := stream_of_exec hloop
  have hlt : o.emitted.length < overwriteLimit := by
    rw [hem, List.length_append] at hsize
    exact Nat.lt_of_le_of_lt (Nat.le_add_right _ _) hsize
  rw [hfile, ← (streamed_of_lt hloop hlt).emitted, hz hstream hc, hinput hne, List.append_nil, hfed]
  rfl

end BulletTime.Handoff
