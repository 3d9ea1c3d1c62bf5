import BulletTime.Consumer.CompressedFile

/-!
# Consumer — Rename

The rename to `output_<tid>.zst`, with every write of `Listen` free to succeed in full, to be short
or to fail.  A session of `Listen` (`Session`) takes buffers until it returns or leaves its loop,
and then runs the code after it.  There are three places it writes at: the whole blocks of a buffer
in the loop, the residue after it and the end of the frame.

* `calls` is history: the bytes each `write` was asked for and the value it returned.  No step
  reads it.
* `Going`: below 64 GB, while the session runs, every write has been complete and the file followed
  by the residue is all the compressor has produced.
* `Going.finish_iff`: the code after the loop looks at the first of its two writes only.
* `renamed_complete_iff`: the suffix says that the file is complete exactly when no end of a frame
  is written short, or not at all, before a rename that succeeds.
-/

namespace BulletTime.Consumer
open PosFile Transition

variable {Z : Zstd}

/-- The outcome leaves nothing of `n` bytes unwritten, and reports no error. -/
def WriteResult.Covers : WriteResult → Nat → Prop
  | .full, _ => True
  | .short m, n => n ≤ m
  | .fail, _ => False

instance (r : WriteResult) (n : Nat) : Decidable (r.Covers n) := by
  cases r <;> unfold WriteResult.Covers <;> infer_instance

/-- A call of `write`: the bytes asked for and the value returned. -/
structure WriteCall where
  asked : Nat
  returned : Int
  deriving DecidableEq

/-- All bytes were written. -/
def WriteCall.Complete (c : WriteCall) : Prop := c.returned = c.asked

namespace Output

/-- The call `write(out_fd, data, data.length)`. -/
def writeCall (o : Output Z) (data : List UInt8) (r : WriteResult) : WriteCall :=
  ⟨data.length, (o.write data r).2⟩

/-- The writes of one round of the loop. -/
def loopCalls (o : Output Z) (payload : List UInt8) (r : WriteResult) : List WriteCall :=
  let c := o.flushInput payload
  if c.2 = none then []
  else if whole c.1.outBuf > 0 then [c.1.writeCall (c.1.outBuf.take (whole c.1.outBuf)) r]
  else []

/-- The output file opened again to append. -/
def appending (o : Output Z) : Output Z := { o with outFd := some ⟨0, true⟩ }

/-- The call that asks for the end of the frame. -/
def askEnd (o : Output Z) (input : List UInt8) : Output Z × Option Nat :=
  { o with ended := true }.compressStream2 .finish input

/-- The state the last write is made in; `none` where `finish` returns before it. -/
def frameEnd (o : Output Z) (input : List UInt8) (r : FinishResults) : Option (Output Z) :=
  let w := o.appending.writeResidue r.residue
  if r.openOk = true ∧ w.2 = true ∧ (w.1.askEnd input).2 = some 0 then some (w.1.askEnd input).1
  else none

/-- The writes of the code after the loop. -/
def finishCalls (o : Output Z) (input : List UInt8) (r : FinishResults) : List WriteCall :=
  if r.openOk then
    o.appending.writeCall o.outBuf r.residue ::
      match o.frameEnd input r with
      | some o => [o.writeCall o.outBuf r.last]
      | none => []
  else []

end Output

open Output

/-- `Listen` with compression on. -/
structure Session (Z : Zstd) where
  out : Output Z
  running : Bool
  calls : List WriteCall

/-- What happens to a session: a buffer with the outcomes of its write and of the re-open, the end
of the loop, or a return from inside it. -/
inductive SessionEvent where
  | buffer (payload : List UInt8) (w : WriteResult) (openOk : Bool)
  | finish (input : List UInt8) (r : FinishResults)
  | giveUp
  deriving DecidableEq

namespace Session

def start (Z : Zstd) : Session Z := ⟨Output.start Z, true, []⟩

/-- One event; none after `Listen` has returned. -/
def step (s : Session Z) (e : SessionEvent) : Option (Session Z) :=
  if s.running then
    match e with
    | .buffer payload w openOk =>
        let p := s.out.processCompressed payload w
        some ⟨if p.2 then p.1.reopen openOk else p.1, p.2, s.calls ++ s.out.loopCalls payload w⟩
    | .finish input r =>
        some ⟨(s.out.finish input r).1, false, s.calls ++ s.out.finishCalls input r⟩
    | .giveUp => some { s with running := false }
  else none

/-- The suffix tells the truth: a renamed file holds every byte the compressor emitted, the end of
the frame included, and no write has been short or has failed. -/
def SuffixTrue (s : Session Z) : Prop :=
  s.out.renamed = true →
    s.out.file = s.out.emitted ∧ s.out.ended = true ∧ ∀ c ∈ s.calls, c.Complete

/-- Where the last write is reached and the rename succeeds, the last write is complete. -/
def LastCovered (s : Session Z) : SessionEvent → Prop
  | .finish input r =>
      ∀ o ∈ s.out.frameEnd input r, r.renameOk = true → r.last.Covers o.outBuf.length
  | .buffer _ _ _ | .giveUp => True

end Session

/-! ### Complete writes -/

namespace Output

variable {o o' : Output Z} {data : List UInt8} {r : WriteResult}

/-- A complete write does what a full one does. -/
theorem write_of_covers (h : r.Covers data.length) : o.write data r = o.write data .full := by
  cases r with
  | full => rfl
  | short m =>
      have ht : data.take m = data := List.take_of_length_le h
      cases ho : o.outFd <;> simp [write, ho, ht]
  | fail => exact h.elim

/-- A descriptor's write returns its length exactly when it is complete. -/
theorem writeCall_complete_iff {d : Fd} (hd : o.outFd = some d) :
    (o.writeCall data r).Complete ↔ r.Covers data.length := by
  simp only [WriteCall.Complete, writeCall]
  cases r with
  | full => simp [write_full _ _ hd, WriteResult.Covers]
  | short m =>
      simp only [write, hd, put, List.length_take, WriteResult.Covers]
      omega
  | fail =>
      simp only [write, hd, WriteResult.Covers, iff_false]
      omega

@[simp] theorem renamed_write : (o.write data r).1.renamed = o.renamed :=
  write_field o data r Output.renamed fun _ _ _ _ => rfl

@[simp] theorem renamed_writeWhole : (o.writeWhole r).1.renamed = o.renamed :=
  writeWhole_field o r Output.renamed (fun _ _ _ _ => rfl) fun _ _ _ _ _ => rfl

@[simp] theorem renamed_processCompressed :
    (o.processCompressed data r).1.renamed = o.renamed := by
  simp only [processCompressed]
  split_ifs <;> simp [flushInput, compressStream2]

@[simp] theorem renamed_writeResidue : (o.writeResidue r).1.renamed = o.renamed :=
  writeResidue_field o r Output.renamed (fun _ _ _ _ => rfl) fun _ _ _ => rfl

@[simp] theorem emitted_processCompressed :
    (o.processCompressed data r).1.emitted = o.emitted ++ o.flushed data := by
  simp only [processCompressed]
  split_ifs <;> simp [flushInput, compressStream2, flushed]

@[simp] theorem emitted_writeResidue : (o.writeResidue r).1.emitted = o.emitted :=
  writeResidue_field o r Output.emitted (fun _ _ _ _ => rfl) fun _ _ _ => rfl

@[simp] theorem renamed_reopen (openOk : Bool) : (o.reopen openOk).renamed = o.renamed :=
  reopen_field o Output.renamed (fun _ _ _ => rfl) openOk

/-- **A round that goes on has written its blocks**: its write is complete. -/
theorem processCompressed_going {d : Fd} (hd : o.outFd = some d)
    (h : o.processCompressed data r = (o', true)) :
    o.processCompressed data .full = (o', true) ∧ ∀ c ∈ o.loopCalls data r, c.Complete := by
  have hd' : (o.flushInput data).1.outFd = some d := hd
  set c := o.flushInput data with hc
  simp only [processCompressed, loopCalls, ← hc] at h ⊢
  split_ifs at h ⊢ with hr hn
  · cases h
  · have hlen : (c.1.outBuf.take (whole c.1.outBuf)).length = whole c.1.outBuf :=
      List.length_take_of_le (whole_le _)
    simp only [writeWhole, if_pos hn] at h ⊢
    split_ifs at h with hw
    · cases h
    · have hcall : (c.1.writeCall (c.1.outBuf.take (whole c.1.outBuf)) r).Complete := by
        simp only [WriteCall.Complete, writeCall, hlen]
        exact not_not.mp hw
      rw [write_of_covers ((writeCall_complete_iff hd').mp hcall)] at h hw
      rw [if_neg hw]
      exact ⟨h, by simpa using hcall⟩
  · exact ⟨by simpa only [writeWhole, if_neg hn] using h, by simp⟩

/-- The residue is written through to the file, or `Listen` returns. -/
theorem writeResidue_going {d : Fd} (hd : o.outFd = some d)
    (h : o.writeResidue r = (o', true)) :
    o.writeResidue .full = (o', true) ∧ (o.writeCall o.outBuf r).Complete := by
  simp only [writeResidue] at h ⊢
  split_ifs at h with hw
  · cases h
  · have hcall : (o.writeCall o.outBuf r).Complete := not_not.mp hw
    rw [write_of_covers ((writeCall_complete_iff hd).mp hcall)] at h hw
    rw [if_neg hw]
    exact ⟨h, hcall⟩

theorem finish_eq (o : Output Z) (input : List UInt8) (f : FinishResults) :
    o.finish input f =
      if f.openOk then
        if (o.appending.writeResidue f.residue).2 then
          (o.appending.writeResidue f.residue).1.endFrame input f.last f.renameOk
        else ((o.appending.writeResidue f.residue).1, false)
      else ({ o with outFd := none }, false) := rfl

theorem endFrame_eq (o : Output Z) (input : List UInt8) (last : WriteResult) (renameOk : Bool) :
    o.endFrame input last renameOk =
      if (o.askEnd input).2 ≠ some 0 then ((o.askEnd input).1, false)
      else
        ({ ((o.askEnd input).1.write (o.askEnd input).1.outBuf last).1 with
            outData := addWord
              ((o.askEnd input).1.write (o.askEnd input).1.outBuf last).1.outData
              ((o.askEnd input).1.write (o.askEnd input).1.outBuf last).2
            outFd := none
            renamed := renameOk }, true) := rfl

/-- **At the end of the frame**: the residue is in the file, and `out_buffer` holds the last of
what the compressor has produced. -/
theorem frameEnd_spec {input : List UInt8} {f : FinishResults}
    (h : o.frameEnd input f = some o') :
    o'.file = o.file ++ o.outBuf ∧ o'.emitted = o.emitted ++ o'.outBuf ∧ o'.ended = true ∧
      (∃ d, o'.outFd = some d ∧ d.append = true) ∧
      (o.appending.writeCall o.outBuf f.residue).Complete := by
  simp only [frameEnd] at h
  generalize hp : o.appending.writeResidue f.residue = p at h
  obtain ⟨o₁, going⟩ := p
  split_ifs at h with hc
  obtain ⟨-, rfl, -⟩ := hc
  obtain rfl := Option.some.inj h
  obtain ⟨hfull, hcall⟩ := writeResidue_going rfl hp
  rw [writeResidue_full rfl rfl] at hfull
  obtain ⟨rfl, -⟩ := Prod.mk.inj hfull
  exact ⟨rfl, rfl, rfl, ⟨_, rfl, rfl⟩, hcall⟩

/-- From there the last write and the rename are all that is left. -/
theorem finish_of_frameEnd {input : List UInt8} {f : FinishResults}
    (h : o.frameEnd input f = some o') :
    (o.finish input f).1.file = (o'.write o'.outBuf f.last).1.file ∧
      (o.finish input f).1.emitted = o'.emitted ∧ (o.finish input f).1.ended = o'.ended ∧
      (o.finish input f).1.renamed = f.renameOk ∧
      o.finishCalls input f =
        [o.appending.writeCall o.outBuf f.residue, o'.writeCall o'.outBuf f.last] := by
  have hcalls : f.openOk = true → o.finishCalls input f =
      [o.appending.writeCall o.outBuf f.residue, o'.writeCall o'.outBuf f.last] := fun hopen => by
    simp only [finishCalls, h, hopen, if_true]
  simp only [frameEnd] at h
  split_ifs at h with hc
  obtain ⟨hopen, hw, hend⟩ := hc
  obtain rfl := Option.some.inj h
  rw [finish_eq, if_pos hopen, if_pos hw, endFrame_eq, if_neg (not_not.mpr hend)]
  exact ⟨rfl, emitted_write _ _ _, ended_write _ _ _, rfl, hcalls hopen⟩

/-- The code after the loop adds to what has been produced. -/
theorem emitted_finish (o : Output Z) (input : List UInt8) (f : FinishResults) :
    o.emitted.length ≤ (o.finish input f).1.emitted.length := by
  rw [finish_eq]
  split_ifs
  · rw [endFrame_eq]
    split_ifs <;> simp [askEnd, compressStream2, appending]
  · simp [appending]
  · exact le_refl _

/-- Short of the end of the frame, no name changes. -/
theorem renamed_finish {input : List UInt8} {f : FinishResults}
    (h : o.frameEnd input f = none) : (o.finish input f).1.renamed = o.renamed := by
  simp only [frameEnd, ite_eq_right_iff, reduceCtorEq, imp_false] at h
  rw [finish_eq]
  split_ifs with hopen hw
  · rw [endFrame_eq, if_pos fun hend => h ⟨hopen, hw, hend⟩]
    exact renamed_writeResidue
  · exact renamed_writeResidue
  · rfl

end Output

namespace Session

variable {s t : Session Z} {e : SessionEvent}

/-! ### One event -/

/-- The session goes on: no name has changed, every write was complete, and the file followed by
the residue is what the compressor has produced. -/
structure Going (s : Session Z) : Prop where
  name : s.out.renamed = false
  calls : ∀ c ∈ s.calls, c.Complete
  stream : s.out.emitted = s.out.file ++ s.out.outBuf
  fd : s.out.outFd = some ⟨s.out.file.length, false⟩
  written : s.out.dataWritten = s.out.file.length

theorem going_start : Going (start Z) where
  name := rfl
  calls := by simp [start]
  stream := rfl
  fd := rfl
  written := rfl

theorem step_eq_some (h : s.step e = some t) : s.running = true := by
  unfold step at h
  split at h
  · assumption
  · cases h

theorem step_buffer {payload : List UInt8} {w : WriteResult} {openOk : Bool}
    (h : s.step (.buffer payload w openOk) = some t) :
    t.running = (s.out.processCompressed payload w).2 ∧
      t.calls = s.calls ++ s.out.loopCalls payload w ∧
      t.out = if t.running then (s.out.processCompressed payload w).1.reopen openOk
        else (s.out.processCompressed payload w).1 := by
  have hs := step_eq_some h
  rw [step, if_pos hs] at h
  cases h
  exact ⟨rfl, rfl, rfl⟩

theorem step_finish {input : List UInt8} {r : FinishResults}
    (h : s.step (.finish input r) = some t) :
    t = ⟨(s.out.finish input r).1, false, s.calls ++ s.out.finishCalls input r⟩ := by
  have hs := step_eq_some h
  rw [step, if_pos hs] at h
  exact (Option.some.inj h).symm

theorem step_giveUp (h : s.step .giveUp = some t) : t = { s with running := false } := by
  have hs := step_eq_some h
  rw [step, if_pos hs] at h
  exact (Option.some.inj h).symm

/-- Whatever becomes of the write, a buffer changes no name and what it makes the compressor
produce is added to the rest. -/
theorem buffer_frame {payload : List UInt8} {w : WriteResult} {openOk : Bool}
    (h : s.step (.buffer payload w openOk) = some t) :
    t.out.renamed = s.out.renamed ∧ t.out.emitted = s.out.emitted ++ s.out.flushed payload := by
  obtain ⟨-, -, hout⟩ := step_buffer h
  rw [hout]
  split <;> simp

/-- **A buffer** after which the session runs keeps the stream. -/
theorem Going.buffer {payload : List UInt8} {w : WriteResult} {openOk : Bool} (hs : Going s)
    (h : s.step (.buffer payload w openOk) = some t) (hrun : t.running = true)
    (hlim : t.out.emitted.length < overwriteLimit) : Going t := by
  obtain ⟨hname, -⟩ := buffer_frame h
  obtain ⟨hgo, hcalls, hout⟩ := step_buffer h
  rw [if_pos hrun] at hout
  rw [hrun] at hgo
  obtain ⟨hfull, hcomplete⟩ := processCompressed_going hs.fd (Prod.ext rfl hgo.symm)
  obtain ⟨he, hf, hfd, hb, hw⟩ := processCompressed_full hs.fd rfl hfull
  set o := (s.out.processCompressed payload w).1
  set buf := s.out.outBuf ++ s.out.flushed payload with hbuf
  rw [Fd.write_atEnd (by simp [Fd.AtEnd, Fd.pos])] at hf
  have hlen : o.file.length = s.out.file.length + whole buf := by
    rw [hf, List.length_append, List.length_take_of_le (whole_le buf)]
  have hstream : o.emitted = o.file ++ o.outBuf := by
    rw [he, hs.stream, hf, hb, List.append_assoc, List.append_assoc, List.take_append_drop]
  -- what has been written has been produced, so that the file is not opened again
  have hno : ¬ o.dataWritten ≥ overwriteLimit := by
    have := congrArg List.length hstream
    rw [hout, emitted_reopen] at hlim
    rw [List.length_append] at this
    rw [hw, hs.written]
    omega
  rw [reopen, if_neg hno] at hout
  refine ⟨hname.trans hs.name, fun c hc => ?_, by rw [hout]; exact hstream, ?_, ?_⟩
  · rw [hcalls, List.mem_append] at hc
    rcases hc with hc | hc
    · exact hs.calls c hc
    · exact hcomplete c hc
  · rw [hout, hfd, hlen]
    simp [Fd.write, Fd.pos, List.length_take_of_le (whole_le buf)]
  · rw [hout, hw, hs.written, hlen]

/-- **The code after the loop looks at its first write only**: what it leaves is complete, or
unnamed, exactly when the last write is complete before a rename that succeeds. -/
theorem Going.finish_iff {input : List UInt8} {r : FinishResults} (hs : Going s)
    (h : s.step (.finish input r) = some t) :
    t.SuffixTrue ↔ s.LastCovered (.finish input r) := by
  obtain rfl := step_finish h
  simp only [SuffixTrue, LastCovered]
  cases hend : s.out.frameEnd input r with
  | none => simp [renamed_finish hend, hs.name]
  | some o =>
      obtain ⟨hf, he, hended, ⟨d, hd, ha⟩, hres⟩ := frameEnd_spec hend
      obtain ⟨hfile, hemit, hend', hname, hcalls⟩ := finish_of_frameEnd hend
      simp only [Option.mem_def, Option.some.injEq, forall_eq', hname, hemit, hend', hended, hfile,
        hcalls, true_and]
      refine forall_congr' fun _ => ⟨fun ⟨_, hall⟩ => ?_, fun hcov => ⟨?_, ?_⟩⟩
      · exact (writeCall_complete_iff hd).mp (hall _ (by simp))
      · rw [write_of_covers hcov, write_full _ _ hd, Fd.write_atEnd (Fd.atEnd_append ha _), hf, he,
          hs.stream]
      · intro c hc
        simp only [List.mem_append, List.mem_cons, List.not_mem_nil, or_false] at hc
        rcases hc with hc | rfl | rfl
        · exact hs.calls c hc
        · exact hres
        · exact (writeCall_complete_iff hd).mpr hcov

/-- What has been produced stays. -/
theorem emitted_step (h : s.step e = some t) : s.out.emitted.length ≤ t.out.emitted.length := by
  cases e with
  | buffer payload w openOk =>
      rw [(buffer_frame h).2, List.length_append]
      exact Nat.le_add_right _ _
  | finish input r =>
      obtain rfl := step_finish h
      exact emitted_finish _ _ _
  | giveUp =>
      obtain rfl := step_giveUp h
      exact le_refl _

/-- **One event**: it leaves a true suffix exactly where it meets the condition, and the session
goes on while it runs. -/
theorem Going.step (hs : Going s) (h : s.step e = some t)
    (hlim : t.out.emitted.length < overwriteLimit) :
    (t.running = true → Going t) ∧ (t.SuffixTrue ↔ s.LastCovered e) := by
  cases e with
  | buffer payload w openOk =>
      refine ⟨fun hrun => hs.buffer h hrun hlim, iff_of_true (fun hname => ?_) trivial⟩
      rw [(buffer_frame h).1, hs.name] at hname
      cases hname
  | finish input r =>
      refine ⟨fun hrun => ?_, hs.finish_iff h⟩
      obtain rfl := step_finish h
      cases hrun
  | giveUp =>
      obtain rfl := step_giveUp h
      refine ⟨fun hrun => (by cases hrun), iff_of_true (fun hname => ?_) trivial⟩
      exact absurd (hs.name.symm.trans hname) (by decide)

/-! ### Whole sessions -/

/-- **The `.zst` name means complete** exactly when, wherever the end of a frame is reached and the
rename succeeds, the end of the frame is written whole: the value of that write is not looked at. -/
theorem renamed_complete_iff {events : List SessionEvent}
    (h : exec step (start Z) events = some s) (hlim : s.out.emitted.length < overwriteLimit) :
    s.SuffixTrue ↔ EveryStep step (start Z) events LastCovered := by
  refine (exec_induction (P := fun events s => s.out.emitted.length < overwriteLimit →
    (s.running = true → Going s) ∧
      (s.SuffixTrue ↔ EveryStep step (start Z) events LastCovered)) (fun _ => ?_)
    (fun events e s t hs ih ht hlim => ?_) h hlim).2
  · exact ⟨fun _ => going_start, iff_of_true (fun hname => by cases hname) everyStep_nil⟩
  · obtain ⟨hgo, htrue⟩ := ih (lt_of_le_of_lt (emitted_step ht) hlim)
    have hs' := hgo (step_eq_some ht)
    obtain ⟨hgo', hiff⟩ := hs'.step ht hlim
    refine ⟨hgo', hiff.trans ?_⟩
    have hname : s.SuffixTrue := fun hname => absurd (hs'.name.symm.trans hname) (by decide)
    rw [everyStep_snoc hs, and_iff_right (htrue.mp hname)]

theorem renamed_complete_iff_storing :
    ∃ s, exec step (start storing)
        [.buffer [1, 2, 3] .full true, .finish [4] ⟨true, .full, .full, true⟩] = some s ∧
      s.out.emitted.length < overwriteLimit ∧
      (s.SuffixTrue ↔ EveryStep step (start storing)
        [.buffer [1, 2, 3] .full true, .finish [4] ⟨true, .full, .full, true⟩] LastCovered) := by
  have hlim : (exec step (start storing) [.buffer [1, 2, 3] .full true,
      .finish [4] ⟨true, .full, .full, true⟩]).map (fun s => s.out.emitted) =
      some [1, 2, 3, 4] := by
    decide +kernel
  obtain ⟨s, hs, he⟩ := Option.map_eq_some_iff.mp hlim
  have hlen : s.out.emitted.length < overwriteLimit := by
    rw [he]
    decide
  exact ⟨s, hs, hlen, renamed_complete_iff hs hlen⟩

/-- The disk is full when the end of the frame is written: the file is renamed all the same. -/
theorem renamed_incomplete :
    ∃ s, exec step (start storing)
        [.buffer [1, 2, 3] .full true, .finish [4] ⟨true, .full, .fail, true⟩] = some s ∧
      s.out.emitted.length < overwriteLimit ∧ s.out.renamed = true ∧ s.out.file ≠ s.out.emitted ∧
      ∃ c ∈ s.calls, ¬ c.Complete := by
  have hrun : (exec step (start storing) [.buffer [1, 2, 3] .full true,
      .finish [4] ⟨true, .full, .fail, true⟩]).map
        (fun s => (s.out.emitted, s.out.renamed, s.out.file, s.calls)) =
      some ([1, 2, 3, 4], true, [1, 2, 3], [⟨3, 3⟩, ⟨1, -1⟩]) := by
    decide +kernel
  obtain ⟨s, hs, he⟩ := Option.map_eq_some_iff.mp hrun
  simp only [Prod.mk.injEq] at he
  obtain ⟨hem, hname, hfile, hcalls⟩ := he
  refine ⟨s, hs, by rw [hem]; decide, hname, by rw [hem, hfile]; decide, ⟨1, -1⟩, ?_, ?_⟩
  · rw [hcalls]
    simp
  · simp [WriteCall.Complete]

end Session

end BulletTime.Consumer
