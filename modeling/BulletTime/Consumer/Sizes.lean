import Mathlib.Algebra.BigOperators.Group.List.Basic
import BulletTime.Consumer.Rename

/-!
# Consumer — Sizes

The two numbers of the final compression ratio.  Each session of `Listen` counts the bytes it is
handed in `in_data` and the bytes it has written in `out_data`, and `ReceiverThread` adds them to
`in_size` and `out_size`, however `Listen` returns.

* `inData_eq`: what a session is handed is counted, whatever becomes of it.
* `Credited`: what is written is counted as it is written.
* `outData_iff`: `out_data` is the length of the file exactly when every write has been credited.
* `ratio_sizes`: the numbers printed are those of all sessions and of all files.

`[about the source]`: a write that is cut short in the loop is in the file and not in `out_data`;
one that fails at the end of the frame takes 1 from it.
-/

namespace BulletTime.Consumer
open PosFile Transition

variable {Z : Zstd}

namespace Output

variable {o o' : Output Z} {data : List UInt8} {r : WriteResult}

@[simp] theorem inData_write : (o.write data r).1.inData = o.inData :=
  write_field o data r Output.inData fun _ _ _ _ => rfl

@[simp] theorem outData_write : (o.write data r).1.outData = o.outData :=
  write_field o data r Output.outData fun _ _ _ _ => rfl

@[simp] theorem inData_writeWhole : (o.writeWhole r).1.inData = o.inData :=
  writeWhole_field o r Output.inData (fun _ _ _ _ => rfl) fun _ _ _ _ _ => rfl

@[simp] theorem inData_writeResidue : (o.writeResidue r).1.inData = o.inData :=
  writeResidue_field o r Output.inData (fun _ _ _ _ => rfl) fun _ _ _ => rfl

@[simp] theorem inData_reopen (openOk : Bool) : (o.reopen openOk).inData = o.inData :=
  reopen_field o Output.inData (fun _ _ _ => rfl) openOk

@[simp] theorem inData_processCompressed :
    (o.processCompressed data r).1.inData = addWord o.inData data.length := by
  simp only [processCompressed]
  split_ifs <;> simp [flushInput, compressStream2]

theorem inData_finish (o : Output Z) (input : List UInt8) (f : FinishResults) :
    (o.finish input f).1.inData = o.inData := by
  rw [finish_eq]
  split_ifs
  · rw [endFrame_eq]
    split_ifs <;> simp [askEnd, compressStream2, appending]
  · simp [appending]
  · rfl

/-- A write at the end of the file makes it grow by what it returns; an error leaves it. -/
theorem length_write (data : List UInt8) (r : WriteResult) {d : Fd}
    (hd : o.outFd = some d) (hend : d.AtEnd o.file) :
    (o.write data r).1.file.length = o.file.length + (o.write data r).2.toNat := by
  cases r with
  | full => simp [write, hd, put, Fd.write_atEnd hend]
  | short n =>
    simp only [write, hd, put, Fd.write_atEnd hend, List.length_append, Int.toNat_natCast]
  | fail => simp [write, hd]

/-- What a round does to `out_data`: where it goes on, the same as to `data_written`; where it
stops, nothing, and the file has grown by the write that was not complete, if there was one. -/
theorem processCompressed_sizes (data : List UInt8) (r : WriteResult) {d : Fd}
    (hd : o.outFd = some d) (hend : d.AtEnd o.file) :
    ((o.processCompressed data r).2 = true → o.outData < 2 ^ 64 →
      ∃ n, (o.processCompressed data r).1.dataWritten = o.dataWritten + n ∧
        (o.processCompressed data r).1.outData = addWord o.outData n) ∧
    ((o.processCompressed data r).2 = false →
      (o.processCompressed data r).1.outData = o.outData ∧
        ((o.processCompressed data r).1.file.length = o.file.length ∧ o.loopCalls data r = [] ∨
          ∃ c, o.loopCalls data r = [c] ∧ ¬ c.Complete ∧
            (o.processCompressed data r).1.file.length = o.file.length + c.returned.toNat)) := by
  have hfile : (o.flushInput data).1.file = o.file := rfl
  have hdata : (o.flushInput data).1.outData = o.outData := rfl
  have hwritten : (o.flushInput data).1.dataWritten = o.dataWritten := rfl
  have hd' : (o.flushInput data).1.outFd = some d := hd
  simp only [processCompressed, loopCalls]
  generalize o.flushInput data = c at hfile hdata hwritten hd'
  split_ifs with herr hwhole
  · exact ⟨False.elim, fun _ => ⟨hdata, .inl ⟨congrArg List.length hfile, rfl⟩⟩⟩
  · have hgrow := length_write (c.1.outBuf.take (whole c.1.outBuf)) r hd' (hfile ▸ hend)
    have hout : (c.1.write (c.1.outBuf.take (whole c.1.outBuf)) r).1.outData = c.1.outData :=
      outData_write
    have hlen : (c.1.outBuf.take (whole c.1.outBuf)).length = whole c.1.outBuf :=
      List.length_take_of_le (whole_le _)
    simp only [writeWhole, if_pos hwhole]
    split_ifs with hw
    · refine ⟨False.elim, fun _ => ⟨hout.trans hdata, .inr ⟨_, rfl, ?_, ?_⟩⟩⟩
      · rw [WriteCall.Complete, writeCall, hlen]
        exact hw
      · rw [hgrow, hfile]
        rfl
    · refine ⟨fun _ _ => ⟨whole c.1.outBuf, ?_, ?_⟩, by simp⟩
      · have hdw := write_field c.1 (c.1.outBuf.take (whole c.1.outBuf)) r Output.dataWritten
          fun _ _ _ _ => rfl
        exact congrArg (· + whole c.1.outBuf) (hdw.trans hwritten)
      · exact congrArg (addWord · (whole c.1.outBuf)) (hout.trans hdata)
  · simp only [writeWhole, if_neg hwhole]
    refine ⟨fun _ hlt => ⟨0, hwritten, ?_⟩, by simp⟩
    rw [hdata, addWord_of_lt (b := 0) hlt, Nat.add_zero]

/-- What the residue's write does to `out_data`. -/
theorem writeResidue_sizes {d : Fd} (hd : o.outFd = some d) (hend : d.AtEnd o.file) :
    (o.writeResidue r).1.file.length =
        o.file.length + (o.writeCall o.outBuf r).returned.toNat ∧
      ((o.writeResidue r).2 = true ↔ (o.writeCall o.outBuf r).Complete) ∧
      (o.writeResidue r).1.outData =
        if (o.writeResidue r).2 then addWord o.outData o.outBuf.length else o.outData := by
  have hgrow := length_write o.outBuf r hd hend
  have hout : (o.write o.outBuf r).1.outData = o.outData := outData_write
  rw [WriteCall.Complete, writeCall]
  by_cases hw : (o.write o.outBuf r).2 = o.outBuf.length
  · simp only [writeResidue, hw, ne_eq, not_true_eq_false, if_false, if_true]
    exact ⟨hw ▸ hgrow, trivial, congrArg (addWord · o.outBuf.length) hout⟩
  · simp only [writeResidue, ne_eq, hw, not_false_eq_true, if_true, Bool.false_eq_true, if_false]
    exact ⟨hgrow, trivial, hout⟩

end Output

/-- The write is counted as it is made: in the loop and for the residue, all of it or nothing has
gone to the file; at the end of the frame it has not failed. -/
def WriteCall.Credited (ended : Bool) (c : WriteCall) : Prop :=
  if ended then 0 ≤ c.returned else c.Complete ∨ c.returned ≤ 0

theorem WriteCall.Complete.credited {c : WriteCall} (h : c.Complete) (ended : Bool) :
    c.Credited ended := by
  cases ended with
  | false => exact Or.inl h
  | true =>
      rw [Credited, if_pos rfl, h]
      exact Int.natCast_nonneg _

namespace Output

variable {o : Output Z} {input : List UInt8} {f : FinishResults}

/-- What is still in `out_buffer` fits in the counter. -/
theorem addWord_residue (hout : o.outData = o.file.length)
    (hstream : o.emitted = o.file ++ o.outBuf)
    (hlim : (o.finish input f).1.emitted.length < overwriteLimit) :
    addWord o.outData o.outBuf.length = o.file.length + o.outBuf.length := by
  have hle := emitted_finish o input f
  rw [hstream, List.length_append] at hle
  rw [hout, addWord_of_lt]
  exact (hle.trans_lt hlim).trans (by decide)

/-- The last write is in `out_data` as it is in the file unless it fails. -/
theorem addWord_eq_iff {n : ℕ} {k : ℤ} (hk : -1 ≤ k) (hlim : n + k.toNat < 2 ^ 64) :
    addWord n k = n + k.toNat ↔ 0 ≤ k := by
  unfold addWord
  omega

theorem returned_write (o : Output Z) (data : List UInt8) (r : WriteResult) :
    -1 ≤ (o.write data r).2 ∧ (o.write data r).2 ≤ data.length := by
  unfold write
  split <;> simp only [put] <;> (try rw [List.length_take]) <;> omega

/-- The frame can be ended: the last write is all there is to look at. -/
theorem frameEnd_sizes (hout : o.outData = o.file.length)
    (hstream : o.emitted = o.file ++ o.outBuf) (h : o.frameEnd input f = some o')
    (hlim : (o.finish input f).1.emitted.length < overwriteLimit) :
    (o.finish input f).1.outData = (o.finish input f).1.file.length ↔
      ∀ c ∈ o.finishCalls input f, c.Credited (o.finish input f).1.ended := by
  obtain ⟨hfile, hemit, hended, ⟨d, hd, ha⟩, hres⟩ := frameEnd_spec h
  obtain ⟨hf, hemit', hend, -, hcalls⟩ := finish_of_frameEnd h
  obtain ⟨-, -, hres'⟩ := writeResidue_sizes (o := o.appending) (r := f.residue) rfl
    (Fd.atEnd_append rfl _)
  have hdata : (o.finish input f).1.outData =
      addWord o'.outData (o'.write o'.outBuf f.last).2 ∧ o'.outData = o'.file.length := by
    rw [hfile, List.length_append, ← addWord_residue hout hstream hlim]
    simp only [frameEnd] at h
    split_ifs at h with hc
    obtain ⟨hopen, hw, hask⟩ := hc
    obtain rfl := Option.some.inj h
    rw [if_pos hw] at hres'
    rw [finish_eq, if_pos hopen, if_pos hw, endFrame_eq, if_neg (not_not.mpr hask)]
    dsimp only
    rw [outData_write]
    exact ⟨rfl, hres'⟩
  obtain ⟨hdata, hout'⟩ := hdata
  have hgrow := length_write o'.outBuf f.last hd (Fd.atEnd_append ha _)
  obtain ⟨hlow, hhigh⟩ := returned_write o' o'.outBuf f.last
  have hsize : o'.file.length + (o'.write o'.outBuf f.last).2.toNat < 2 ^ 64 := by
    rw [hemit', hemit, hstream, ← hfile, List.length_append, overwriteLimit] at hlim
    omega
  rw [hdata, hf, hgrow, hout', hcalls, hend, hended, addWord_eq_iff hlow hsize]
  constructor
  · intro hle c hc
    simp only [List.mem_cons, List.not_mem_nil, or_false] at hc
    rcases hc with rfl | rfl
    · exact hres.credited true
    · exact hle
  · intro hall
    exact hall _ (List.mem_cons_of_mem _ List.mem_cons_self)

/-- The code after the loop. -/
theorem finish_sizes (hout : o.outData = o.file.length) (hended : o.ended = false)
    (hstream : o.emitted = o.file ++ o.outBuf)
    (hlim : (o.finish input f).1.emitted.length < overwriteLimit) :
    (o.finish input f).1.outData = (o.finish input f).1.file.length ↔
      ∀ c ∈ o.finishCalls input f, c.Credited (o.finish input f).1.ended := by
  cases hf : o.frameEnd input f with
  | some o' => exact frameEnd_sizes hout hstream hf hlim
  | none =>
      obtain ⟨hgrow, hcomplete, hdata⟩ := writeResidue_sizes (o := o.appending) (r := f.residue)
        rfl (Fd.atEnd_append rfl _)
      have hcalls : o.finishCalls input f =
          if f.openOk then [o.appending.writeCall o.outBuf f.residue] else [] := by
        rw [finishCalls, hf]
      rw [hcalls, finish_eq]
      split_ifs with hopen hw
      · -- The end of the frame is refused, and nothing more is written.
        have hask : (((o.appending.writeResidue f.residue).1).askEnd input).2 ≠ some 0 := by
          intro hask
          rw [frameEnd, if_pos ⟨hopen, hw, hask⟩] at hf
          cases hf
        have hres := hcomplete.mp hw
        rw [if_pos hw] at hdata
        rw [endFrame_eq, if_pos hask]
        refine iff_of_true ?_ fun c hc => ?_
        · rw [hres] at hgrow
          exact hdata.trans ((addWord_residue hout hstream hlim).trans hgrow.symm)
        · rw [List.mem_singleton.mp hc]
          exact hres.credited _
      · have hnot : ¬ (o.appending.writeCall o.outBuf f.residue).Complete := fun h =>
          hw (hcomplete.mpr h)
        have hfile : o.appending.file.length = o.file.length := rfl
        have hout' : o.appending.outData = o.outData := rfl
        have hended' : (o.appending.writeResidue f.residue).1.ended = false :=
          (ended_writeResidue _ _).trans hended
        rw [if_neg hw, hout', hout] at hdata
        dsimp only
        rw [hdata, hgrow, hended', hfile]
        constructor
        · intro he c hc
          rw [List.mem_singleton.mp hc]
          refine Or.inr ?_
          change (o.appending.writeCall o.appending.outBuf f.residue).returned ≤ 0
          omega
        · intro hall
          rcases hall _ List.mem_cons_self with hc | hc
          · exact absurd hc hnot
          · change (o.appending.writeCall o.appending.outBuf f.residue).returned ≤ 0 at hc
            omega
      · exact iff_of_true hout (by simp)

end Output

open Output

/-- What `Listen` is handed. -/
def SessionEvent.bytes : SessionEvent → ℕ
  | .buffer payload _ _ => payload.length
  | .finish _ _ | .giveUp => 0

namespace Session

variable {s t : Session Z} {e : SessionEvent}

/-! ### What is handed over -/

theorem inData_step (h : s.step e = some t) :
    t.out.inData = addWord s.out.inData e.bytes ∨ e.bytes = 0 ∧ t.out.inData = s.out.inData := by
  cases e with
  | buffer payload w openOk =>
      obtain ⟨-, -, hout⟩ := step_buffer h
      left
      rw [hout]
      split_ifs <;> simp [SessionEvent.bytes]
  | finish input r =>
      obtain rfl := step_finish h
      exact .inr ⟨rfl, inData_finish ..⟩
  | giveUp =>
      obtain rfl := step_giveUp h
      exact .inr ⟨rfl, rfl⟩

/-- **Every buffer is counted**, also one that is not written. -/
theorem inData_eq {events : List SessionEvent} (h : exec step (start Z) events = some s) :
    s.out.inData = (events.map SessionEvent.bytes).sum % 2 ^ 64 := by
  refine exec_induction
    (P := fun events s => s.out.inData = (events.map SessionEvent.bytes).sum % 2 ^ 64) rfl
    (fun events e s t _ ih ht => ?_) h
  rw [List.map_append, List.sum_append, List.map_singleton, List.sum_singleton]
  rcases inData_step ht with hadd | ⟨hzero, hsame⟩
  · rw [hadd, ih, addWord_natCast, Nat.mod_add_mod]
  · rw [hsame, ih, hzero, Nat.add_zero]

/-! ### What is written -/

/-- `out_data` is what is in the file, where the writes are credited. -/
def Accounted (s : Session Z) : Prop :=
  s.out.outData = s.out.file.length ↔ ∀ c ∈ s.calls, c.Credited s.out.ended

/-- While the session runs, all of them are. -/
structure Writing (s : Session Z) : Prop where
  going : Going s
  outData : s.out.outData = s.out.file.length
  notEnded : s.out.ended = false

theorem Writing.accounted (h : Writing s) : s.Accounted := by
  refine iff_of_true h.outData fun c hc => ?_
  rw [h.notEnded]
  exact Or.inl (h.going.calls c hc)

/-- Below 64 GB the file is not opened again. -/
theorem Writing.not_reopened {payload : List UInt8} {w : WriteResult} {openOk : Bool}
    (hs : Writing s) (h : s.step (.buffer payload w openOk) = some t) (hr : t.running = true)
    (hlim : t.out.emitted.length < overwriteLimit) :
    t.out = (s.out.processCompressed payload w).1 := by
  obtain ⟨hrun, -, hout⟩ := step_buffer h
  rw [if_pos hr] at hout
  obtain ⟨hfull, -⟩ := processCompressed_going hs.going.fd (Prod.ext rfl (hrun.symm.trans hr))
  obtain ⟨he, -, -, -, hw⟩ := processCompressed_full hs.going.fd rfl hfull
  have hle := whole_le (s.out.outBuf ++ s.out.flushed payload)
  have hstream := congrArg List.length hs.going.stream
  rw [hout, emitted_reopen, he, List.length_append] at hlim
  rw [List.length_append] at hle hstream
  rw [hout, reopen, if_neg]
  rw [hw, hs.going.written]
  omega

/-- A buffer. -/
theorem Writing.buffer {payload : List UInt8} {w : WriteResult} {openOk : Bool} (hs : Writing s)
    (h : s.step (.buffer payload w openOk) = some t)
    (hlim : t.out.emitted.length < overwriteLimit) :
    (t.running = true → Writing t) ∧ t.Accounted := by
  have hend : Fd.AtEnd ⟨s.out.file.length, false⟩ s.out.file := by simp [Fd.AtEnd, Fd.pos]
  obtain ⟨hgo, hstop⟩ := processCompressed_sizes payload w hs.going.fd hend
  obtain ⟨hrun, hcalls, hout⟩ := step_buffer h
  have hended : t.out.ended = false := by
    rw [hout]
    split_ifs <;> simp [hs.notEnded]
  cases hr : t.running with
  | true =>
      have hgoing := hs.going.buffer h hr hlim
      have hstream := congrArg List.length hgoing.stream
      rw [List.length_append] at hstream
      have hlim64 : t.out.file.length < 2 ^ 64 := by
        have : overwriteLimit < 2 ^ 64 := by decide
        omega
      have hstart := congrArg List.length hs.going.stream
      rw [List.length_append] at hstart
      have hmono := emitted_step h
      have hlim64' : s.out.outData < 2 ^ 64 := by
        have : overwriteLimit < 2 ^ 64 := by decide
        rw [hs.outData]
        omega
      obtain ⟨n, hwritten, hdata⟩ := hgo (hrun.symm.trans hr) hlim64'
      rw [← hs.not_reopened h hr hlim, hgoing.written, hs.going.written] at hwritten
      rw [← hs.not_reopened h hr hlim, hs.outData, addWord_of_lt (hwritten ▸ hlim64),
        ← hwritten] at hdata
      have hw : Writing t := ⟨hgoing, hdata, hended⟩
      exact ⟨fun _ => hw, hw.accounted⟩
  | false =>
      refine ⟨fun ht => absurd ht (by simp), ?_⟩
      rw [hr, if_neg Bool.false_ne_true] at hout
      obtain ⟨hdata, hfile⟩ := hstop (hrun.symm.trans hr)
      rw [Accounted, hended, hcalls, hout, hdata, hs.outData]
      rcases hfile with ⟨hsame, hnone⟩ | ⟨c, hc, hnot, hgrow⟩
      · rw [hsame, hnone, List.append_nil]
        exact iff_of_true rfl fun c hc => Or.inl (hs.going.calls c hc)
      -- The write that stopped the session is the only one that may not be credited.
      · rw [hgrow, hc]
        constructor
        · intro he b hb
          rcases List.mem_append.mp hb with hb | hb
          · exact Or.inl (hs.going.calls b hb)
          · rw [List.mem_singleton.mp hb]
            exact Or.inr (by omega)
        · intro hall
          rcases hall c (List.mem_append_right _ List.mem_cons_self) with hcomplete | hle
          · exact absurd hcomplete hnot
          · omega

/-- The code after the loop. -/
theorem Writing.finish {input : List UInt8} {r : FinishResults} (hs : Writing s)
    (h : s.step (.finish input r) = some t)
    (hlim : t.out.emitted.length < overwriteLimit) : t.Accounted := by
  obtain rfl := step_finish h
  rw [Accounted, finish_sizes hs.outData hs.notEnded hs.going.stream hlim]
  dsimp only
  constructor
  · intro hall c hc
    rcases List.mem_append.mp hc with hc | hc
    · exact (hs.going.calls c hc).credited _
    · exact hall c hc
  · exact fun hall c hc => hall c (List.mem_append_right _ hc)

/-- **`out_data` is the length of the file** exactly when every write has been credited. -/
theorem outData_iff {events : List SessionEvent} (h : exec step (start Z) events = some s)
    (hlim : s.out.emitted.length < overwriteLimit) : s.Accounted := by
  refine (exec_induction (P := fun _ s => s.out.emitted.length < overwriteLimit →
    (s.running = true → Writing s) ∧ s.Accounted) (fun _ => ?_)
    (fun events e s t _ ih ht hlim => ?_) h hlim).2
  · have hw : Writing (start Z) := ⟨going_start, rfl, rfl⟩
    exact ⟨fun _ => hw, hw.accounted⟩
  · have hs := (ih (lt_of_le_of_lt (emitted_step ht) hlim)).1 (step_eq_some ht)
    cases e with
    | buffer payload w openOk => exact hs.buffer ht hlim
    | finish input r =>
        refine ⟨fun hrun => ?_, hs.finish ht hlim⟩
        obtain rfl := step_finish ht
        cases hrun
    | giveUp =>
        obtain rfl := step_giveUp ht
        exact ⟨nofun, hs.accounted⟩

/-! ### All sessions -/

/-- `in_size` and `out_size` once the sessions have added their counts, in any order. -/
def sizes (ss : List (Session Z)) : ℕ × ℕ :=
  ss.foldl (fun p s => ((p.1 + s.out.inData) % 2 ^ 64, (p.2 + s.out.outData) % 2 ^ 64)) (0, 0)

theorem sizes_eq (ss : List (Session Z)) :
    sizes ss = ((ss.map fun s => s.out.inData).sum % 2 ^ 64,
      (ss.map fun s => s.out.outData).sum % 2 ^ 64) := by
  induction ss using List.reverseRecOn with
  | nil => rfl
  | append_singleton ss s ih =>
      rw [sizes, List.foldl_append, ← sizes, ih]
      simp [Nat.mod_add_mod]

/-- **The numbers of the ratio**: what all sessions were handed, and, below 64 GB and where every
write has been credited, what all their files hold.  A session's own count is the length of its file
in no other case. -/
theorem ratio_sizes (runs : List (List SessionEvent × Session Z))
    (hrun : ∀ p ∈ runs, exec step (start Z) p.1 = some p.2) :
    (sizes (runs.map Prod.snd)).1 =
        (runs.map fun p => (p.1.map SessionEvent.bytes).sum).sum % 2 ^ 64 ∧
      (∀ p ∈ runs, p.2.out.emitted.length < overwriteLimit → p.2.Accounted) ∧
      ((∀ p ∈ runs, p.2.out.emitted.length < overwriteLimit) →
        (∀ p ∈ runs, ∀ c ∈ p.2.calls, c.Credited p.2.out.ended) →
          (sizes (runs.map Prod.snd)).2 =
            (runs.map fun p => p.2.out.file.length).sum % 2 ^ 64) := by
  have hacc : ∀ p ∈ runs, p.2.out.emitted.length < overwriteLimit → p.2.Accounted :=
    fun p hp => outData_iff (hrun p hp)
  rw [sizes_eq, List.map_map, List.map_map]
  refine ⟨?_, hacc, fun hlim hall => ?_⟩
  · have hin : ∀ p ∈ runs, p.2.out.inData = (p.1.map SessionEvent.bytes).sum % 2 ^ 64 :=
      fun p hp => inData_eq (hrun p hp)
    have hmap := congrArg (fun l => List.sum l % 2 ^ 64) (List.map_congr_left hin)
    refine hmap.trans ?_
    rw [List.sum_nat_mod (runs.map fun p => (p.1.map SessionEvent.bytes).sum), List.map_map]
    rfl
  · have hout : ∀ p ∈ runs, p.2.out.outData = p.2.out.file.length :=
      fun p hp => (hacc p hp (hlim p hp)).mpr (hall p hp)
    exact congrArg (fun l => List.sum l % 2 ^ 64) (List.map_congr_left hout)

/-- A session of three bytes. -/
def threeBytes : List SessionEvent :=
  [.buffer [1, 2, 3] .full true, .finish [] ⟨true, .full, .full, true⟩]

/-- One byte, and no room for it on the disk. -/
def diskFull : List SessionEvent := [.buffer [4] .full true, .finish [] ⟨true, .fail, .full, true⟩]

theorem ratio_sizes_two : ∃ s t : Session storing, exec step (start storing) threeBytes = some s ∧
    exec step (start storing) diskFull = some t ∧ (sizes [s, t]).1 = 4 ∧ s.Accounted ∧
      t.Accounted := by
  have hthree : (exec step (start storing) threeBytes).map (fun s => s.out.emitted) =
      some [1, 2, 3] := by
    decide +kernel
  have hfull : (exec step (start storing) diskFull).map (fun s => s.out.emitted) = some [4] := by
    decide +kernel
  obtain ⟨s, hs, hse⟩ := Option.map_eq_some_iff.mp hthree
  obtain ⟨t, ht, hte⟩ := Option.map_eq_some_iff.mp hfull
  obtain ⟨hin, hacc, -⟩ := ratio_sizes [(threeBytes, s), (diskFull, t)] (by
    rintro p hp
    simp only [List.mem_cons, List.not_mem_nil, or_false] at hp
    rcases hp with rfl | rfl
    · exact hs
    · exact ht)
  refine ⟨s, t, hs, ht, hin, hacc (threeBytes, s) (by simp) ?_, hacc (diskFull, t) (by simp) ?_⟩
  · rw [hse]
    decide
  · rw [hte]
    decide

end Session

end BulletTime.Consumer
