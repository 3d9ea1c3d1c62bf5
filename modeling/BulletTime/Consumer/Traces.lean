import BulletTime.Lib.Decimal
import BulletTime.Lib.Directory
import BulletTime.Consumer.Rename

/-!
# Consumer — Traces

The output directory over a whole session: any number of receivers, each with its thread number,
which Pin may give again once a thread has exited, writing their files in any interleaving.  A
receiver's file is what its descriptor stands for; the names are looked up at each open and rename.

* `completed` is history: the name a completed receiver's trace has, and the bytes it then holds.
* `Acts`: what a call of a receiver does to the directory and the files.
* `Spares`: a call writes to no completed trace, and renames no file of its thread number.
* `Alone`: a receiver is started with no completed trace's thread number, and completes while no
  other receiver of its own number runs.
* `spares_of_alone`: in a session of such steps every call spares the completed traces.
* `traces_intact`: so they all stay as they were.
-/

namespace BulletTime.Consumer
open Decimal PosFile Transition

variable {Z : Zstd}

/-- The name `ReceiverThread` opens in the output directory. -/
def outputFile (tid : Int32) : List UInt8 := ascii "output_" ++ renderInt tid.toInt

/-- The name of the finished compressed trace. -/
def compFile (tid : Int32) : List UInt8 := outputFile tid ++ ascii ".zst"

/-- Where a receiver is: in its loop, at the end of a round, after the loop before the residue, the
end of the frame and the rename, back in `ReceiverThread`, or completed. -/
inductive Phase where
  | looping
  | roundEnd
  | residue
  | frameEnd
  | rename
  | returned
  | completed
  deriving DecidableEq

/-- A `ReceiverThread` and its `Listen`; `ino` is the file its descriptor stands for. -/
structure Receiver (Z : Zstd) where
  tid : Int32
  out : Output Z
  ino : ℕ
  phase : Phase

/-- What a completed receiver has left: a name, and the bytes under it. -/
structure Trace where
  tid : Int32
  name : List UInt8
  bytes : List UInt8
  deriving DecidableEq

structure Traces (Z : Zstd) where
  dir : Directory (List UInt8)
  /-- The bytes of each file. -/
  data : ℕ → List UInt8
  recv : ℕ → Option (Receiver Z)
  completed : List Trace

/-- The calls of a receiver, with their outcomes. -/
inductive ReceiverCall where
  | buffer (payload : List UInt8) (w : WriteResult)
  | roundEnd (openOk : Bool)
  | leaveLoop
  | giveUp
  | openAppend (openOk : Bool)
  | residue (w : WriteResult)
  | frameEnd (input : List UInt8) (w : WriteResult)
  | rename (renameOk : Bool)
  | complete
  deriving DecidableEq

/-- A receiver starts, or makes its next call. -/
inductive TracesAction where
  | start (i : ℕ) (tid : Int32)
  | call (i : ℕ) (c : ReceiverCall)
  deriving DecidableEq

namespace Traces

/-- Any content of the output directory. -/
def init (dir : Directory (List UInt8)) (data : ℕ → List UInt8) : Traces Z where
  dir := dir
  data := data
  recv _ := none
  completed := []

/-- What a name of the directory holds. -/
def read (s : Traces Z) (name : List UInt8) : Option (List UInt8) := (s.dir.inode name).map s.data

/-- The receiver's output, over what its file holds now. -/
def output (s : Traces Z) (r : Receiver Z) : Output Z := { r.out with file := s.data r.ino }

/-- The receiver's output `o` is written back to its file. -/
def put (s : Traces Z) (i : ℕ) (r : Receiver Z) (o : Output Z) (phase : Phase) : Traces Z :=
  { s with
    data := Function.update s.data r.ino o.file
    recv := Function.update s.recv i (some { r with out := o, phase := phase }) }

/-- The receiver moves on; no file changes. -/
def move (s : Traces Z) (i : ℕ) (r : Receiver Z) : Traces Z :=
  { s with recv := Function.update s.recv i (some r) }

/-- `ReceiverThread` opens its output file and, past its set-up, enters `Listen`. -/
def startReceiver (s : Traces Z) (i : ℕ) (tid : Int32) : Traces Z :=
  let o := s.dir.openCreat (outputFile tid)
  { s with
    dir := o.1
    data := if s.dir.inode (outputFile tid) = none then Function.update s.data o.2 [] else s.data
    recv := Function.update s.recv i (some ⟨tid, Output.start Z, o.2, .looping⟩) }

/-- One buffer: through the compressor, or as a block of `CONSUMER_BUFFER_SIZE` bytes. -/
def process (useCompression : Bool) (o : Output Z) (payload : List UInt8) (w : WriteResult) :
    Output Z × Bool :=
  if useCompression then o.processCompressed payload w else o.processRaw payload w

/-- The name the trace of a receiver has when it completes. -/
def traceName (r : Receiver Z) : List UInt8 :=
  if r.out.renamed then compFile r.tid else outputFile r.tid

def call (useCompression : Bool) (s : Traces Z) (i : ℕ) (r : Receiver Z) :
    ReceiverCall → Option (Traces Z)
  | .buffer payload w =>
      if r.phase = .looping ∧ (useCompression = true ∨ payload.length = consumerBufferSize) then
        let p := process useCompression (s.output r) payload w
        some (s.put i r p.1 (if p.2 then .roundEnd else .returned))
      else none
  | .roundEnd openOk =>
      if r.phase = .roundEnd then
        if r.out.dataWritten ≥ overwriteLimit then
          match openOk, s.dir.inode (outputFile r.tid) with
          | true, some ino =>
              some (s.move i { r with out := r.out.reopen true, ino := ino, phase := .looping })
          | _, _ => some (s.move i { r with out := r.out.reopen false, phase := .looping })
        else some (s.move i { r with phase := .looping })
      else none
  | .leaveLoop =>
      if r.phase = .looping ∧ useCompression = false then
        some (s.move i { r with phase := .returned })
      else none
  | .giveUp => if r.phase = .looping then some (s.move i { r with phase := .returned }) else none
  | .openAppend openOk =>
      if r.phase = .looping ∧ useCompression = true then
        match openOk, s.dir.inode (outputFile r.tid) with
        | true, some ino =>
            some (s.move i { r with out := r.out.appending, ino := ino, phase := .residue })
        | _, _ => some (s.move i { r with phase := .returned })
      else none
  | .residue w =>
      if r.phase = .residue then
        let p := (s.output r).writeResidue w
        some (s.put i r p.1 (if p.2 then .frameEnd else .returned))
      else none
  | .frameEnd input w =>
      if r.phase = .frameEnd then
        let p := (s.output r).endFrame input w false
        some (s.put i r p.1 (if p.2 then .rename else .returned))
      else none
  | .rename renameOk =>
      if r.phase = .rename then
        match renameOk, s.dir.rename (outputFile r.tid) (compFile r.tid) with
        | true, some dir =>
            some { s with
              dir := dir
              recv := Function.update s.recv i
                (some { r with out := { r.out with renamed := true }, phase := .returned }) }
        | _, _ => some (s.move i { r with phase := .returned })
      else none
  | .complete =>
      if r.phase = .returned then
        some { s.move i { r with phase := .completed } with
          completed :=
            match s.read (traceName r) with
            | some bytes => s.completed ++ [⟨r.tid, traceName r, bytes⟩]
            | none => s.completed }
      else none

def step (useCompression : Bool) (s : Traces Z) : TracesAction → Option (Traces Z)
  | .start i tid =>
      match s.recv i with
      | none => some (s.startReceiver i tid)
      | some _ => none
  | .call i c =>
      match s.recv i with
      | some r => call useCompression s i r c
      | none => none

/-- Every completed trace still holds, under its name, what it held. -/
def Intact (s : Traces Z) : Prop := ∀ c ∈ s.completed, s.read c.name = some c.bytes

end Traces

namespace Output

/-- What a `write` of `data` puts into the file. -/
def written (o : Output Z) (data : List UInt8) (w : WriteResult) : List UInt8 :=
  match o.outFd, w with
  | none, _ | some _, .fail => []
  | some _, .full => data
  | some _, .short n => data.take n

/-- What one round puts into the file. -/
def roundWritten (useCompression : Bool) (o : Output Z) (payload : List UInt8) (w : WriteResult) :
    List UInt8 :=
  if useCompression then
    let c := o.flushInput payload
    if c.2 = none then [] else c.1.written (c.1.outBuf.take (whole c.1.outBuf)) w
  else o.written payload w

/-- What the last write puts into the file. -/
def endWritten (o : Output Z) (input : List UInt8) (w : WriteResult) : List UInt8 :=
  if (o.askEnd input).2 = some 0 then (o.askEnd input).1.written (o.askEnd input).1.outBuf w else []

variable {o : Output Z} {data : List UInt8} {w : WriteResult}

/-- A write that puts nothing into the file leaves it. -/
theorem file_write_of_written (h : o.written data w = []) : (o.write data w).1.file = o.file := by
  cases ho : o.outFd with
  | none => simp only [write, ho]
  | some d =>
      cases w with
      | fail => simp only [write, ho]
      | full =>
          simp only [written, ho] at h
          simp [write, ho, h, put, Fd.write]
      | short n =>
          simp only [written, ho] at h
          simp [write, ho, h, put, Fd.write]

theorem file_writeWhole (h : o.written (o.outBuf.take (whole o.outBuf)) w = []) :
    (o.writeWhole w).1.file = o.file := by
  have hw := file_write_of_written h
  simp only [writeWhole]
  split_ifs
  · exact hw
  · exact hw
  · rfl

theorem file_process {useCompression : Bool} (h : o.roundWritten useCompression data w = []) :
    (Traces.process useCompression o data w).1.file = o.file := by
  cases useCompression with
  | true =>
      simp only [roundWritten, if_true] at h
      simp only [Traces.process, if_true, processCompressed]
      split_ifs at h ⊢ with hc
      · rfl
      · exact file_writeWhole h
  | false =>
      have hw := file_write_of_written (o := o) (w := w) h
      simp only [Traces.process, Bool.false_eq_true, if_false, processRaw]
      split_ifs
      · exact hw
      · exact hw

theorem file_writeResidue (h : o.written o.outBuf w = []) : (o.writeResidue w).1.file = o.file := by
  have hw := file_write_of_written h
  simp only [writeResidue]
  split_ifs
  · exact hw
  · exact hw

theorem file_endFrame {input : List UInt8} {renameOk : Bool} (h : o.endWritten input w = []) :
    (o.endFrame input w renameOk).1.file = o.file := by
  rw [endFrame_eq]
  by_cases hc : (o.askEnd input).2 = some 0
  · rw [if_neg (not_not.mpr hc)]
    rw [endWritten, if_pos hc] at h
    exact file_write_of_written h
  · rw [if_pos hc]
    rfl

end Output

namespace Traces

/-- What a call puts into the receiver's file. -/
def bytesWritten (useCompression : Bool) (s : Traces Z) (r : Receiver Z) :
    ReceiverCall → List UInt8
  | .buffer payload w =>
      if r.phase = .looping then (s.output r).roundWritten useCompression payload w else []
  | .residue w => if r.phase = .residue then (s.output r).written (s.output r).outBuf w else []
  | .frameEnd input w => if r.phase = .frameEnd then (s.output r).endWritten input w else []
  | .roundEnd _ | .leaveLoop | .giveUp | .openAppend _ | .rename _ | .complete => []

variable {useCompression : Bool} {s t : Traces Z} {i : ℕ} {r : Receiver Z} {c : ReceiverCall}

/-- What a call does: it writes to the receiver's file, moves the receiver on, renames its file, or
completes it. -/
inductive Acts (useCompression : Bool) (s : Traces Z) (i : ℕ) (r : Receiver Z) :
    ReceiverCall → Traces Z → Prop where
  | writes (c : ReceiverCall) (o : Output Z) (phase : Phase)
      (h : s.bytesWritten useCompression r c = [] → o.file = s.data r.ino)
      (hphase : phase ≠ .completed) : Acts useCompression s i r c (s.put i r o phase)
  | moves (c : ReceiverCall) (r' : Receiver Z) (htid : r'.tid = r.tid)
      (hino : r'.ino = r.ino ∨ s.dir.inode (outputFile r.tid) = some r'.ino)
      (hphase : r'.phase ≠ .completed) : Acts useCompression s i r c (s.move i r')
  | renames (dir : Directory (List UInt8)) (hphase : r.phase = .rename)
      (h : s.dir.rename (outputFile r.tid) (compFile r.tid) = some dir) :
      Acts useCompression s i r (.rename true)
        { s with
          dir := dir
          recv := Function.update s.recv i
            (some { r with out := { r.out with renamed := true }, phase := .returned }) }
  | completes :
      Acts useCompression s i r .complete
        { s.move i { r with phase := .completed } with
          completed :=
            match s.read (traceName r) with
            | some bytes => s.completed ++ [⟨r.tid, traceName r, bytes⟩]
            | none => s.completed }

/-- A call adds a completed trace under the name it is read at, if any. -/
theorem Acts.mem_completed (ha : Acts useCompression s i r c t) : ∀ d ∈ t.completed,
    d ∈ s.completed ∨ d.tid = r.tid ∧ d.name = traceName r ∧ s.read d.name = some d.bytes := by
  intro d hd
  cases ha with
  | writes _ _ _ _ _ => exact .inl hd
  | moves _ _ _ _ _ => exact .inl hd
  | renames _ _ _ => exact .inl hd
  | completes =>
      dsimp only at hd
      split at hd
      · rename_i bytes hread
        rcases List.mem_append.mp hd with hd | hd
        · exact .inl hd
        · obtain rfl := List.mem_singleton.mp hd
          exact .inr ⟨rfl, rfl, hread⟩
      · exact .inl hd

theorem acts_of_call (h : call useCompression s i r c = some t) :
    r.phase ≠ .completed ∧ Acts useCompression s i r c t := by
  cases c with
  | buffer payload w =>
      obtain ⟨⟨hp, -⟩, ⟨⟩⟩ := Option.ite_none_right_eq_some.mp h
      refine ⟨by simp [hp], .writes _ _ _ (fun hb => Output.file_process ?_) ?_⟩
      · rwa [bytesWritten, if_pos hp] at hb
      split <;> simp
  | roundEnd openOk =>
      obtain ⟨hp, h'⟩ := Option.ite_none_right_eq_some.mp h
      -- the file past its limit is opened anew, or there is nothing to do
      refine ⟨by simp [hp], ?_⟩
      split at h'
      · split at h'
        · rename_i ino hino
          cases h'
          exact .moves _ _ rfl (.inr hino) (by simp)
        · cases h'
          exact .moves _ _ rfl (.inl rfl) (by simp)
      · cases h'
        exact .moves _ _ rfl (.inl rfl) (by simp)
  | leaveLoop =>
      obtain ⟨⟨hp, -⟩, ⟨⟩⟩ := Option.ite_none_right_eq_some.mp h
      exact ⟨by simp [hp], .moves _ _ rfl (.inl rfl) (by simp)⟩
  | giveUp =>
      obtain ⟨hp, ⟨⟩⟩ := Option.ite_none_right_eq_some.mp h
      exact ⟨by simp [hp], .moves _ _ rfl (.inl rfl) (by simp)⟩
  | openAppend openOk =>
      obtain ⟨⟨hp, -⟩, h'⟩ := Option.ite_none_right_eq_some.mp h
      refine ⟨by simp [hp], ?_⟩
      split at h'
      · rename_i ino hino
        cases h'
        exact .moves _ _ rfl (.inr hino) (by simp)
      · cases h'
        exact .moves _ _ rfl (.inl rfl) (by simp)
  | residue w =>
      obtain ⟨hp, ⟨⟩⟩ := Option.ite_none_right_eq_some.mp h
      refine ⟨by simp [hp], .writes _ _ _ (fun hb => Output.file_writeResidue ?_) ?_⟩
      · rwa [bytesWritten, if_pos hp] at hb
      split <;> simp
  | frameEnd input w =>
      obtain ⟨hp, ⟨⟩⟩ := Option.ite_none_right_eq_some.mp h
      refine ⟨by simp [hp], .writes _ _ _ (fun hb => Output.file_endFrame ?_) ?_⟩
      · rwa [bytesWritten, if_pos hp] at hb
      split <;> simp
  | rename renameOk =>
      obtain ⟨hp, h'⟩ := Option.ite_none_right_eq_some.mp h
      refine ⟨by simp [hp], ?_⟩
      split at h'
      · rename_i dir hdir
        cases h'
        exact .renames dir hp hdir
      · cases h'
        exact .moves _ _ rfl (.inl rfl) (by simp)
  | complete =>
      obtain ⟨hp, ⟨⟩⟩ := Option.ite_none_right_eq_some.mp h
      exact ⟨by simp [hp], .completes⟩

/-! ### Names -/

theorem outputFile_injective {a b : Int32} (h : outputFile a = outputFile b) : a = b :=
  Int32.toInt_inj.mp (renderInt_injective (List.append_cancel_left h))

theorem compFile_injective {a b : Int32} (h : compFile a = compFile b) : a = b :=
  outputFile_injective (List.append_cancel_right h)

theorem outputFile_ne_compFile (a b : Int32) : outputFile a ≠ compFile b := by
  intro h
  have hmem : (46 : UInt8) ∈ outputFile a := by
    rw [h]
    exact List.mem_append_right _ (by decide)
  rcases List.mem_append.mp hmem with hmem | hmem
  · exact absurd hmem (by decide)
  · rcases mem_renderInt hmem with hmem | hmem
    · exact absurd hmem (by decide)
    · exact absurd hmem (by decide)

/-- A name of the thread number: that of a raw or unfinished trace, or of a finished one. -/
def NameOf (tid : Int32) (name : List UInt8) : Prop := name = outputFile tid ∨ name = compFile tid

theorem NameOf.tid_eq {a b : Int32} {name : List UInt8} (ha : NameOf a name) (hb : NameOf b name) :
    a = b := by
  rcases ha with rfl | rfl <;> rcases hb with h | h
  · exact outputFile_injective h
  · exact absurd h (outputFile_ne_compFile a b)
  · exact absurd h.symm (outputFile_ne_compFile b a)
  · exact compFile_injective h

theorem nameOf_traceName (r : Receiver Z) : NameOf r.tid (traceName r) := by
  unfold traceName
  split
  · exact .inr rfl
  · exact .inl rfl

/-- Every completed trace is under a name of its thread number. -/
def Named (s : Traces Z) : Prop := ∀ c ∈ s.completed, NameOf c.tid c.name

/-- A step that spares the completed traces: bytes go to no file that one of them is, and a file
that is there to be renamed is of a thread number that none of them has. -/
def Spares (useCompression : Bool) (s : Traces Z) : TracesAction → Prop
  | .start _ _ => True
  | .call i c => ∀ r ∈ s.recv i,
      (s.bytesWritten useCompression r c ≠ [] →
        ∀ d ∈ s.completed, s.dir.inode d.name ≠ some r.ino) ∧
      (c = .rename true → r.phase = .rename → s.dir.inode (outputFile r.tid) ≠ none →
        ∀ d ∈ s.completed, d.tid ≠ r.tid)

/-! ### One call -/

theorem read_eq_some {name bytes : List UInt8} :
    s.read name = some bytes ↔ ∃ i, s.dir.inode name = some i ∧ s.data i = bytes :=
  Option.map_eq_some_iff

/-- A new receiver changes no file that is there. -/
theorem read_startReceiver {tid : Int32} {name bytes : List UInt8}
    (h : s.read name = some bytes) : (s.startReceiver i tid).read name = some bytes := by
  obtain ⟨j, hj, hb⟩ := read_eq_some.mp h
  cases ho : s.dir.inode (outputFile tid) with
  | some k =>
      have hstart : (s.startReceiver i tid).dir = s.dir ∧
          (s.startReceiver i tid).data = s.data := by
        simp [startReceiver, ho, Directory.openCreat_of_some ho]
      rw [read, hstart.1, hstart.2]
      exact h
  | none =>
      have hname : name ≠ outputFile tid := by
        rintro rfl
        rw [ho] at hj
        cases hj
      refine read_eq_some.mpr ⟨j, ?_, ?_⟩
      · simp only [startReceiver, Directory.openCreat_of_none ho]
        rw [Directory.inode_create_of_ne hname]
        exact hj
      · have hne : j ≠ s.dir.next := ne_of_lt (s.dir.below _ _ hj)
        simp only [startReceiver, ho, if_true, Directory.openCreat_of_none ho,
          Function.update_of_ne hne]
        exact hb

/-- **One call** that spares the completed traces leaves them. -/
theorem Acts.intact (ha : Acts useCompression s i r c t) (hr : s.recv i = some r) (hn : Named s)
    (hs : Spares useCompression s (.call i c)) (h : Intact s) : Intact t := by
  obtain ⟨hbytes, hname⟩ := hs r hr
  have hmem := ha.mem_completed
  cases ha with
  | writes _ o phase hfile _ =>
      intro d hd
      obtain ⟨j, hj, hb⟩ := read_eq_some.mp (h d hd)
      refine read_eq_some.mpr ⟨j, hj, ?_⟩
      by_cases hw : s.bytesWritten useCompression r c = []
      · simp only [put, hfile hw, Function.update_eq_self]
        exact hb
      · -- bytes are written, and the call spares the completed traces
        have hne : j ≠ r.ino := by
          rintro rfl
          exact hbytes hw d hd hj
        simp only [put, Function.update_of_ne hne]
        exact hb
  | moves _ r' _ _ _ => exact h
  | renames dir hphase hdir =>
      intro d hd
      obtain ⟨j, hj, hb⟩ := read_eq_some.mp (h d hd)
      obtain ⟨⟨k, hk, -⟩, -, -, hother⟩ :=
        Directory.rename_spec hdir (outputFile_ne_compFile _ _)
      have htid := hname rfl hphase (by rw [hk]; exact Option.some_ne_none k) d hd
      refine read_eq_some.mpr ⟨j, ?_, hb⟩
      rw [← hj]
      refine hother d.name ?_ ?_
      · exact fun e => htid ((hn d hd).tid_eq (.inl e))
      · exact fun e => htid ((hn d hd).tid_eq (.inr e))
  | completes =>
      intro d hd
      rcases hmem d hd with hd | ⟨-, -, hread⟩
      · exact h d hd
      · exact hread

theorem Acts.named (ha : Acts useCompression s i r c t) (hn : Named s) : Named t := by
  intro d hd
  rcases ha.mem_completed d hd with hd | ⟨htid, hname, -⟩
  · exact hn d hd
  · rw [htid, hname]
    exact nameOf_traceName r

theorem step_call (h : step useCompression s (.call i c) = some t) :
    ∃ r, s.recv i = some r ∧ r.phase ≠ .completed ∧ Acts useCompression s i r c t := by
  simp only [step] at h
  split at h
  · rename_i r hr
    exact ⟨r, hr, acts_of_call h⟩
  · cases h

theorem step_start {tid : Int32} (h : step useCompression s (.start i tid) = some t) :
    s.recv i = none ∧ t = s.startReceiver i tid := by
  simp only [step] at h
  split at h
  · rename_i hr
    exact ⟨hr, (Option.some.inj h).symm⟩
  · cases h

theorem intact_step {a : TracesAction} (hn : Named s) (h : Intact s)
    (hs : Spares useCompression s a) (ht : step useCompression s a = some t) :
    Named t ∧ Intact t := by
  cases a with
  | start i tid =>
      obtain ⟨-, rfl⟩ := step_start ht
      exact ⟨hn, fun d hd => read_startReceiver (h d hd)⟩
  | call i c =>
      obtain ⟨r, hr, -, hacts⟩ := step_call ht
      exact ⟨hacts.named hn, hacts.intact hr hn hs h⟩

/-! ### Thread numbers -/

/-- The step keeps thread numbers apart: a receiver is started with the number of no completed
trace, and completes while no other receiver of its number runs. -/
def Alone (s : Traces Z) : TracesAction → Prop
  | .start _ tid => ∀ d ∈ s.completed, d.tid ≠ tid
  | .call i .complete => ∀ r ∈ s.recv i, ∀ j, ∀ q ∈ s.recv j,
      j ≠ i → q.phase ≠ .completed → q.tid ≠ r.tid
  | .call _ _ => True

/-- What names a receiver's file are names of its thread number, and no receiver that runs has the
number of a completed trace. -/
structure Solo (s : Traces Z) : Prop where
  named : Named s
  names : s.dir.Unaliased
  file : ∀ i r, s.recv i = some r → r.ino < s.dir.next
  fileName : ∀ i r n, s.recv i = some r → s.dir.inode n = some r.ino → NameOf r.tid n
  apart : ∀ d ∈ s.completed, ∀ i r, s.recv i = some r → r.phase ≠ .completed → d.tid ≠ r.tid

/-- A completed receiver writes nothing more. -/
theorem bytesWritten_of_completed (hp : r.phase = .completed) :
    s.bytesWritten useCompression r c = [] := by
  cases c <;> simp [bytesWritten, hp]

theorem Solo.spares (hI : Solo s) (i : ℕ) (c : ReceiverCall) :
    Spares useCompression s (.call i c) := by
  intro r hr
  have hother : r.phase ≠ .completed → ∀ d ∈ s.completed, d.tid ≠ r.tid :=
    fun hp d hd => hI.apart d hd i r hr hp
  refine ⟨fun hw d hd hino => ?_, fun _ hp _ => hother (by rw [hp]; simp)⟩
  have hp : r.phase ≠ .completed := fun hp => hw (bytesWritten_of_completed hp)
  exact hother hp d hd ((hI.named d hd).tid_eq (hI.fileName i r d.name hr hino))

/-- A receiver that is not the `i`-th is there before and after the `i`-th changes. -/
theorem recv_update {r' q : Receiver Z} {j : ℕ}
    (hq : Function.update s.recv i (some r') j = some q) :
    j = i ∧ q = r' ∨ j ≠ i ∧ s.recv j = some q := by
  by_cases hj : j = i
  · subst hj
    rw [Function.update_self] at hq
    exact .inl ⟨rfl, (Option.some.inj hq).symm⟩
  · rw [Function.update_of_ne hj] at hq
    exact .inr ⟨hj, hq⟩

/-- One receiver changes, keeping its thread number and its file, or taking the one its name stands
for; a file may go from its first name to its second. -/
theorem Solo.update (hI : Solo s) (r' : Receiver Z) (hr : s.recv i = some r)
    (hp : r.phase ≠ .completed) (htid : r'.tid = r.tid)
    (hino : r'.ino = r.ino ∨ s.dir.inode (outputFile r.tid) = some r'.ino)
    (hrecv : t.recv = Function.update s.recv i (some r')) (hnext : t.dir.next = s.dir.next)
    (hnames : t.dir.Unaliased)
    (hmoved : ∀ n k, t.dir.inode n = some k → s.dir.inode n = some k ∨
      n = compFile r.tid ∧ s.dir.inode (outputFile r.tid) = some k)
    (hnamed : Named t)
    (hdone : ∀ d ∈ t.completed, d ∈ s.completed ∨ d.tid = r.tid ∧ r'.phase = .completed ∧
      ∀ j q, s.recv j = some q → j ≠ i → q.phase ≠ .completed → q.tid ≠ r.tid) :
    Solo t := by
  have hback : ∀ {j q}, t.recv j = some q →
      j = i ∧ q = r' ∨ j ≠ i ∧ s.recv j = some q := by
    intro j q hq
    rw [hrecv] at hq
    exact recv_update hq
  have hold : ∀ {j q n}, t.recv j = some q → s.dir.inode n = some q.ino → NameOf q.tid n := by
    intro j q n hq hn
    rcases hback hq with ⟨rfl, rfl⟩ | ⟨-, hq⟩
    · rw [htid]
      rcases hino with hino | hino
      · rw [hino] at hn
        exact hI.fileName j r n hr hn
      · exact .inl (hI.names _ _ _ hn hino)
    · exact hI.fileName j q n hq hn
  refine ⟨hnamed, hnames, fun j q hq => ?_, fun j q n hq hn => ?_, fun d hd j q hq hqp => ?_⟩
  · rw [hnext]
    rcases hback hq with ⟨rfl, rfl⟩ | ⟨-, hq⟩
    · rcases hino with hino | hino
      · rw [hino]
        exact hI.file j r hr
      · exact s.dir.below _ _ hino
    · exact hI.file j q hq
  · rcases hmoved n q.ino hn with hn' | ⟨rfl, hn'⟩
    · exact hold hq hn'
    · have htids := (hold hq hn').tid_eq (.inl rfl)
      rw [htids]
      exact .inr rfl
  · rcases hdone d hd with hd | ⟨hdt, hdp, hothers⟩
    · rcases hback hq with ⟨rfl, rfl⟩ | ⟨-, hq⟩
      · rw [htid]
        exact hI.apart d hd j r hr hp
      · exact hI.apart d hd j q hq hqp
    · -- the trace is the receiver's own, which does not run any more
      rcases hback hq with ⟨rfl, rfl⟩ | ⟨hj, hq⟩
      · exact absurd hdp hqp
      · rw [hdt]
        exact (hothers j q hq hj hqp).symm

theorem Acts.solo (ha : Acts useCompression s i r c t) (hr : s.recv i = some r)
    (hp : r.phase ≠ .completed) (hI : Solo s) (hal : Alone s (.call i c)) : Solo t := by
  have hn := ha.named hI.named
  have hmem := ha.mem_completed
  cases ha with
  | writes _ o phase _ _ =>
      exact hI.update { r with out := o, phase := phase } hr hp rfl (.inl rfl) rfl rfl
        hI.names (fun _ _ => .inl) hn fun _ => .inl
  | moves _ r' htid hino _ =>
      exact hI.update r' hr hp htid hino rfl rfl hI.names (fun _ _ => .inl) hn fun _ => .inl
  | renames dir _ hdir =>
      have hne := outputFile_ne_compFile r.tid r.tid
      obtain ⟨-, -, hnext, -⟩ := Directory.rename_spec hdir hne
      refine hI.update { r with out := { r.out with renamed := true }, phase := .returned }
        hr hp rfl (.inl rfl) rfl hnext (hI.names.rename hdir hne) (fun n k hk => ?_) hn
        fun _ => .inl
      rcases (Directory.inode_rename hdir hne hk).2 with ⟨-, hk'⟩ | hk'
      · exact .inl hk'
      · exact .inr hk'
  | completes =>
      refine hI.update { r with phase := .completed } hr hp rfl (.inl rfl) rfl rfl hI.names
        (fun _ _ => .inl) hn fun d hd => ?_
      rcases hmem d hd with hd | ⟨htid, -, -⟩
      · exact .inl hd
      · exact .inr ⟨htid, rfl, fun j q hq hj hqp => hal r hr j q hq hj hqp⟩

theorem Solo.start {tid : Int32} (hI : Solo s) (hal : Alone s (.start i tid)) :
    Solo (s.startReceiver i tid) := by
  have hback : ∀ {j q}, (s.startReceiver i tid).recv j = some q →
      j = i ∧ q.tid = tid ∧ q.ino = (s.dir.openCreat (outputFile tid)).2 ∨ s.recv j = some q := by
    intro j q hq
    rcases recv_update hq with ⟨rfl, rfl⟩ | ⟨-, hq⟩
    · exact .inl ⟨rfl, rfl, rfl⟩
    · exact .inr hq
  refine ⟨hI.named, hI.names.openCreat, fun j q hq => ?_, fun j q n hq hn => ?_,
    fun d hd j q hq hqp => ?_⟩
  · rcases hback hq with ⟨-, -, hino⟩ | hj
    · rw [hino]
      exact Directory.openCreat_lt
    · exact lt_of_lt_of_le (hI.file j q hj) Directory.next_le_openCreat
  · rcases Directory.inode_openCreat hn with hn' | ⟨rfl, hopen⟩
    · rcases hback hq with ⟨-, ht, hino⟩ | hj
      · rw [hino] at hn'
        rw [ht]
        exact .inl (hI.names.name_of_openCreat hn')
      · exact hI.fileName j q n hj hn'
    · rcases hback hq with ⟨-, ht, -⟩ | hj
      · rw [ht]
        exact .inl rfl
      · rcases Directory.openCreat_eq s.dir (outputFile tid) with ho | ho
        · rw [← hopen] at ho
          exact hI.fileName j q _ hj ho
        · rw [← hopen] at ho
          exact absurd (hI.file j q hj) (by rw [ho]; exact Nat.lt_irrefl _)
  · rcases hback hq with ⟨-, ht, -⟩ | hj
    · rw [ht]
      exact hal d hd
    · exact hI.apart d hd j q hj hqp

/-! ### Whole sessions -/

/-- **In a session of such steps** every call spares the completed traces. -/
theorem spares_of_alone {dir : Directory (List UInt8)} {data : ℕ → List UInt8}
    {as : List TracesAction} (hdir : dir.Unaliased)
    (h : EveryStep (step (Z := Z) useCompression) (init dir data) as Alone) :
    EveryStep (step (Z := Z) useCompression) (init dir data) as (Spares useCompression) := by
  refine h.implies (I := Solo) ⟨fun _ hd => ?_, hdir, fun _ _ hr => ?_, fun _ _ _ hr => ?_,
    fun _ hd => ?_⟩ (fun s a t hI hal ht => ?_) fun s a hI _ => ?_
  · cases hd
  · cases hr
  · cases hr
  · cases hd
  · cases a with
    | start i tid =>
        obtain ⟨-, rfl⟩ := step_start ht
        exact hI.start hal
    | call i c =>
        obtain ⟨r, hr, hp, hacts⟩ := step_call ht
        exact hacts.solo hr hp hI hal
  · cases a with
    | start i tid => trivial
    | call i c => exact hI.spares i c

/-- Calls that spare the completed traces leave them. -/
theorem intact_of_spares {dir : Directory (List UInt8)} {data : ℕ → List UInt8}
    {as : List TracesAction}
    (h : EveryStep (step (Z := Z) useCompression) (init dir data) as (Spares useCompression)) :
    EveryState (step (Z := Z) useCompression) (init dir data) as Intact := by
  refine h.everyState (I := fun s => Named s ∧ Intact s) ⟨fun _ hc => ?_, fun _ hc => ?_⟩
    (fun _ _ _ hi hs ht => intact_step hi.1 hi.2 hs ht) fun _ hi => hi.2
  · cases hc
  · cases hc

/-- **A finished trace stays as it is** through any session over a directory in which no file has
two names, where no receiver is started with the thread number of a completed trace, and none
completes while another one of its number runs. -/
theorem traces_intact {dir : Directory (List UInt8)} {data : ℕ → List UInt8}
    {as : List TracesAction} (hdir : dir.Unaliased)
    (h : EveryStep (step (Z := Z) useCompression) (init dir data) as Alone) :
    EveryState (step (Z := Z) useCompression) (init dir data) as Intact :=
  intact_of_spares (spares_of_alone hdir h)

/-! ### Thread numbers given once -/

/-- The thread numbers that receivers are started with. -/
def started (as : List TracesAction) : List Int32 :=
  as.filterMap fun
    | .start _ tid => some tid
    | .call _ _ => none

/-- The receivers have the numbers given, each its own, and a completed trace is of a completed
receiver. -/
structure Numbered (given : List Int32) (s : Traces Z) : Prop where
  given : ∀ i r, s.recv i = some r → r.tid ∈ given
  tids : ∀ i j r r', s.recv i = some r → s.recv j = some r' → r.tid = r'.tid → i = j
  owner : ∀ d ∈ s.completed, ∃ i r, s.recv i = some r ∧ r.tid = d.tid ∧ r.phase = .completed

/-- A call changes one receiver, which keeps its number and has completed where it leaves a
trace. -/
theorem Acts.recv_eq (ha : Acts useCompression s i r c t) : ∃ r',
    t.recv = Function.update s.recv i (some r') ∧ r'.tid = r.tid ∧
      ∀ d ∈ t.completed, d ∈ s.completed ∨ d.tid = r'.tid ∧ r'.phase = .completed := by
  have hmem := ha.mem_completed
  cases ha with
  | writes _ o phase _ _ => exact ⟨_, rfl, rfl, fun _ => .inl⟩
  | moves _ r' htid _ _ => exact ⟨_, rfl, htid, fun _ => .inl⟩
  | renames dir _ _ => exact ⟨_, rfl, rfl, fun _ => .inl⟩
  | completes =>
      refine ⟨_, rfl, rfl, fun d hd => ?_⟩
      rcases hmem d hd with hd | ⟨htid, -, -⟩
      · exact .inl hd
      · exact .inr ⟨htid, rfl⟩

variable {given : List Int32}

theorem Numbered.start {tid : Int32} (hN : Numbered given s) (hr : s.recv i = none)
    (hnew : tid ∉ given) : Numbered (given ++ [tid]) (s.startReceiver i tid) := by
  refine ⟨fun j q hq => ?_, fun j k q q' hq hq' h => ?_, fun d hd => ?_⟩
  · rcases recv_update hq with ⟨-, rfl⟩ | ⟨-, hq⟩
    · exact List.mem_append_right _ List.mem_cons_self
    · exact List.mem_append_left _ (hN.given j q hq)
  · rcases recv_update hq with ⟨rfl, rfl⟩ | ⟨-, hold⟩
    · rcases recv_update hq' with ⟨rfl, -⟩ | ⟨-, hq'⟩
      · rfl
      · have htid : tid = q'.tid := h
        exact absurd (htid ▸ hN.given k q' hq') hnew
    · rcases recv_update hq' with ⟨rfl, rfl⟩ | ⟨-, hold'⟩
      · have htid : q.tid = tid := h
        exact absurd (htid ▸ hN.given j q hold) hnew
      · exact hN.tids j k q q' hold hold' h
  · obtain ⟨j, q, hq, hqt, hqp⟩ := hN.owner d hd
    have hj : j ≠ i := by
      rintro rfl
      rw [hr] at hq
      cases hq
    exact ⟨j, q, (Function.update_of_ne hj _ _).trans hq, hqt, hqp⟩

theorem Numbered.call (hN : Numbered given s) (hr : s.recv i = some r)
    (hp : r.phase ≠ .completed) (ha : Acts useCompression s i r c t) : Numbered given t := by
  obtain ⟨r', hrecv, htid, hdone⟩ := ha.recv_eq
  have hold : ∀ {j q}, t.recv j = some q → ∃ q', s.recv j = some q' ∧ q'.tid = q.tid := by
    intro j q hq
    rw [hrecv] at hq
    rcases recv_update hq with ⟨rfl, rfl⟩ | ⟨-, hq⟩
    · exact ⟨r, hr, htid.symm⟩
    · exact ⟨q, hq, rfl⟩
  refine ⟨fun j q hq => ?_, fun j k q q' hq hq' h => ?_, fun d hd => ?_⟩
  · obtain ⟨q', hq', ht⟩ := hold hq
    exact ht ▸ hN.given j q' hq'
  · obtain ⟨p, hp, hpt⟩ := hold hq
    obtain ⟨p', hp', hpt'⟩ := hold hq'
    exact hN.tids j k p p' hp hp' ((hpt.trans h).trans hpt'.symm)
  · rcases hdone d hd with hd | ⟨hdt, hdp⟩
    · obtain ⟨j, q, hq, hqt, hqp⟩ := hN.owner d hd
      have hj : j ≠ i := by
        rintro rfl
        obtain rfl := Option.some.inj (hq.symm.trans hr)
        exact hp hqp
      exact ⟨j, q, by rw [hrecv, Function.update_of_ne hj]; exact hq, hqt, hqp⟩
    · exact ⟨i, r', by rw [hrecv, Function.update_self], hdt.symm, hdp⟩

theorem started_append (as bs : List TracesAction) :
    started (as ++ bs) = started as ++ started bs :=
  List.filterMap_append

theorem numbered_of_exec {dir : Directory (List UInt8)} {data : ℕ → List UInt8}
    {as : List TracesAction} (h : exec (step (Z := Z) useCompression) (init dir data) as = some s)
    (hn : (started as).Nodup) : Numbered (started as) s := by
  refine exec_induction (P := fun as s => (started as).Nodup → Numbered (started as) s)
    (fun _ => ⟨fun _ _ hr => ?_, fun _ _ _ _ hr => ?_, fun _ hd => ?_⟩)
    (fun as a s t _ ih ht hn => ?_) h hn
  · cases hr
  · cases hr
  · cases hd
  · rw [started_append] at hn ⊢
    have hN := ih (List.nodup_append.mp hn).1
    cases a with
    | start i tid =>
        obtain ⟨hr, rfl⟩ := step_start ht
        refine hN.start hr fun hmem => ?_
        exact (List.nodup_append.mp hn).2.2 tid hmem tid List.mem_cons_self rfl
    | call i c =>
        obtain ⟨r, hr, hp, hacts⟩ := step_call ht
        exact (List.append_nil (started as)).symm ▸ hN.call hr hp hacts

/-- **Where no thread number is given twice**, the steps keep them apart. -/
theorem alone_of_nodup {dir : Directory (List UInt8)} {data : ℕ → List UInt8}
    {as : List TracesAction} (hn : (started as).Nodup) :
    EveryStep (step (Z := Z) useCompression) (init dir data) as Alone := by
  intro bs a cs s e hs
  rw [e, started_append] at hn
  have hN := numbered_of_exec hs (List.nodup_append.mp hn).1
  cases a with
  | start i tid =>
      intro d hd htid
      obtain ⟨j, q, hq, hqt, -⟩ := hN.owner d hd
      have hmem : tid ∈ started bs := htid ▸ hqt ▸ hN.given j q hq
      exact (List.nodup_append.mp hn).2.2 tid hmem tid List.mem_cons_self rfl
  | call i c =>
      cases c with
      | complete =>
          intro r hr j q hq hj _ htid
          exact hj (hN.tids j i q r hq hr htid)
      | _ => trivial

/-- The calls of a compressing receiver that gets one buffer. -/
def lifetime (i : ℕ) (tid : Int32) (bytes : List UInt8) : List TracesAction :=
  [.start i tid, .call i (.buffer bytes .full), .call i (.roundEnd true),
    .call i (.openAppend true), .call i (.residue .full), .call i (.frameEnd [] .full),
    .call i (.rename true), .call i .complete]

theorem traces_intact_storing :
    EveryState (step (Z := storing) true) (init .empty fun _ => [])
      (lifetime 0 7 [1] ++ lifetime 1 8 [2]) Intact :=
  traces_intact (fun _ _ _ hm => by cases hm) (alone_of_nodup (by decide))

/-- Two receivers, one after the other, of the thread number `7`: the second one's trace takes the
place of the first one's. -/
theorem traces_replaced :
    ∃ s, exec (step (Z := storing) true) (init .empty fun _ => [])
        (lifetime 0 7 [1] ++ lifetime 1 7 [2]) = some s ∧
      (∃ c ∈ s.completed, c.name = compFile 7 ∧ c.bytes = [1]) ∧
      s.read (compFile 7) = some [2] ∧ ¬ Intact s := by
  have hrun : (exec (step (Z := storing) true) (init .empty fun _ => [])
      (lifetime 0 7 [1] ++ lifetime 1 7 [2])).map (fun s => (s.completed, s.read (compFile 7))) =
      some ([⟨7, compFile 7, [1]⟩, ⟨7, compFile 7, [2]⟩], some [2]) := by
    decide +kernel
  obtain ⟨s, hs, he⟩ := Option.map_eq_some_iff.mp hrun
  simp only [Prod.mk.injEq] at he
  obtain ⟨hdone, hread⟩ := he
  have hmem : (⟨7, compFile 7, [1]⟩ : Trace) ∈ s.completed := by
    rw [hdone]
    exact List.mem_cons_self
  refine ⟨s, hs, ⟨_, hmem, rfl, rfl⟩, hread, fun h => ?_⟩
  have hkept := h _ hmem
  rw [hread] at hkept
  exact absurd hkept (by decide)

end Traces

end BulletTime.Consumer
