import BulletTime.Lib.Transition
import BulletTime.Lib.Pipe
import BulletTime.Pintool.AppThread
import BulletTime.Consumer.Output

/-!
# Handoff — Model

One traced thread, its `Listen` loop and the stop request as a machine.  A step is one call of
either side (a read, a send, a shutdown, a byte of the copy) or the local work between two calls,
so every interleaving of the two sides is a run.

* `Sys`: both program counters, the two sockets, the shared mapping, `Listen`'s `recv_data`.  The
  lists `handed` (buffers whose metadata has been sent) and `commits` (payloads presented to the
  compressor or to `write`) are history, which no step reads.
* `step`: the transition function; an outcome the sockets do not allow is not enabled.
* `Fires`: the same machine as a relation, one rule for each outcome; `fires_of_step` is its
  inversion lemma and the only place where `step` is unfolded.
-/

namespace BulletTime.Handoff
open BulletTime.Pintool BulletTime.Consumer

/-! ### States -/

/-- The locals of a running `CopyToSharedMemory`. -/
structure CopyLocals where
  buf : TraceBuffer
  genTime : UInt64
  rdyWaitStart : UInt64
  /-- What the read of the ready signal returned: 8, or 0 at end of file. -/
  rdyBytes : ℕ := 0
  pinWaitUs : UInt64 := 0
  mcpyStart : UInt64 := 0
  mcpyEnd : UInt64 := 0
  deriving DecidableEq

/-- Where the traced thread is: in the application, in `CopyToSharedMemory` (`copying l i` has
copied `i` bytes) or before the named call of `ThreadFini`. -/
inductive PinPc where
  | running
  | reading (l : CopyLocals)
  | copying (l : CopyLocals) (i : ℕ)
  | sending (l : CopyLocals)
  | shutRdy
  | shutSize
  | closeRdy
  | closeSize
  | exited
  deriving DecidableEq

/-- Where `Listen` is, and after it returned, which of its sockets `ReceiverThread` has closed. -/
inductive ListenPc where
  | head
  | sendReady
  | recv
  | getDeltas
  | testSize
  | process
  | account
  | postLoop
  | returned
  | rdyClosed
  | closed
  deriving DecidableEq

/-- A payload presented to the compressor or to `write`; `msg` is the number of the message that
the round's `recv` delivered, `none` when it delivered none. -/
structure Commit where
  msg : Option ℕ
  bytes : List UInt8
  deriving DecidableEq

structure Config where
  trackFcalls : Bool := false
  useCompression : Bool := true

structure Sys (Z : Zstd) where
  pin : PinPc
  app : AppThread
  con : ListenPc
  /-- `Listen` has returned because one of its own calls failed. -/
  aborted : Bool
  recvData : Metadata
  /-- What the last `recv` returned: 56, or 0 at end of file. -/
  recvRet : ℕ
  extraIo : ℕ
  out : Output Z
  /-- `shared_mem`. -/
  mem : ℕ → UInt8
  rdy : Pipe ℕ
  size : Pipe Metadata
  /-- `pids/stop` exists. -/
  stopFile : Bool
  stop : Bool
  handed : List TraceBuffer
  commits : List Commit

/-- Both sides connected, the mapping holding anything. -/
def init (Z : Zstd) (mem : ℕ → UInt8) : Sys Z where
  pin := .running
  app := {}
  con := .head
  aborted := false
  recvData := {}
  recvRet := 0
  extraIo := 0
  out := Output.start Z
  mem := mem
  rdy := {}
  size := {}
  stopFile := false
  stop := false
  handed := []
  commits := []

/-- `shared_mem[0, n)`. -/
def payload (mem : ℕ → UInt8) (n : ℕ) : List UInt8 := (List.range n).map mem

/-- `shared_mem[z_in.pos, z_in.size)`. -/
def rest (mem : ℕ → UInt8) (z : InBuffer) : List UInt8 :=
  (List.range' z.pos (z.size - z.pos)).map mem

/-- The mapping once the last block has been padded with zeroes. -/
def pad (mem : ℕ → UInt8) (n : ℕ) : ℕ → UInt8 :=
  fun j => if n ≤ j ∧ j < consumerBufferSize then 0 else mem j

/-! ### Steps -/

/-- The outcomes of a read or `recv`: a whole message, 0 or -1. -/
inductive ReadResult where
  | message
  | eof
  | error
  deriving DecidableEq

/-- The outcomes of the ready `send`. -/
inductive SendResult where
  | ok
  | epipe
  | error
  deriving DecidableEq

/-- The steps.  Clock readings and the results of calls are arguments. -/
inductive Action where
  | recordIns (ins memIns : UInt64)
  | countCall
  | enter (buf : TraceBuffer) (now rdyWaitStart : UInt64)
  | readReady (r : ReadResult) (rdyWaitEnd mcpyStart : UInt64)
  | copyByte
  | copyDone (mcpyEnd : UInt64)
  | sendSize (ok : Bool)
  | threadFini
  | finiCall
  | createStop
  | seeStop
  | testStop
  | sendReady (r : SendResult)
  | recv (r : ReadResult)
  | getDeltas (counts : Option CPUCounts)
  | testSize
  | process (r : WriteResult)
  | account (extraIo : ℕ) (openOk : Bool)
  | postLoop (r : Output.FinishResults)
  | closeFd

namespace Sys

variable {Z : Zstd}

/-- `read(sock_rdy)`; a read that returns 0 is not told from one that returns a signal. -/
def readReady (s : Sys Z) (l : CopyLocals) (rdyWaitEnd mcpyStart : UInt64) :
    ReadResult → Option (Sys Z)
  | .message => s.rdy.recv.map fun m =>
      { s with
        rdy := m.2
        pin := .copying { l with
          rdyBytes := 8, pinWaitUs := rdyWaitEnd - l.rdyWaitStart, mcpyStart := mcpyStart } 0 }
  | .eof =>
      if s.rdy.atEof then some { s with
        pin := .copying { l with
          rdyBytes := 0, pinWaitUs := rdyWaitEnd - l.rdyWaitStart, mcpyStart := mcpyStart } 0 }
      else none
  | .error => some { s with pin := .running }

/-- `send(sock_size)` and the reset of the generation timer. -/
def sendSize (cfg : Config) (s : Sys Z) (l : CopyLocals) (ok : Bool) : Option (Sys Z) :=
  let s' := { s with
    pin := .running
    app := { s.app.reported with bufGenTime := l.mcpyEnd } }
  if ok then
    (s.size.send (s.app.sendData cfg.trackFcalls l.buf.bytes.length l.genTime
      (l.mcpyEnd - l.mcpyStart) l.pinWaitUs)).map fun p =>
        { s' with size := p, handed := s.handed ++ [l.buf] }
  else some s'

/-- The next call of `ThreadFini`. -/
def finiCall (s : Sys Z) : Option (Sys Z) :=
  match s.pin with
  | .shutRdy => some { s with pin := .shutSize }
  | .shutSize => some { s with pin := .closeRdy, size := s.size.closeWr }
  | .closeRdy => some { s with pin := .closeSize, rdy := s.rdy.closeRd }
  | .closeSize => some { s with pin := .exited }
  | _ => none

/-- The ready signal carries the extra I/O of the last round. -/
def sendReady (s : Sys Z) : SendResult → Option (Sys Z)
  | .ok => (s.rdy.send s.extraIo).map fun p => { s with rdy := p, extraIo := 0, con := .recv }
  | .epipe => if s.rdy.rdClosed then some { s with con := .postLoop } else none
  | .error => some { s with con := .returned, aborted := true }

/-- `recv(size_fd)`: at end of file `recv_data` stays as it was, and only -1 is a failure. -/
def recvSize (s : Sys Z) : ReadResult → Option (Sys Z)
  | .message => s.size.recv.map fun m =>
      { s with size := m.2, recvData := m.1, recvRet := 56, con := .getDeltas }
  | .eof => if s.size.atEof then some { s with recvRet := 0, con := .getDeltas } else none
  | .error => some { s with con := .returned, aborted := true }

/-- The mapping after the processing: a raw block is padded in place. -/
def padded (cfg : Config) (s : Sys Z) : ℕ → UInt8 :=
  if cfg.useCompression then s.mem else pad s.mem s.recvData.dataSize

/-- What the loop body presents, `shared_mem[0, data_size)` as it is compressed or written, with the
number of the message the round has received. -/
def commit (cfg : Config) (s : Sys Z) : Commit where
  msg := if s.recvRet = 0 then none else some (s.size.received.length - 1)
  bytes := payload (s.padded cfg) s.recvData.dataSize

/-- Compress and write whole blocks, or write the padded block. -/
def processOut (cfg : Config) (s : Sys Z) (r : WriteResult) : Output Z × Bool :=
  if cfg.useCompression then s.out.processCompressed (payload s.mem s.recvData.dataSize) r
  else s.out.processRaw (payload (s.padded cfg) consumerBufferSize) r

/-- The processing part of the loop body. -/
def process (cfg : Config) (s : Sys Z) (r : WriteResult) : Sys Z :=
  let w := s.processOut cfg r
  { s with
    mem := s.padded cfg
    out := w.1
    con := if w.2 then .account else .returned
    aborted := !w.2
    commits := s.commits ++ [s.commit cfg] }

/-- The code after the loop: the frame is finished and the file renamed, or the file is closed. -/
def finishOut (cfg : Config) (s : Sys Z) (r : Output.FinishResults) : Output Z × Bool :=
  if cfg.useCompression then s.out.finish (rest s.mem s.out.zIn) r
  else ({ s.out with outFd := none }, true)

def postLoop (cfg : Config) (s : Sys Z) (r : Output.FinishResults) : Sys Z :=
  let f := s.finishOut cfg r
  { s with out := f.1, con := .returned, aborted := !f.2 }

end Sys

variable {Z : Zstd}

/-- The machine. -/
def step (cfg : Config) (s : Sys Z) : Action → Option (Sys Z)
  | .recordIns ins memIns =>
      if s.pin = .running then some { s with app := s.app.incrementInsExecuted ins memIns }
      else none
  | .countCall =>
      if s.pin = .running ∧ cfg.trackFcalls then some { s with app := s.app.countFunctionCalls }
      else none
  | .enter buf now rdyWaitStart =>
      if s.pin = .running then some { s with
        pin := .reading { buf, genTime := now - s.app.bufGenTime, rdyWaitStart } }
      else none
  | .readReady r rdyWaitEnd mcpyStart =>
      match s.pin with
      | .reading l => s.readReady l rdyWaitEnd mcpyStart r
      | _ => none
  | .copyByte =>
      match s.pin with
      | .copying l i => l.buf.bytes[i]?.map fun b =>
          { s with mem := Function.update s.mem i b, pin := .copying l (i + 1) }
      | _ => none
  | .copyDone mcpyEnd =>
      match s.pin with
      | .copying l i =>
          if i = l.buf.bytes.length then some { s with pin := .sending { l with mcpyEnd } }
          else none
      | _ => none
  | .sendSize ok =>
      match s.pin with
      | .sending l => s.sendSize cfg l ok
      | _ => none
  | .threadFini => if s.pin = .running then some { s with pin := .shutRdy } else none
  | .finiCall => s.finiCall
  | .createStop => if s.pin = .exited then some { s with stopFile := true } else none
  | .seeStop => if s.stopFile then some { s with stop := true } else none
  | .testStop =>
      if s.con = .head then some { s with con := if s.stop then .postLoop else .sendReady }
      else none
  | .sendReady r => if s.con = .sendReady then s.sendReady r else none
  | .recv r => if s.con = .recv then s.recvSize r else none
  | .getDeltas counts =>
      if s.con = .getDeltas then
        some { s with con := if counts.isNone then .postLoop else .testSize }
      else none
  | .testSize =>
      if s.con = .testSize then
        some { s with con := if s.recvData.dataSize = 0 then .postLoop else .process }
      else none
  | .process r => if s.con = .process then some (s.process cfg r) else none
  | .account extraIo openOk =>
      if s.con = .account then
        some { s with extraIo := extraIo, out := s.out.reopen openOk, con := .head }
      else none
  | .postLoop r => if s.con = .postLoop then some (s.postLoop cfg r) else none
  | .closeFd =>
      match s.con with
      | .returned => some { s with con := .rdyClosed, rdy := s.rdy.closeWr }
      | .rdyClosed => some { s with con := .closed, size := s.size.closeRd }
      | _ => none

/-! ### Outcomes -/

/-- The machine by outcome: one rule for each way a step can end. -/
inductive Fires (cfg : Config) (s : Sys Z) : Action → Sys Z → Prop where
  | recordIns {ins memIns} (hp : s.pin = .running) :
      Fires cfg s (.recordIns ins memIns) { s with app := s.app.incrementInsExecuted ins memIns }
  | countCall (hp : s.pin = .running) (hc : cfg.trackFcalls = true) :
      Fires cfg s .countCall { s with app := s.app.countFunctionCalls }
  | enter {buf now start} (hp : s.pin = .running) :
      Fires cfg s (.enter buf now start)
        { s with
          pin := .reading { buf, genTime := now - s.app.bufGenTime, rdyWaitStart := start } }
  | readSignal {l v q now start} (hp : s.pin = .reading l) (hq : s.rdy.queue = v :: q) :
      Fires cfg s (.readReady .message now start)
        { s with
          rdy := { s.rdy with received := s.rdy.received ++ [v], queue := q }
          pin := .copying { l with
            rdyBytes := 8, pinWaitUs := now - l.rdyWaitStart, mcpyStart := start } 0 }
  | readEof {l now start} (hp : s.pin = .reading l) (hq : s.rdy.queue = [])
      (hw : s.rdy.wrClosed = true) :
      Fires cfg s (.readReady .eof now start)
        { s with pin := .copying { l with
            rdyBytes := 0, pinWaitUs := now - l.rdyWaitStart, mcpyStart := start } 0 }
  | readError {l now start} (hp : s.pin = .reading l) :
      Fires cfg s (.readReady .error now start) { s with pin := .running }
  | copyByte {l i b} (hp : s.pin = .copying l i) (hb : l.buf.bytes[i]? = some b) :
      Fires cfg s .copyByte
        { s with mem := Function.update s.mem i b, pin := .copying l (i + 1) }
  | copyDone {l now} (hp : s.pin = .copying l l.buf.bytes.length) :
      Fires cfg s (.copyDone now) { s with pin := .sending { l with mcpyEnd := now } }
  | sendOk {l m} (hp : s.pin = .sending l) (hr : s.size.rdClosed = false)
      (hm : m = s.app.sendData cfg.trackFcalls l.buf.bytes.length l.genTime
        (l.mcpyEnd - l.mcpyStart) l.pinWaitUs) :
      Fires cfg s (.sendSize true)
        { s with
          pin := .running
          app := { s.app.reported with bufGenTime := l.mcpyEnd }
          size := { s.size with queue := s.size.queue ++ [m] }
          handed := s.handed ++ [l.buf] }
  | sendFail {l} (hp : s.pin = .sending l) :
      Fires cfg s (.sendSize false)
        { s with pin := .running, app := { s.app.reported with bufGenTime := l.mcpyEnd } }
  | threadFini (hp : s.pin = .running) : Fires cfg s .threadFini { s with pin := .shutRdy }
  | shutRdy (hp : s.pin = .shutRdy) : Fires cfg s .finiCall { s with pin := .shutSize }
  | shutSize (hp : s.pin = .shutSize) :
      Fires cfg s .finiCall { s with pin := .closeRdy, size := s.size.closeWr }
  | closeRdy (hp : s.pin = .closeRdy) :
      Fires cfg s .finiCall { s with pin := .closeSize, rdy := s.rdy.closeRd }
  | closeSize (hp : s.pin = .closeSize) : Fires cfg s .finiCall { s with pin := .exited }
  | createStop (hp : s.pin = .exited) : Fires cfg s .createStop { s with stopFile := true }
  | seeStop (hs : s.stopFile = true) : Fires cfg s .seeStop { s with stop := true }
  | stopped (hc : s.con = .head) (hs : s.stop = true) :
      Fires cfg s .testStop { s with con := .postLoop }
  | loop (hc : s.con = .head) (hs : s.stop = false) :
      Fires cfg s .testStop { s with con := .sendReady }
  | readyOk (hc : s.con = .sendReady) (hr : s.rdy.rdClosed = false) :
      Fires cfg s (.sendReady .ok)
        { s with
          rdy := { s.rdy with queue := s.rdy.queue ++ [s.extraIo] }, extraIo := 0, con := .recv }
  | readyEpipe (hc : s.con = .sendReady) (hr : s.rdy.rdClosed = true) :
      Fires cfg s (.sendReady .epipe) { s with con := .postLoop }
  | readyError (hc : s.con = .sendReady) :
      Fires cfg s (.sendReady .error) { s with con := .returned, aborted := true }
  | recvMessage {m q} (hc : s.con = .recv) (hq : s.size.queue = m :: q) :
      Fires cfg s (.recv .message)
        { s with
          size := { s.size with received := s.size.received ++ [m], queue := q }
          recvData := m
          recvRet := 56
          con := .getDeltas }
  | recvEof (hc : s.con = .recv) (hq : s.size.queue = []) (hw : s.size.wrClosed = true) :
      Fires cfg s (.recv .eof) { s with recvRet := 0, con := .getDeltas }
  | recvError (hc : s.con = .recv) :
      Fires cfg s (.recv .error) { s with con := .returned, aborted := true }
  | terminated (hc : s.con = .getDeltas) :
      Fires cfg s (.getDeltas none) { s with con := .postLoop }
  | counted {c} (hc : s.con = .getDeltas) :
      Fires cfg s (.getDeltas (some c)) { s with con := .testSize }
  | sizeZero (hc : s.con = .testSize) (hz : s.recvData.dataSize = 0) :
      Fires cfg s .testSize { s with con := .postLoop }
  | sizePos (hc : s.con = .testSize) (hz : s.recvData.dataSize ≠ 0) :
      Fires cfg s .testSize { s with con := .process }
  | processOk {r} (hc : s.con = .process) (hw : (s.processOut cfg r).2 = true) :
      Fires cfg s (.process r)
        { s with
          mem := s.padded cfg
          out := (s.processOut cfg r).1
          con := .account
          aborted := false
          commits := s.commits ++ [s.commit cfg] }
  | processFail {r} (hc : s.con = .process) (hw : (s.processOut cfg r).2 = false) :
      Fires cfg s (.process r)
        { s with
          mem := s.padded cfg
          out := (s.processOut cfg r).1
          con := .returned
          aborted := true
          commits := s.commits ++ [s.commit cfg] }
  | account {extraIo openOk} (hc : s.con = .account) :
      Fires cfg s (.account extraIo openOk)
        { s with extraIo := extraIo, out := s.out.reopen openOk, con := .head }
  | postLoop {r} (hc : s.con = .postLoop) :
      Fires cfg s (.postLoop r)
        { s with
          out := (s.finishOut cfg r).1, con := .returned, aborted := !(s.finishOut cfg r).2 }
  | closeRdyFd (hc : s.con = .returned) :
      Fires cfg s .closeFd { s with con := .rdyClosed, rdy := s.rdy.closeWr }
  | closeSizeFd (hc : s.con = .rdyClosed) :
      Fires cfg s .closeFd { s with con := .closed, size := s.size.closeRd }

section Inversion
variable {cfg : Config} {s t : Sys Z}

theorem fires_readReady {l : CopyLocals} {r : ReadResult} {now start : UInt64}
    (hp : s.pin = .reading l) (h : s.readReady l now start r = some t) :
    Fires cfg s (.readReady r now start) t := by
  cases r with
  | message =>
      obtain ⟨⟨v, q⟩, hr, rfl⟩ := Option.map_eq_some_iff.mp h
      obtain ⟨vs, hq, rfl⟩ := Pipe.recv_eq_some.mp hr
      exact .readSignal hp hq
  | eof =>
      obtain ⟨he, h⟩ := Option.ite_none_right_eq_some.mp h
      obtain ⟨hq, hw⟩ := Pipe.atEof_iff.mp he
      cases h
      exact .readEof hp hq hw
  | error =>
      cases h
      exact .readError hp

theorem fires_sendSize {l : CopyLocals} {ok : Bool} (hp : s.pin = .sending l)
    (h : s.sendSize cfg l ok = some t) : Fires cfg s (.sendSize ok) t := by
  cases ok with
  | true =>
      obtain ⟨p, hs, rfl⟩ := Option.map_eq_some_iff.mp h
      obtain ⟨hr, rfl⟩ := Pipe.send_eq_some.mp hs
      exact .sendOk hp hr rfl
  | false =>
      cases h
      exact .sendFail hp

theorem fires_finiCall (h : s.finiCall = some t) : Fires cfg s .finiCall t := by
  unfold Sys.finiCall at h
  split at h <;> rename_i hp <;> cases h
  · exact .shutRdy hp
  · exact .shutSize hp
  · exact .closeRdy hp
  · exact .closeSize hp

theorem fires_sendReady {r : SendResult} (hc : s.con = .sendReady) (h : s.sendReady r = some t) :
    Fires cfg s (.sendReady r) t := by
  cases r with
  | ok =>
      obtain ⟨p, hs, rfl⟩ := Option.map_eq_some_iff.mp h
      obtain ⟨hr, rfl⟩ := Pipe.send_eq_some.mp hs
      exact .readyOk hc hr
  | epipe =>
      obtain ⟨hr, h⟩ := Option.ite_none_right_eq_some.mp h
      cases h
      exact .readyEpipe hc hr
  | error =>
      cases h
      exact .readyError hc

theorem fires_recv {r : ReadResult} (hc : s.con = .recv) (h : s.recvSize r = some t) :
    Fires cfg s (.recv r) t := by
  cases r with
  | message =>
      obtain ⟨⟨m, q⟩, hr, rfl⟩ := Option.map_eq_some_iff.mp h
      obtain ⟨ms, hq, rfl⟩ := Pipe.recv_eq_some.mp hr
      exact .recvMessage hc hq
  | eof =>
      obtain ⟨he, h⟩ := Option.ite_none_right_eq_some.mp h
      obtain ⟨hq, hw⟩ := Pipe.atEof_iff.mp he
      cases h
      exact .recvEof hc hq hw
  | error =>
      cases h
      exact .recvError hc

theorem fires_process {r : WriteResult} (hc : s.con = .process) :
    Fires cfg s (.process r) (s.process cfg r) := by
  cases hw : (s.processOut cfg r).2 with
  | true =>
      rw [Sys.process, hw]
      exact .processOk hc hw
  | false =>
      rw [Sys.process, hw]
      exact .processFail hc hw

/-- **Inversion**: every step ends by one of the rules. -/
theorem fires_of_step {a : Action} (h : step cfg s a = some t) : Fires cfg s a t := by
  cases a with
  | recordIns ins memIns =>
      obtain ⟨hp, h⟩ := Option.ite_none_right_eq_some.mp h
      cases h
      exact .recordIns hp
  | countCall =>
      obtain ⟨⟨hp, hc⟩, h⟩ := Option.ite_none_right_eq_some.mp h
      cases h
      exact .countCall hp hc
  | enter buf now start =>
      obtain ⟨hp, h⟩ := Option.ite_none_right_eq_some.mp h
      cases h
      exact .enter hp
  | readReady r now start =>
      simp only [step] at h
      split at h
      · rename_i l hp
        exact fires_readReady hp h
      · cases h
  | copyByte =>
      simp only [step] at h
      split at h
      · rename_i l i hp
        obtain ⟨b, hb, rfl⟩ := Option.map_eq_some_iff.mp h
        exact .copyByte hp hb
      · cases h
  | copyDone now =>
      simp only [step] at h
      split at h
      · rename_i l i hp
        by_cases hi : i = l.buf.bytes.length
        · rw [if_pos hi] at h
          cases h
          exact .copyDone (hi ▸ hp)
        · rw [if_neg hi] at h
          cases h
      · cases h
  | sendSize ok =>
      simp only [step] at h
      split at h
      · rename_i l hp
        exact fires_sendSize hp h
      · cases h
  | threadFini =>
      obtain ⟨hp, h⟩ := Option.ite_none_right_eq_some.mp h
      cases h
      exact .threadFini hp
  | finiCall => exact fires_finiCall h
  | createStop =>
      obtain ⟨hp, h⟩ := Option.ite_none_right_eq_some.mp h
      cases h
      exact .createStop hp
  | seeStop =>
      obtain ⟨hs, h⟩ := Option.ite_none_right_eq_some.mp h
      cases h
      exact .seeStop hs
  | testStop =>
      obtain ⟨hc, h⟩ := Option.ite_none_right_eq_some.mp h
      by_cases hs : s.stop = true
      · rw [if_pos hs] at h
        cases h
        exact .stopped hc hs
      · rw [if_neg hs] at h
        cases h
        exact .loop hc (eq_false_of_ne_true hs)
  | sendReady r =>
      obtain ⟨hc, h⟩ := Option.ite_none_right_eq_some.mp h
      exact fires_sendReady hc h
  | recv r =>
      obtain ⟨hc, h⟩ := Option.ite_none_right_eq_some.mp h
      exact fires_recv hc h
  | getDeltas counts =>
      obtain ⟨hc, h⟩ := Option.ite_none_right_eq_some.mp h
      cases counts with
      | none => cases h; exact .terminated hc
      | some c => cases h; exact .counted hc
  | testSize =>
      obtain ⟨hc, h⟩ := Option.ite_none_right_eq_some.mp h
      by_cases hz : s.recvData.dataSize = 0
      · rw [if_pos hz] at h
        cases h
        exact .sizeZero hc hz
      · rw [if_neg hz] at h
        cases h
        exact .sizePos hc hz
  | process r =>
      obtain ⟨hc, h⟩ := Option.ite_none_right_eq_some.mp h
      cases h
      exact fires_process hc
  | account extraIo openOk =>
      obtain ⟨hc, h⟩ := Option.ite_none_right_eq_some.mp h
      cases h
      exact .account hc
  | postLoop r =>
      obtain ⟨hc, h⟩ := Option.ite_none_right_eq_some.mp h
      cases h
      exact .postLoop hc
  | closeFd =>
      simp only [step] at h
      split at h <;> rename_i hc <;> cases h
      · exact .closeRdyFd hc
      · exact .closeSizeFd hc

end Inversion

end BulletTime.Handoff
