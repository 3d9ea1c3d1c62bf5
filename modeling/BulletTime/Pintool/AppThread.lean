import BulletTime.Common

/-!
# Pintool — AppThread

The counters of an application thread and the metadata `CopyToSharedMemory` sends with a buffer.
Counters and clock readings are 64-bit words.

* `incrementInsExecuted` and `countFunctionCalls` are the instrumentation callbacks.
* `sendData` is the message, `reported` the thread once the message has been built: the counters at
  that moment become the `last_*` ones.
-/

namespace BulletTime.Pintool

/-- The part of `APP_THREAD_REPRESENTITVE` a hand-off reads and writes. -/
structure AppThread where
  insExecuted : UInt64 := 0
  memInsExecuted : UInt64 := 0
  fcallsExecuted : UInt64 := 0
  lastInsExecuted : UInt64 := 0
  lastMemInsExecuted : UInt64 := 0
  lastFcallsExecuted : UInt64 := 0
  bufGenTime : UInt64 := 0
  deriving DecidableEq

namespace AppThread

/-- `RecordInsExecuted`, at the end of each basic block. -/
def incrementInsExecuted (t : AppThread) (ins memIns : UInt64) : AppThread :=
  { t with insExecuted := t.insExecuted + ins, memInsExecuted := t.memInsExecuted + memIns }

/-- `CountFunctionCalls`, inserted only into the functions named by `-fcalls`. -/
def countFunctionCalls (t : AppThread) : AppThread :=
  { t with fcallsExecuted := t.fcallsExecuted + 1 }

/-- The message of a hand-off of `numBytes` bytes. -/
def sendData (trackFcalls : Bool) (t : AppThread) (numBytes : ℕ)
    (genTime copyTime pinWaitUs : UInt64) : Metadata :=
  let memInsExecuted := t.memInsExecuted - t.lastMemInsExecuted
  let insExecuted := t.insExecuted - t.lastInsExecuted
  let fcallsExecuted := t.fcallsExecuted - t.lastFcallsExecuted
  { dataSize := numBytes
    genTime := (genTime + copyTime).toNat
    pinWork := if trackFcalls then fcallsExecuted.toNat else insExecuted.toNat
    insExec := insExecuted.toNat
    memInsExec := memInsExecuted.toNat
    fcallsExec := fcallsExecuted.toNat
    pinWait := pinWaitUs.toNat }

/-- The thread once a message has been built, before it is sent. -/
def reported (t : AppThread) : AppThread :=
  { t with
    lastMemInsExecuted := t.lastMemInsExecuted + (t.memInsExecuted - t.lastMemInsExecuted)
    lastInsExecuted := t.lastInsExecuted + (t.insExecuted - t.lastInsExecuted)
    lastFcallsExecuted := t.fcallsExecuted }

end AppThread

end BulletTime.Pintool
