import BulletTime.Pintool.FillCalls
import BulletTime.Handoff.Progress
import BulletTime.Handoff.Written

/-!
# Pipeline — Model

A traced thread from the instructions it executes on: the inserted calls run in its blocks, the fill
calls append to its trace buffer, Pin calls `BufferFull_PC` with the buffer, and from there the
machine of the hand-off takes over.

* `FillBuffer`: the buffer Pin fills, never beyond its limit.
* `State`, `step`: the thread and its hand-off.  `executed` and `full` are history.
* `State.call`: what a step is to the hand-off; `exists_handOff` is the run of the hand-off below.
* `Kept`: every record made is in a buffer handed over, in the thread's buffer or still to append.
* `offered_sublist`, `offered_eq`: the buffers the hand-off has.

`[about the source]`: `KnobOutPrefix` is set; without it a buffer handed over goes nowhere.
-/

namespace BulletTime.Pipeline
open BulletTime.Pintool BulletTime.Consumer BulletTime.Handoff Transition

/-! ### States -/

/-- A trace buffer. -/
structure FillBuffer where
  records : List MemRef
  fits : records.length ≤ Consumer.bufEntryLimit

namespace FillBuffer

def empty : FillBuffer := ⟨[], Nat.zero_le _⟩

/-- A fill call writes its record behind the others. -/
def push (b : FillBuffer) (r : MemRef) (h : b.records.length < Consumer.bufEntryLimit) :
    FillBuffer :=
  ⟨b.records ++ [r], le_of_eq_of_le List.length_append h⟩

def bytes (b : FillBuffer) : List UInt8 := b.records.flatMap MemRef.encode

theorem length_bytes_le (b : FillBuffer) : b.bytes.length ≤ consumerBufferSize := by
  have hlimit : Consumer.bufEntryLimit * MemRef.size ≤ consumerBufferSize := by decide
  rw [bytes, Records.length_flatMap _ MemRef.length_encode]
  exact (Nat.mul_le_mul_right _ b.fits).trans hlimit

/-- The buffer `ProcessBuffer` is given. -/
def toTrace (b : FillBuffer) : TraceBuffer := ⟨b.bytes, b.length_bytes_le⟩

end FillBuffer

/-- A thread and its hand-off. -/
structure State (Z : Zstd) where
  /-- The records of its block that are still to append. -/
  pending : List MemRef
  buffer : FillBuffer
  /-- Its last buffer has been handed over. -/
  leaving : Bool
  sys : Sys Z
  /-- The blocks executed. -/
  executed : List BblRun
  /-- The buffers handed over. -/
  full : List FillBuffer

def init (Z : Zstd) (mem : ℕ → UInt8) : State Z where
  pending := []
  buffer := .empty
  leaving := false
  sys := Handoff.init Z mem
  executed := []
  full := []

/-! ### Steps -/

inductive Act where
  /-- A block is entered; `RecordInsExecuted` runs once for it. -/
  | enterBbl (r : BblRun)
  /-- The next fill call. -/
  | fill
  /-- `BufferFull_PC`, the buffer being full. -/
  | bufferFull (now rdyWaitStart : UInt64)
  /-- `BufferFull_PC`, the thread exiting. -/
  | lastBuffer (now rdyWaitStart : UInt64)
  | threadFini
  /-- Any other step of the hand-off. -/
  | other (a : Action)

/-- The steps of the hand-off that the thread's execution decides. -/
def ofExecution : Action → Bool
  | .recordIns .. | .enter .. | .threadFini => true
  | _ => false

variable {Z : Zstd}

/-- `CopyToSharedMemory` is called with the buffer, and Pin fills it again. -/
def State.handOver (cfg : Config) (s : State Z) (leaving : Bool) (now rdyWaitStart : UInt64) :
    Option (State Z) :=
  (Handoff.step cfg s.sys (.enter s.buffer.toTrace now rdyWaitStart)).map fun t =>
    { s with buffer := .empty, leaving := leaving, sys := t, full := s.full ++ [s.buffer] }

/-- The machine. -/
def step (k : Knobs) (cfg : Config) (s : State Z) : Act → Option (State Z)
  | .enterBbl r =>
      if s.leaving = false ∧ s.pending = [] then
        let b := r.inserted k
        (Handoff.step cfg s.sys (.recordIns b.numIns b.numMemIns)).map fun t =>
          { s with pending := r.records k, sys := t, executed := s.executed ++ [r] }
      else none
  | .fill =>
      match s.pending with
      | [] => none
      | r :: pending =>
          if h : s.sys.pin = .running ∧ s.buffer.records.length < Consumer.bufEntryLimit then
            some { s with pending := pending, buffer := s.buffer.push r h.2 }
          else none
  | .bufferFull now start =>
      if s.buffer.records.length = Consumer.bufEntryLimit then s.handOver cfg s.leaving now start
      else none
  | .lastBuffer now start =>
      if s.leaving = false ∧ s.pending = [] then s.handOver cfg true now start else none
  | .threadFini =>
      if s.pending = [] ∧ s.buffer.records = [] then
        (Handoff.step cfg s.sys .threadFini).map fun t => { s with sys := t }
      else none
  | .other a =>
      if ofExecution a then none
      else (Handoff.step cfg s.sys a).map fun t => { s with sys := t }

/-- The step of the hand-off a step makes. -/
def State.call (k : Knobs) (s : State Z) : Act → Option Action
  | .enterBbl r => some (.recordIns (r.inserted k).numIns (r.inserted k).numMemIns)
  | .fill => none
  | .bufferFull now start | .lastBuffer now start => some (.enter s.buffer.toTrace now start)
  | .threadFini => some .threadFini
  | .other a => some a

/-- The machine by outcome. -/
inductive Fires (k : Knobs) (cfg : Config) (s : State Z) : Act → State Z → Prop where
  | enterBbl {r t} (hp : s.pending = [])
      (h : Handoff.step cfg s.sys
        (.recordIns (r.inserted k).numIns (r.inserted k).numMemIns) = some t) :
      Fires k cfg s (.enterBbl r)
        { s with pending := r.records k, sys := t, executed := s.executed ++ [r] }
  | fill {r pending} (hp : s.pending = r :: pending) (hrun : s.sys.pin = .running)
      (hlt : s.buffer.records.length < Consumer.bufEntryLimit) :
      Fires k cfg s .fill { s with pending := pending, buffer := s.buffer.push r hlt }
  | handOver {a leaving now start t} (ha : s.call k a = some (.enter s.buffer.toTrace now start))
      (h : Handoff.step cfg s.sys (.enter s.buffer.toTrace now start) = some t) :
      Fires k cfg s a
        { s with buffer := .empty, leaving := leaving, sys := t, full := s.full ++ [s.buffer] }
  | threadFini {t} (hp : s.pending = []) (hb : s.buffer.records = [])
      (h : Handoff.step cfg s.sys .threadFini = some t) :
      Fires k cfg s .threadFini { s with sys := t }
  | other {a t} (ha : ofExecution a = false) (h : Handoff.step cfg s.sys a = some t) :
      Fires k cfg s (.other a) { s with sys := t }

variable {k : Knobs} {cfg : Config} {s t : State Z} {a : Act}

theorem fires_handOver {leaving : Bool} {now start : UInt64}
    (ha : s.call k a = some (.enter s.buffer.toTrace now start))
    (h : s.handOver cfg leaving now start = some t) : Fires k cfg s a t := by
  obtain ⟨u, hu, rfl⟩ := Option.map_eq_some_iff.mp h
  exact .handOver ha hu

theorem fires_of_step (h : step k cfg s a = some t) : Fires k cfg s a t := by
  cases a with
  | enterBbl r =>
      obtain ⟨hg, h⟩ := Option.ite_none_right_eq_some.mp h
      obtain ⟨u, hu, rfl⟩ := Option.map_eq_some_iff.mp h
      exact .enterBbl hg.2 hu
  | fill =>
      simp only [step] at h
      split at h
      · cases h
      · rename_i r pending hp
        split at h
        · rename_i hg
          cases h
          exact .fill hp hg.1 hg.2
        · cases h
  | bufferFull now start =>
      obtain ⟨-, h⟩ := Option.ite_none_right_eq_some.mp h
      exact fires_handOver rfl h
  | lastBuffer now start =>
      obtain ⟨-, h⟩ := Option.ite_none_right_eq_some.mp h
      exact fires_handOver rfl h
  | threadFini =>
      obtain ⟨hg, h⟩ := Option.ite_none_right_eq_some.mp h
      obtain ⟨u, hu, rfl⟩ := Option.map_eq_some_iff.mp h
      exact .threadFini hg.1 hg.2 hu
  | other a =>
      obtain ⟨ha, h⟩ := Option.ite_none_left_eq_some.mp h
      obtain ⟨u, hu, rfl⟩ := Option.map_eq_some_iff.mp h
      exact .other (eq_false_of_ne_true ha) hu

/-- **The hand-off below** takes the calls of the run, and meets what they meet. -/
theorem exists_handOff {mem : ℕ → UInt8} {as : List Act}
    (h : exec (step k cfg) (init Z mem) as = some s) :
    ∃ bs, exec (Handoff.step cfg) (Handoff.init Z mem) bs = some s.sys ∧
      ∀ D : Sys Z → Action → Prop, EveryStep (Handoff.step cfg) (Handoff.init Z mem) bs D ↔
        EveryStep (step k cfg) (init Z mem) as fun s a => ∀ b ∈ s.call k a, D s.sys b := by
  refine exists_run_below (f := State.sys) (g := fun s a => s.call k a) ?_ ?_ h
  · intro s a t hs hg
    cases fires_of_step hs with
    | fill => rfl
    | handOver ha => cases hg.symm.trans ha
    | enterBbl | threadFini | other => cases hg
  · intro s a t b hs hg
    cases fires_of_step hs with
    | fill => cases hg
    | handOver ha h => cases hg.symm.trans ha; exact h
    | enterBbl hp h | threadFini hp hb h | other ha h => cases hg; exact h

/-! ### The buffers of the hand-off -/

/-- `ThreadFini` has begun. -/
def finished : PinPc → Bool
  | .shutRdy | .shutSize | .closeRdy | .closeSize | .exited => true
  | _ => false

/-- The buffers handed off, and the one in the hand-off. -/
def offered (s : Sys Z) : List TraceBuffer :=
  s.handed ++ (s.pin.locals.map (·.buf)).toList

/-- No read and no send of the thread fails. -/
def Delivers : Action → Prop
  | .readReady .error .. | .sendSize false => False
  | _ => True

theorem offered_of_pin {s t : Sys Z} (hh : t.handed = s.handed)
    (hp : t.pin.locals.map (·.buf) = s.pin.locals.map (·.buf)) : offered t = offered s := by
  rw [offered, offered, hh, hp]

/-- A hand-off that is given up. -/
theorem offered_drop {s t : Sys Z} (hh : t.handed = s.handed) (hp : t.pin.locals = none) :
    (offered t).Sublist (offered s) := by
  rw [offered, offered, hh, hp]
  exact (List.append_nil _).symm ▸ List.sublist_append_left _ _

/-- The hand-off loses a buffer only where one of its calls fails. -/
theorem offered_fires {s t : Sys Z} {a : Action} (h : Handoff.Fires cfg s a t)
    (ha : ofExecution a = false) :
    (offered t).Sublist (offered s) ∧ (Delivers a → offered t = offered s) := by
  have keeps (he : offered t = offered s) :
      (offered t).Sublist (offered s) ∧ (Delivers a → offered t = offered s) :=
    ⟨he ▸ List.Sublist.refl _, fun _ => he⟩
  cases h with
  | recordIns | enter | threadFini => cases ha
  | readError => exact ⟨offered_drop rfl rfl, False.elim⟩
  | sendFail => exact ⟨offered_drop rfl rfl, False.elim⟩
  | sendOk hp =>
      refine keeps ?_
      rw [offered, offered, hp]
      exact List.append_nil _
  | readSignal hp | readEof hp | copyByte hp | copyDone hp | shutRdy hp | shutSize hp
  | closeRdy hp | closeSize hp => exact keeps (offered_of_pin rfl (by rw [hp]; rfl))
  | _ => exact keeps rfl

/-- A hand-off begins. -/
theorem offered_enter {s t : Sys Z} {buf : TraceBuffer} {now start : UInt64}
    (h : Handoff.step cfg s (.enter buf now start) = some t) :
    finished t.pin = false ∧ offered t = offered s ++ [buf] := by
  cases Handoff.fires_of_step h with
  | enter hrun =>
      refine ⟨rfl, ?_⟩
      rw [offered, offered, hrun]
      exact congrArg (· ++ [buf]) (List.append_nil s.handed).symm

theorem offered_threadFini {s t : Sys Z} (h : Handoff.step cfg s .threadFini = some t) :
    offered t = offered s := by
  cases Handoff.fires_of_step h with
  | threadFini hrun => exact offered_of_pin rfl (by rw [hrun]; rfl)

theorem finished_fires {s t : Sys Z} {a : Action} (h : Handoff.Fires cfg s a t)
    (ha : ofExecution a = false) : finished t.pin = finished s.pin := by
  cases h with
  | recordIns | enter | threadFini => cases ha
  | readSignal hp | readEof hp | readError hp | copyByte hp | copyDone hp | sendOk hp
  | sendFail hp | shutRdy hp | shutSize hp | closeRdy hp | closeSize hp => rw [hp]; rfl
  | _ => rfl

/-! ### The records of the thread -/

/-- The records of all that was executed. -/
def State.records (k : Knobs) (s : State Z) : List MemRef := s.executed.flatMap (·.records k)

structure Kept (k : Knobs) (s : State Z) : Prop where
  records : s.full.flatMap (·.records) ++ (s.buffer.records ++ s.pending) = s.records k
  finished : finished s.sys.pin = true → s.pending = [] ∧ s.buffer.records = []
  offered : (offered s.sys).Sublist (s.full.map (·.toTrace))

theorem kept_init (k : Knobs) (Z : Zstd) (mem : ℕ → UInt8) : Kept k (init Z mem) where
  records := rfl
  finished := nofun
  offered := List.Sublist.refl _

theorem Kept.fires (hi : Kept k s) (h : Fires k cfg s a t) : Kept k t := by
  cases h with
  | @enterBbl r u hp h =>
      cases Handoff.fires_of_step h with
      | recordIns hrun =>
          refine ⟨?_, fun hf => ?_, hi.offered⟩
          · have hrec := hi.records
            rw [hp, List.append_nil] at hrec
            rw [State.records, List.flatMap_append, List.flatMap_singleton, ← State.records, ← hrec,
              List.append_assoc]
          · rw [hrun] at hf
            cases hf
  | fill hp hrun hlt =>
      refine ⟨?_, fun hf => ?_, hi.offered⟩
      · have hrec := hi.records
        rw [hp] at hrec
        rw [FillBuffer.push, List.append_assoc, List.singleton_append]
        exact hrec
      · rw [hrun] at hf
        cases hf
  | handOver ha h =>
      obtain ⟨hrun, hoff⟩ := offered_enter h
      refine ⟨?_, fun hf => ?_, ?_⟩
      · have hrec := hi.records
        rw [List.flatMap_append, List.flatMap_singleton, List.append_assoc]
        exact hrec
      · rw [hrun] at hf
        cases hf
      · rw [hoff, List.map_append, List.map_singleton]
        exact hi.offered.append_right _
  | threadFini hp hb h =>
      exact ⟨hi.records, fun _ => ⟨hp, hb⟩, (offered_threadFini h).symm ▸ hi.offered⟩
  | other ha h =>
      have hf := Handoff.fires_of_step h
      refine ⟨hi.records, ?_, (offered_fires hf ha).1.trans hi.offered⟩
      rw [finished_fires hf ha]
      exact hi.finished

/-- Where no call of the thread fails the hand-off has every buffer. -/
theorem offered_eq_fires (hi : offered s.sys = s.full.map (·.toTrace)) (h : Fires k cfg s a t)
    (ha : ∀ b ∈ s.call k a, Delivers b) : offered t.sys = t.full.map (·.toTrace) := by
  cases h with
  | enterBbl hp h =>
      cases Handoff.fires_of_step h with
      | recordIns => exact hi
  | fill => exact hi
  | handOver hcall h => rw [(offered_enter h).2, hi, List.map_append, List.map_singleton]
  | threadFini hp hb h => exact (offered_threadFini h).trans hi
  | other hb h => exact ((offered_fires (Handoff.fires_of_step h) hb).2 (ha _ rfl)).trans hi

end BulletTime.Pipeline
