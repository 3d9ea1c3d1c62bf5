import BulletTime.Handoff.Protocol

/-!
# Handoff — Tokens

Which ready signal each hand-off uses.  The machine keeps, as history, the signal that the running
hand-off has read, and the signals of the copies and of the messages so far; a signal is named by
its place among those read, and `none` is the signal of a read that returned 0.

* `Owned`: each copy and each message has a signal of its own.
* `FailsWithoutToken`: a read that no signal can reach any more returns from `CopyToSharedMemory`
  with nothing done.
* `noMoreTokens_of_atEof`: at end of file no signal will come.
* `tokens_owned_iff`: both hold all along exactly the runs in which no read of the ready socket
  returns 0.
-/

namespace BulletTime.Handoff
open BulletTime.Pintool BulletTime.Consumer Transition

variable {Z : Zstd} {cfg : Config}

/-- The machine and the ready signals its hand-offs have used. -/
structure Tokened (Z : Zstd) where
  sys : Sys Z
  /-- The signal of the running hand-off. -/
  token : Option ℕ
  /-- The signals of the copies into the mapping. -/
  copies : List (Option ℕ)
  /-- The signals of the metadata messages sent. -/
  messages : List (Option ℕ)

namespace Tokened

def start (Z : Zstd) (mem : ℕ → UInt8) : Tokened Z := ⟨init Z mem, none, [], []⟩

/-- A copy begins when the read of the ready signal has not failed. -/
def note (s : Tokened Z) (a : Action) (t : Sys Z) : Tokened Z :=
  match a with
  | .readReady .message _ _ =>
      let k := some s.sys.rdy.received.length
      { s with sys := t, token := k, copies := s.copies ++ [k] }
  | .readReady .eof _ _ => { s with sys := t, token := none, copies := s.copies ++ [none] }
  | .sendSize true => { s with sys := t, messages := s.messages ++ [s.token] }
  | _ => { s with sys := t }

def step (cfg : Config) (s : Tokened Z) (a : Action) : Option (Tokened Z) :=
  (Handoff.step cfg s.sys a).map (s.note a)

/-- **Each hand-off has its own token**: the signal of a copy is one that was received, no two
copies have the same, and a message has that of the copy it announces. -/
structure Owned (s : Tokened Z) : Prop where
  received : ∀ c ∈ s.copies, ∃ k < s.sys.rdy.received.length, c = some k
  once : s.copies.Nodup
  messages : s.messages.Sublist s.copies

/-- No ready signal is in flight and none will be sent. -/
def NoMoreTokens (cfg : Config) (s : Sys Z) : Prop :=
  s.rdy.queue = [] ∧ ∀ t, Reachable (Handoff.step cfg) s t → t.rdy.sent = s.rdy.sent

/-- Where no signal can come any more, the read of the ready signal leads to the failure return:
nothing is copied or sent, and no counter moves. -/
def FailsWithoutToken (cfg : Config) (s : Tokened Z) (a : Action) : Prop :=
  NoMoreTokens cfg s.sys → ∀ r now start, a = .readReady r now start →
    ∀ t, s.step cfg a = some t → t = { s with sys := { s.sys with pin := .running } }

/-- The step is no read of the ready socket that returns 0. -/
def ReadsNoEof (_ : Tokened Z) (a : Action) : Prop := ∀ now start, a ≠ .readReady .eof now start

/-- The copies have used the signals read, in order; while a hand-off has the mapping the last copy
is its own, and not yet announced. -/
structure Numbered (s : Tokened Z) : Prop where
  copies : s.copies = (List.range s.sys.rdy.received.length).map some
  messages : s.messages.Sublist s.copies
  handing : ∀ l, s.sys.pin.Handing l → ∃ cs, s.copies = cs ++ [s.token] ∧ s.messages.Sublist cs

theorem numbered_start (Z : Zstd) (mem : ℕ → UInt8) : Numbered (start Z mem) where
  copies := rfl
  messages := List.Sublist.refl _
  handing := by
    rintro l (⟨i, h⟩ | h) <;> cases h

theorem Numbered.owned {s : Tokened Z} (hi : Numbered s) : Owned s where
  received := by
    intro c hc
    rw [hi.copies] at hc
    obtain ⟨k, hk, rfl⟩ := List.mem_map.mp hc
    exact ⟨k, List.mem_range.mp hk, rfl⟩
  once := by
    rw [hi.copies]
    exact List.Pairwise.map some (fun _ _ hne he => hne (Option.some.inj he)) List.nodup_range
  messages := hi.messages

/-- A step that reads no signal, begins no hand-off and sends no message. -/
theorem Numbered.move {s : Tokened Z} {t : Sys Z} (hi : Numbered s)
    (hr : t.rdy.received = s.sys.rdy.received)
    (hp : ∀ l, t.pin.Handing l → ∃ l', s.sys.pin.Handing l') : Numbered { s with sys := t } where
  copies := hi.copies.trans (congrArg _ (congrArg _ (congrArg _ hr.symm)))
  messages := hi.messages
  handing := by
    intro l hl
    obtain ⟨l', hl'⟩ := hp l hl
    exact hi.handing l' hl'

/-- **One step** keeps the numbering, unless it is a read that returns 0. -/
theorem Numbered.step {s t : Tokened Z} {a : Action} (hi : Numbered s) (ha : ReadsNoEof s a)
    (h : s.step cfg a = some t) : Numbered t := by
  obtain ⟨u, hu, rfl⟩ := Option.map_eq_some_iff.mp h
  cases fires_of_step hu with
  | readEof => exact absurd rfl (ha _ _)
  | readSignal hp hq =>
      refine ⟨?_, hi.messages.trans (List.sublist_append_left _ _),
        fun _ _ => ⟨_, rfl, hi.messages⟩⟩
      simp only [note, hi.copies, List.length_append, List.length_singleton, List.range_succ,
        List.map_append, List.map_singleton]
  | sendOk hp =>
      obtain ⟨cs, hcs, hsub⟩ := hi.handing _ (.inr hp)
      refine ⟨hi.copies, ?_, ?_⟩
      · simp only [note, hcs]
        exact hsub.append_right _
      · rintro l (⟨i, h⟩ | h) <;> cases h
  | copyByte hp => exact hi.move rfl fun _ _ => ⟨_, .inl ⟨_, hp⟩⟩
  | copyDone hp => exact hi.move rfl fun _ _ => ⟨_, .inl ⟨_, hp⟩⟩
  | enter | readError | sendFail | threadFini | shutRdy | shutSize | closeRdy | closeSize =>
      refine hi.move rfl ?_
      rintro l (⟨i, h⟩ | h) <;> cases h
  | recordIns | countCall | createStop | seeStop | stopped | loop | readyOk | readyEpipe
  | readyError | recvMessage | recvEof | recvError | terminated | counted | sizeZero | sizePos
  | processOk | processFail | account | postLoop | closeRdyFd | closeSizeFd =>
      exact hi.move rfl fun l hl => ⟨l, hl⟩

/-- Without a signal in flight, and unless the read returns 0, the call fails. -/
theorem failsWithoutToken_of_readsNoEof {s : Tokened Z} {a : Action} (ha : ReadsNoEof s a) :
    FailsWithoutToken cfg s a := by
  rintro ⟨hq, -⟩ r now start rfl t h
  obtain ⟨u, hu, rfl⟩ := Option.map_eq_some_iff.mp h
  cases fires_of_step hu with
  | readSignal hp hq' =>
      rw [hq] at hq'
      cases hq'
  | readEof => exact absurd rfl (ha _ _)
  | readError => rfl

/-- A read that returns 0 is followed by a copy that has no token. -/
theorem readsNoEof_of_owned {s t : Tokened Z} {a : Action} (h : s.step cfg a = some t)
    (ho : Owned t) : ReadsNoEof s a := by
  rintro now start rfl
  obtain ⟨u, -, rfl⟩ := Option.map_eq_some_iff.mp h
  obtain ⟨k, -, hk⟩ := ho.received none (List.mem_append_right _ (List.mem_singleton.mpr rfl))
  cases hk

/-! ### The end of the tokens -/

/-- **At end of file no signal will come**: the consumer has closed its end, and sends no more. -/
theorem noMoreTokens_of_atEof {mem : ℕ → UInt8} {s : Sys Z}
    (hs : Reachable (Handoff.step cfg) (init Z mem) s) (h : s.rdy.atEof = true) :
    NoMoreTokens cfg s := by
  obtain ⟨hq, hw⟩ := Pipe.atEof_iff.mp h
  refine ⟨hq, fun t ht => ?_⟩
  have hcon := (protocol_reachable hs).1.rdyWr.mp hw
  refine (ht.invariant (I := fun t => t.rdy.sent = s.rdy.sent ∧
    (t.con = .rdyClosed ∨ t.con = .closed)) ⟨rfl, hcon⟩ fun t a u hi hu => ?_).1
  obtain ⟨hsent, hclosed⟩ := hi
  cases fires_of_step hu with
  | @readSignal l v q now start hp hqt =>
      refine ⟨?_, hclosed⟩
      rw [← hsent, Pipe.sent, Pipe.sent, hqt, List.append_assoc]
      rfl
  | closeSizeFd => exact ⟨hsent, .inr rfl⟩
  | stopped hc | loop hc | readyOk hc | readyEpipe hc | readyError hc | recvMessage hc
  | recvEof hc | recvError hc | terminated hc | counted hc | sizeZero hc | sizePos hc
  | processOk hc | processFail hc | account hc | postLoop hc | closeRdyFd hc =>
      rw [hc] at hclosed
      rcases hclosed with e | e <;> cases e
  | _ => exact ⟨hsent, hclosed⟩

/-! ### Whole runs -/

/-- **Each hand-off has its own token, and without one the call fails**, all along a run, exactly
when no read of the ready socket returns 0 in it. -/
theorem tokens_owned_iff (cfg : Config) (mem : ℕ → UInt8) {as : List Action} {s : Tokened Z}
    (h : exec (Tokened.step cfg) (start Z mem) as = some s) :
    EveryState (Tokened.step cfg) (start Z mem) as Owned ∧
        EveryStep (Tokened.step cfg) (start Z mem) as (FailsWithoutToken cfg) ↔
      EveryStep (Tokened.step cfg) (start Z mem) as ReadsNoEof := by
  constructor
  · rintro ⟨ho, -⟩
    exact EveryState.everyStep (I := fun _ => True) trivial (fun _ _ _ _ _ => trivial)
      (fun _ _ _ _ hs => readsNoEof_of_owned hs) ho h
  · intro hr
    exact ⟨hr.everyState (numbered_start Z mem) (fun _ _ _ hi ha hs => hi.step ha hs)
      fun _ hi => hi.owned, hr.mono fun _ _ ha => failsWithoutToken_of_readsNoEof ha⟩

/-- A buffer of one byte. -/
def oneByteBuffer : TraceBuffer := ⟨[7], Nat.le_of_ble_eq_true rfl⟩

/-- `Listen` sends a signal, and the traced thread hands a byte off. -/
def oneByte : List Action :=
  [.testStop, .sendReady .ok, .enter oneByteBuffer 0 0, .readReady .message 1 1, .copyByte,
    .copyDone 2, .sendSize true]

theorem tokens_owned_iff_oneByte :
    ∃ s, exec (Tokened.step {}) (start storing fun _ => 0) oneByte = some s ∧
      (EveryState (Tokened.step {}) (start storing fun _ => 0) oneByte Owned ∧
          EveryStep (Tokened.step {}) (start storing fun _ => 0) oneByte (FailsWithoutToken {}) ↔
        EveryStep (Tokened.step {}) (start storing fun _ => 0) oneByte ReadsNoEof) :=
  ⟨_, rfl, tokens_owned_iff _ _ rfl⟩

/-- `Listen` fails to send its first signal and returns, and the ready socket is closed; the traced
thread then executes five instructions and hands a byte off. -/
def abandoned : List Action :=
  [.testStop, .sendReady .error, .closeFd, .recordIns 5 2, .enter oneByteBuffer 0 0,
    .readReady .eof 1 1, .copyByte, .copyDone 2, .sendSize true]

/-- The hand-off copies its byte, sends its message and takes its instructions for reported. -/
theorem abandoned_hands_off :
    ∃ s, exec (Tokened.step {}) (start storing fun _ => 0) abandoned = some s ∧
      s.sys.mem 0 = 7 ∧ s.sys.size.sent.length = 1 ∧ s.sys.app.lastInsExecuted = 5 ∧
      ¬ EveryState (Tokened.step {}) (start storing fun _ => 0) abandoned Owned ∧
      ¬ EveryStep (Tokened.step {}) (start storing fun _ => 0) abandoned
        (FailsWithoutToken {}) := by
  refine ⟨_, rfl, rfl, rfl, rfl, fun ho => ?_, fun hf => ?_⟩
  · obtain ⟨k, -, hk⟩ := (ho.last rfl).received none (List.mem_singleton.mpr rfl)
    cases hk
  · -- the read of the ready signal, at end of file
    have hreach : Reachable (Handoff.step {}) (init storing fun _ => 0) _ :=
      ⟨abandoned.take 5, rfl⟩
    have hread := hf (abandoned.take 5) _ (abandoned.drop 6) _ rfl rfl
      (noMoreTokens_of_atEof hreach rfl) _ _ _ rfl _ rfl
    have hcopies := congrArg Tokened.copies hread
    cases hcopies

end Tokened

end BulletTime.Handoff
