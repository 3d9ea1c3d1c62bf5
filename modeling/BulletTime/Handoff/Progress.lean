import BulletTime.Handoff.Ownership

/-!
# Handoff — Progress

That a hand-off returns, and that `Listen` ends once its thread is gone.  Two calls wait: the read
of a ready signal, and the `recv` of a message.  The bounds count steps of the machine; a step
between two socket calls (`getDeltas`, `process`, `account`, `postLoop`) makes several calls.

* `Fails`: a call fails although its socket is open.
* `Answered`: while `Listen` waits its signal is on its way, held by a hand-off or answered.  The
  one step that breaks this is a metadata send that fails.
* `PinPc.left` and `Sys.listenLeft`: the steps that are left to either side.
* `Sys.Stuck`: what it leaves, a thread without a signal and a `Listen` without a message.
* `handOff_returns`: the two sides never wait for each other, and whatever they do a hand-off of `n`
  bytes is over within `n + 14` steps.
* `listen_ends`: without a stop file too.
-/

namespace BulletTime.Handoff
open BulletTime.Pintool BulletTime.Consumer Transition

variable {Z : Zstd} {cfg : Config} {s t : Sys Z} {a : Action}

/-! ### Waiting -/

/-- A call fails although its socket is open. -/
def Fails (s : Sys Z) : Action → Prop
  | .readReady .error _ _ | .sendReady .error | .recv .error => True
  | .sendSize false => s.size.rdClosed = false
  | _ => False

/-- The step is no metadata send that fails although the socket is open. -/
def SendsMetadata (s : Sys Z) (a : Action) : Prop := a = .sendSize false → s.size.rdClosed = true

/-- While `Listen` waits for a message its signal is on its way, held by the hand-off or answered,
unless the thread has shut the socket down. -/
def Sys.Answered (s : Sys Z) : Prop :=
  s.con = .recv →
    s.size.wrClosed = true ∨ 0 < s.rdy.queue.length + s.pin.signals + s.size.queue.length

/-- A step that leaves what is on its way to `Listen`. -/
theorem Sys.Answered.move (hi : s.Answered) (hc : t.con = s.con)
    (hw : t.size.wrClosed = s.size.wrClosed) (hr : t.rdy.queue = s.rdy.queue)
    (hp : t.pin.signals = s.pin.signals) (hq : t.size.queue = s.size.queue) : t.Answered := by
  rw [Sys.Answered, hc, hw, hr, hp, hq]
  exact hi

theorem answered_of_ne (h : t.con ≠ .recv) : t.Answered := fun e => absurd e h

theorem Sys.Answered.fires (he : Ends s) (hi : s.Answered) (ha : SendsMetadata s a)
    (h : Fires cfg s a t) : t.Answered := by
  cases h with
  | recordIns | countCall | createStop | seeStop => exact hi
  | enter hp | readError hp | threadFini hp | shutRdy hp | closeRdy hp | closeSize hp
  | copyByte hp | copyDone hp => exact hi.move rfl rfl rfl (by rw [hp]; rfl) rfl
  | readSignal hp hq =>
      -- the signal is read, and the hand-off holds it
      refine fun _ => .inr ?_
      rw [signals_copying, if_neg (Nat.succ_ne_zero 7)]
      omega
  | readEof hp hq hw =>
      refine answered_of_ne fun e => ?_
      rcases he.rdyWr.mp hw with h | h <;> cases e.symm.trans h
  | sendOk =>
      refine fun _ => .inr ?_
      rw [List.length_append, List.length_singleton]
      omega
  | sendFail =>
      have hclosed := he.sizeRd.mp (ha rfl)
      refine answered_of_ne fun e => ?_
      cases hclosed.symm.trans e
  | shutSize => exact fun _ => .inl rfl
  | readyOk =>
      refine fun _ => .inr ?_
      rw [List.length_append, List.length_singleton]
      omega
  | _ => exact answered_of_ne nofun

/-! ### What is left to do -/

namespace PinPc

/-- The locals of a hand-off. -/
def locals : PinPc → Option CopyLocals
  | .reading l | .copying l _ | .sending l => some l
  | _ => none

/-- The steps a hand-off has left. -/
def left : PinPc → ℕ
  | .reading l => l.buf.bytes.length + 3
  | .copying l i => l.buf.bytes.length - i + 2
  | .sending _ => 1
  | _ => 0

end PinPc

/-- The steps `Listen` has left until it waits for a message that is not there, or is gone. -/
def Sys.listenLeft (s : Sys Z) : ℕ :=
  match s.con with
  | .recv => if s.size.queue = [] ∧ s.size.wrClosed = false then 4 else 11
  | .getDeltas => 10
  | .testSize => 9
  | .process => 8
  | .account => 7
  | .head => 6
  | .sendReady => 5
  | .postLoop => 3
  | .returned => 2
  | .rdyClosed => 1
  | .closed => 0

theorem listenLeft_le (s : Sys Z) : s.listenLeft ≤ 11 := by
  unfold Sys.listenLeft
  split
  · split_ifs <;> omega
  all_goals omega

namespace Action

/-- The step is one of `Listen`, or of `ReceiverThread` after it. -/
def ofListen : Action → Bool
  | .testStop | .sendReady _ | .recv _ | .getDeltas _ | .testSize | .process _ | .account _ _
  | .postLoop _ | .closeFd => true
  | _ => false

end Action

/-! ### Nobody waits for ever -/

/-- Some step is possible in which no call fails. -/
def Moves (cfg : Config) (J : Action → Prop) (s : Sys Z) : Prop :=
  ∃ a, J a ∧ (step cfg s a).isSome = true ∧ ¬ Fails s a

/-- `Listen`, and `ReceiverThread` after it, can go on unless they wait for a message. -/
theorem listen_moves (hc : s.con ≠ .closed)
    (hr : s.con = .recv → s.size.queue ≠ [] ∨ s.size.wrClosed = true) :
    Moves cfg (fun a => a.ofListen = true) s := by
  cases h : s.con with
  | head => exact ⟨.testStop, rfl, by simp only [step, if_pos h, Option.isSome_some], id⟩
  | sendReady =>
      cases hrd : s.rdy.rdClosed with
      | false =>
          refine ⟨.sendReady .ok, rfl, ?_, id⟩
          simp only [step, h, if_true, Sys.sendReady, Pipe.send, hrd]
          rfl
      | true =>
          refine ⟨.sendReady .epipe, rfl, ?_, id⟩
          simp only [step, h, if_true, Sys.sendReady, hrd]
          rfl
  | recv =>
      cases hq : s.size.queue with
      | nil =>
          have hw := (hr h).resolve_left fun hne => hne hq
          have he : s.size.atEof = true := Pipe.atEof_iff.mpr ⟨hq, hw⟩
          refine ⟨.recv .eof, rfl, ?_, id⟩
          simp only [step, h, if_true, Sys.recvSize, he]
          rfl
      | cons m q =>
          refine ⟨.recv .message, rfl, ?_, id⟩
          simp only [step, h, if_true, Sys.recvSize, Pipe.recv, hq]
          rfl
  | getDeltas => exact ⟨.getDeltas none, rfl, by simp only [step, if_pos h, Option.isSome_some], id⟩
  | testSize => exact ⟨.testSize, rfl, by simp only [step, if_pos h, Option.isSome_some], id⟩
  | process => exact ⟨.process .full, rfl, by simp only [step, if_pos h, Option.isSome_some], id⟩
  | account => exact ⟨.account 0 true, rfl, by simp only [step, if_pos h, Option.isSome_some], id⟩
  | postLoop =>
      refine ⟨.postLoop ⟨true, .full, .full, true⟩, rfl, ?_, id⟩
      simp only [step, if_pos h, Option.isSome_some]
  | returned | rdyClosed =>
      refine ⟨.closeFd, rfl, ?_, id⟩
      simp only [step, h]
      rfl
  | closed => exact absurd h hc

/-- A hand-off that waits for its ready signal. -/
theorem reading_moves (hi : Inv s) (ha : s.Answered) {l : CopyLocals} (h : s.pin = .reading l) :
    Moves cfg (fun _ => True) s := by
  cases hq : s.rdy.queue with
  | cons v q =>
      refine ⟨.readReady .message 0 0, trivial, ?_, id⟩
      simp only [step, h, Sys.readReady, Pipe.recv, hq]
      rfl
  | nil =>
      cases hw : s.rdy.wrClosed with
      | true =>
          have he : s.rdy.atEof = true := Pipe.atEof_iff.mpr ⟨hq, hw⟩
          refine ⟨.readReady .eof 0 0, trivial, ?_, id⟩
          simp only [step, h, Sys.readReady, he, if_true]
          rfl
      | false =>
          -- no signal yet: `Listen` is not gone, and if it waits its message is there
          have hopen : s.size.wrClosed = false := by rw [hi.ends.sizeWr, h]; rfl
          have hclosed : s.con ≠ .closed := fun e => by
            rw [hi.ends.rdyWr.mpr (.inr e)] at hw
            cases hw
          have hlisten : Moves cfg (fun a => a.ofListen = true) s := by
            refine listen_moves hclosed fun e => .inl ?_
            have hpos := (ha e).resolve_left (by rw [hopen]; exact Bool.false_ne_true)
            rw [hq, h, signals_reading, List.length_nil, Nat.zero_add] at hpos
            exact List.ne_nil_of_length_pos hpos
          obtain ⟨a, -, hstep, hf⟩ := hlisten
          exact ⟨a, trivial, hstep, hf⟩

/-- **A hand-off never waits for a `Listen` that waits for it.** -/
theorem handOff_moves (hi : Inv s) (ha : s.Answered) {l : CopyLocals}
    (hp : s.pin.locals = some l) : Moves cfg (fun _ => True) s := by
  cases h : s.pin with
  | reading l => exact reading_moves hi ha h
  | copying l i =>
      have hlen := congrArg List.length (hi.owned.copying l i h)
      rw [payload, List.length_map, List.length_range, List.length_take] at hlen
      rcases Nat.lt_or_ge i l.buf.bytes.length with hlt | hge
      · refine ⟨.copyByte, trivial, ?_, id⟩
        simp only [step, h, List.getElem?_eq_getElem hlt]
        rfl
      · have heq : i = l.buf.bytes.length := by omega
        refine ⟨.copyDone 0, trivial, ?_, id⟩
        simp only [step, h, heq, if_true]
        rfl
  | sending l =>
      cases hr : s.size.rdClosed with
      | true =>
          refine ⟨.sendSize false, trivial, ?_, fun hf => ?_⟩
          · simp only [step, h]
            rfl
          · rw [Fails, hr] at hf
            cases hf
      | false =>
          refine ⟨.sendSize true, trivial, ?_, id⟩
          simp only [step, h, Sys.sendSize, if_true, Pipe.send, hr]
          rfl
  | running | shutRdy | shutSize | closeRdy | closeSize | exited => rw [h] at hp; cases hp

/-! ### The variant -/

/-- A step of `Listen` brings it nearer to its next wait or to its end, once the thread has closed
both sockets or as long as it has shut none. -/
theorem listenLeft_lt (hi : Inv s) (hw : s.size.wrClosed = true → s.rdy.rdClosed = true)
    (h : Fires cfg s a t) (ha : a.ofListen = true) : t.listenLeft < s.listenLeft := by
  cases h with
  | readyOk hc hr =>
      have hq : s.size.queue = [] := hi.counts.idle hi.ends (by rw [hc]; nofun) (by rw [hc]; rfl)
      have hopen : s.size.wrClosed = false := eq_false_of_ne_true fun e => by
        rw [hw e] at hr
        cases hr
      simp [Sys.listenLeft, hc, hq, hopen]
  | recvMessage hc hq => simp [Sys.listenLeft, hc, hq]
  | recvEof hc hq hw => simp [Sys.listenLeft, hc, hw]
  | recvError hc =>
      simp only [Sys.listenLeft, hc]
      split_ifs <;> decide
  | stopped hc | loop hc | readyEpipe hc | readyError hc | terminated hc | counted hc
  | sizeZero hc | sizePos hc | processOk hc | processFail hc | account hc | postLoop hc
  | closeRdyFd hc | closeSizeFd hc => simp [Sys.listenLeft, hc]
  | _ => cases ha

/-- The steps a hand-off and `Listen` have left together. -/
def Sys.left (s : Sys Z) : ℕ := s.pin.left + s.listenLeft

/-- Every step inside a hand-off brings it nearer to its end. -/
theorem left_lt (hi : Inv s) {l l' : CopyLocals} (hs : s.pin.locals = some l)
    (ht : t.pin.locals = some l') (h : Fires cfg s a t) : t.left < s.left := by
  have hopen : s.size.wrClosed = false := by
    rw [hi.ends.sizeWr]
    cases hp : s.pin <;> rw [hp] at hs <;> first | rfl | cases hs
  by_cases ha : a.ofListen = true
  · have hlt := listenLeft_lt hi (fun e => by rw [hopen] at e; cases e) h ha
    have hpin : t.pin = s.pin := by
      cases h <;> first | rfl | cases ha
    rw [Sys.left, Sys.left, hpin]
    exact Nat.add_lt_add_left hlt _
  · cases h with
    | readSignal hp | readEof hp | copyDone hp =>
        refine Nat.add_lt_add_right ?_ s.listenLeft
        rw [hp]
        simp [PinPc.left]
    | copyByte hp hb =>
        refine Nat.add_lt_add_right ?_ s.listenLeft
        obtain ⟨hlt, -⟩ := List.getElem?_eq_some_iff.mp hb
        rw [hp]
        simp only [PinPc.left]
        omega
    | createStop hp =>
        rw [hp] at hs
        cases hs
    | seeStop hstop =>
        -- the stop file comes after the exit of the thread
        rw [hi.ends.stopFile hstop] at hs
        cases hs
    | recordIns hp | countCall hp | enter hp | threadFini hp | shutRdy hp | shutSize hp
    | closeRdy hp | closeSize hp =>
        rw [hp] at hs
        cases hs
    | readError | sendOk | sendFail => cases ht
    | _ => exact absurd rfl ha

theorem left_le {l : CopyLocals} (h : s.pin.locals = some l) :
    s.left ≤ l.buf.bytes.length + 14 := by
  have hpin : s.pin.left ≤ l.buf.bytes.length + 3 := by
    cases hp : s.pin <;> rw [hp] at h <;> cases h <;> simp only [PinPc.left] <;> omega
  have hlisten := listenLeft_le s
  rw [Sys.left]
  omega

/-! ### A metadata send that fails -/

/-- The thread has used its signal, no message is on its way, and `Listen` waits for one. -/
structure Sys.Stuck (s : Sys Z) : Prop where
  pin : s.pin = .running ∨ ∃ l, s.pin = .reading l
  con : s.con = .recv
  rdy : s.rdy.queue = []
  size : s.size.queue = []

/-- A send that fails while `Listen` waits. -/
theorem stuck_of_sendFail (hi : Inv s) {l : CopyLocals} (hp : s.pin = .sending l)
    (hc : s.con = .recv) (h : step cfg s (.sendSize false) = some t) : t.Stuck := by
  have hw : s.rdy.wrClosed = false := hi.ends.rdy_open (by rw [hc]; rfl)
  have h0 : l.rdyBytes ≠ 0 := fun h0 => by
    rw [hi.counts.sending l hp h0] at hw
    cases hw
  -- the one signal that may be out is the one the hand-off holds
  have hle := hi.counts.messages hw
  rw [hc, Sys.answerable, hi.ends.sizeWr, hp] at hle
  simp only [PinPc.sizeShut, Bool.false_eq_true, if_false, signals_sending, if_neg h0,
    ListenPc.credit] at hle
  have hrdy : s.rdy.queue = [] := List.eq_nil_of_length_eq_zero (by omega)
  have hsize : s.size.queue = [] := List.eq_nil_of_length_eq_zero (by omega)
  cases fires_of_step h with
  | sendFail => exact ⟨.inl rfl, hc, hrdy, hsize⟩

/-- The step begins no `ThreadFini`, and none of its calls fails. -/
def Continues (s : Sys Z) (a : Action) : Prop := a ≠ .threadFini ∧ ¬ Fails s a

theorem Sys.Stuck.fires (he : Ends s) (hs : s.Stuck) (ha : Continues s a) (h : Fires cfg s a t) :
    t.Stuck := by
  have hp := hs.pin
  have hc := hs.con
  cases h with
  | recordIns | countCall => exact ⟨hp, hc, hs.rdy, hs.size⟩
  | enter => exact ⟨.inr ⟨_, rfl⟩, hc, hs.rdy, hs.size⟩
  | readSignal h hq => cases hs.rdy.symm.trans hq
  | readEof h hq hw =>
      rcases he.rdyWr.mp hw with e | e <;> cases hc.symm.trans e
  | readError h => exact absurd trivial ha.2
  | threadFini h => exact absurd rfl ha.1
  | recvMessage h hq => cases hs.size.symm.trans hq
  | recvEof h hq hw =>
      rw [he.sizeWr] at hw
      rcases hp with hp | ⟨l, hp⟩ <;> rw [hp] at hw <;> cases hw
  | recvError h => exact absurd trivial ha.2
  | createStop h | copyByte h | copyDone h | sendOk h | sendFail h | shutRdy h | shutSize h
  | closeRdy h | closeSize h =>
      rcases hp with hp | ⟨l, hp⟩ <;> cases hp.symm.trans h
  | seeStop h => exact ⟨hp, hc, hs.rdy, hs.size⟩
  | stopped h | loop h | readyOk h | readyEpipe h | readyError h | terminated h | counted h
  | sizeZero h | sizePos h | processOk h | processFail h | account h | postLoop h | closeRdyFd h
  | closeSizeFd h => cases hc.symm.trans h

/-- In a hand-off each side then waits for the other. -/
theorem Sys.Stuck.not_moves (he : Ends s) (hs : s.Stuck) {l : CopyLocals}
    (hl : s.pin.locals = some l) : ¬ Moves cfg (fun _ => True) s := by
  obtain ⟨l', hp⟩ : ∃ l', s.pin = .reading l' := hs.pin.resolve_left fun hp => by
    rw [hp] at hl
    cases hl
  rintro ⟨a, -, hstep, hf⟩
  obtain ⟨t, ht⟩ := Option.isSome_iff_exists.mp hstep
  cases fires_of_step ht with
  | readSignal h hq => cases hs.rdy.symm.trans hq
  | readEof h hq hw => rcases he.rdyWr.mp hw with e | e <;> cases hs.con.symm.trans e
  | readError | recvError => exact hf trivial
  | recvMessage h hq => cases hs.size.symm.trans hq
  | recvEof h hq hw =>
      rw [he.sizeWr, hp] at hw
      cases hw
  | seeStop h => cases hp.symm.trans (he.stopFile h)
  | recordIns h | countCall h | enter h | threadFini h | createStop h | copyByte h | copyDone h
  | sendOk h | sendFail h | shutRdy h | shutSize h | closeRdy h | closeSize h =>
      cases hp.symm.trans h
  | stopped h | loop h | readyOk h | readyEpipe h | readyError h | terminated h | counted h
  | sizeZero h | sizePos h | processOk h | processFail h | account h | postLoop h | closeRdyFd h
  | closeSizeFd h => cases hs.con.symm.trans h

/-! ### Whole runs -/

theorem answered_of_run {mem : ℕ → UInt8} {as : List Action}
    (h : exec (step cfg) (init Z mem) as = some s)
    (hsend : EveryStep (step cfg) (init Z mem) as SendsMetadata) : s.Answered := by
  refine (hsend.invariant (I := fun s => Ends s ∧ s.Answered) ⟨ends_init Z mem, nofun⟩ ?_ h).2
  intro s a t hi ha hs
  have hf := fires_of_step hs
  exact ⟨hi.1.fires hf, hi.2.fires hi.1 ha hf⟩

/-- **Every hand-off returns.**  Where no metadata send has failed on an open socket, the two sides
do not wait for each other, and whatever they do a hand-off of `n` bytes is over within `n + 14`
steps. -/
theorem handOff_returns {mem : ℕ → UInt8} {as : List Action}
    (h : exec (step cfg) (init Z mem) as = some s)
    (hsend : EveryStep (step cfg) (init Z mem) as SendsMetadata) {l : CopyLocals}
    (hp : s.pin.locals = some l) :
    Moves cfg (fun _ => True) s ∧
      ∀ bs t, exec (step cfg) s bs = some t →
        EveryState (step cfg) s bs (fun s => s.pin.locals.isSome = true) →
          bs.length ≤ l.buf.bytes.length + 14 := by
  have hi : Inv s := inv_reachable ⟨as, h⟩
  refine ⟨handOff_moves hi (answered_of_run h hsend) hp, fun bs t hbs hin => ?_⟩
  have hcount := countP_le_of_variant (I := Inv) (J := fun _ => true) (m := Sys.left) hi
    (fun _ _ _ hi hs => hi.step hs) (fun s a t hi hQ hs hQ' => ?_) hin hbs
  · rw [List.countP_true] at hcount
    exact hcount.trans (left_le hp)
  · obtain ⟨l, hl⟩ := Option.isSome_iff_exists.mp hQ
    obtain ⟨l', hl'⟩ := Option.isSome_iff_exists.mp hQ'
    exact left_lt hi hl hl' (fires_of_step hs)

/-- `Listen` asks, and the thread begins a hand-off of one byte. -/
def begun : List Action := [.testStop, .sendReady .ok, .enter oneByte 0 0]

theorem handOff_returns_begun : ∃ s l, exec (step {}) (init storing fun _ => 0) begun = some s ∧
    s.pin.locals = some l ∧ Moves {} (fun _ => True) s ∧
      ∀ bs t, exec (step {}) s bs = some t →
        EveryState (step {}) s bs (fun s => s.pin.locals.isSome = true) →
          bs.length ≤ l.buf.bytes.length + 14 := by
  have hrun : ∃ s l, exec (step {}) (init storing fun _ => 0) begun = some s ∧
      s.pin.locals = some l := ⟨_, _, rfl, rfl⟩
  obtain ⟨s, l, hs, hl⟩ := hrun
  refine ⟨s, l, hs, hl, handOff_returns hs (everyStep_of_forall fun a ha s e => ?_) hl⟩
  subst e
  simp [begun] at ha

/-- **A metadata send that fails blocks the thread.**  It returns, but after it no hand-off of the
thread copies a byte, and each waits for a `Listen` that waits for it. -/
theorem failed_send_blocks {mem : ℕ → UInt8} (hr : Reachable (step cfg) (init Z mem) s)
    {l : CopyLocals} (hp : s.pin = .sending l) (hc : s.con = .recv)
    (h : step cfg s (.sendSize false) = some t) {as : List Action} {u : Sys Z}
    (hu : exec (step cfg) t as = some u) (hcont : EveryStep (step cfg) t as Continues) :
    (∀ l i, u.pin ≠ .copying l i) ∧
      ∀ l, u.pin.locals = some l → ¬ Moves cfg (fun _ => True) u := by
  have hi := inv_reachable hr
  obtain ⟨he, hs⟩ := hcont.invariant (I := fun s => Ends s ∧ s.Stuck)
    ⟨(hi.step h).ends, stuck_of_sendFail hi hp hc h⟩ (fun s a t hi ha hs => by
      have hf := fires_of_step hs
      exact ⟨hi.1.fires hf, hi.2.fires hi.1 ha hf⟩) hu
  refine ⟨fun l i e => ?_, fun l hl => hs.not_moves he hl⟩
  rcases hs.pin with hp | ⟨l, hp⟩ <;> cases hp.symm.trans e

/-- The byte is copied, and `Listen` waits for its message. -/
def copied : List Action := begun ++ [.readReady .message 0 0, .copyByte, .copyDone 0]

/-- The message fails, and the next hand-off waits. -/
theorem failed_send_blocks_copied : ∃ s t u,
    exec (step {}) (init storing fun _ => 0) copied = some s ∧
    step {} s (.sendSize false) = some t ∧ exec (step {}) t [.enter oneByte 0 0] = some u ∧
    (∀ l i, u.pin ≠ .copying l i) ∧
      ∀ l, u.pin.locals = some l → ¬ Moves {} (fun _ => True) u := by
  have hrun : ∃ s l t u, exec (step {}) (init storing fun _ => 0) copied = some s ∧
      s.pin = .sending l ∧ s.con = .recv ∧ step {} s (.sendSize false) = some t ∧
      exec (step {}) t [.enter oneByte 0 0] = some u := ⟨_, _, _, _, rfl, rfl, rfl, rfl, rfl⟩
  obtain ⟨s, l, t, u, hs, hp, hc, ht, hu⟩ := hrun
  have hcont : EveryStep (step {}) t [.enter oneByte 0 0] Continues := by
    refine everyStep_of_forall fun a ha s => ?_
    rw [List.mem_singleton.mp ha]
    exact ⟨nofun, id⟩
  exact ⟨s, t, u, hs, ht, hu, failed_send_blocks ⟨copied, hs⟩ hp hc ht hu hcont⟩

/-- After its last close the thread is gone. -/
theorem exited_step (hp : s.pin = .exited) (h : Fires cfg s a t) :
    t.pin = .exited ∧ (a.ofListen = false → t.listenLeft = s.listenLeft) := by
  cases h with
  | recordIns h | countCall h | enter h | readSignal h | readEof h | readError h | copyByte h
  | copyDone h | sendOk h | sendFail h | threadFini h | shutRdy h | shutSize h | closeRdy h
  | closeSize h => cases hp.symm.trans h
  | createStop | seeStop => exact ⟨hp, fun _ => rfl⟩
  | _ => exact ⟨hp, nofun⟩

/-- **`Listen` ends once its thread is gone**, stop file or not: it never waits again, and after
eleven more of its steps both its sockets are closed. -/
theorem listen_ends {mem : ℕ → UInt8} (h : Reachable (step cfg) (init Z mem) s)
    (hp : s.pin = .exited) :
    (s.con ≠ .closed → Moves cfg (fun a => a.ofListen = true) s) ∧
      ∀ bs t, exec (step cfg) s bs = some t → bs.countP Action.ofListen ≤ 11 := by
  have hi := inv_reachable h
  refine ⟨fun hc => listen_moves hc fun _ => .inr ?_, fun bs t hbs => ?_⟩
  · rw [hi.ends.sizeWr, hp]
    rfl
  refine (countP_le_of_variant (I := fun s => Inv s ∧ s.pin = .exited) (Q := fun _ => True)
    (m := Sys.listenLeft) ⟨hi, hp⟩ ?_ ?_ (fun _ _ _ _ _ => trivial) hbs).trans (listenLeft_le s)
  · exact fun s a t hi hs => ⟨hi.1.step hs, (exited_step hi.2 (fires_of_step hs)).1⟩
  · rintro s a t ⟨hi, hp⟩ - hs -
    have hf := fires_of_step hs
    cases ha : a.ofListen with
    | true =>
        refine listenLeft_lt hi (fun _ => ?_) hf ha
        rw [hi.ends.rdyRd, hp]
        rfl
    | false => exact ((exited_step hp hf).2 ha).le

/-- The thread hands a byte off and exits. -/
def handedAndGone : List Action :=
  handOff ++ [.threadFini, .finiCall, .finiCall, .finiCall, .finiCall]

theorem listen_ends_handedAndGone :
    ∃ s, exec (step {}) (init storing fun _ => 0) handedAndGone = some s ∧ s.pin = .exited ∧
      (s.con ≠ .closed → Moves {} (fun a => a.ofListen = true) s) ∧
      ∀ bs t, exec (step {}) s bs = some t → bs.countP Action.ofListen ≤ 11 := by
  have hrun : ∃ s, exec (step {}) (init storing fun _ => 0) handedAndGone = some s ∧
      s.pin = .exited := ⟨_, rfl, rfl⟩
  obtain ⟨s, hs, hp⟩ := hrun
  exact ⟨s, hs, hp, listen_ends ⟨handedAndGone, hs⟩ hp⟩

end BulletTime.Handoff
