import Mathlib.Order.Basic
import BulletTime.Handoff.Model

/-!
# Handoff — Protocol

The accounting of the hand-off in every reachable state: one ready signal is worth one metadata
message, and `Listen` has given out at most one.

* `PinPc.signals` and `ListenPc.credit`: the signals the traced thread holds, and those `Listen`
  still expects a message for.
* `Protocol`: signals and messages in flight stay within the credit while the ready socket is
  open, and each closed end of a socket says where its owner is.
* `protocol_reachable`: it holds in every reachable state.
-/

namespace BulletTime.Handoff
open BulletTime.Pintool BulletTime.Consumer Transition

/-- The ready signals a hand-off has read and not answered yet. -/
def PinPc.signals : PinPc → ℕ
  | .copying l _ | .sending l => if l.rdyBytes = 0 then 0 else 1
  | _ => 0

/-- The hand-off `l` has read its signal and has the mapping. -/
def PinPc.Handing (p : PinPc) (l : CopyLocals) : Prop := (∃ i, p = .copying l i) ∨ p = .sending l

section Signals
variable (l : CopyLocals) (i : ℕ)

@[simp] theorem signals_running : PinPc.running.signals = 0 := rfl
@[simp] theorem signals_reading : (PinPc.reading l).signals = 0 := rfl
@[simp] theorem signals_copying :
    (PinPc.copying l i).signals = if l.rdyBytes = 0 then 0 else 1 := rfl
@[simp] theorem signals_sending :
    (PinPc.sending l).signals = if l.rdyBytes = 0 then 0 else 1 := rfl
@[simp] theorem signals_shutRdy : PinPc.shutRdy.signals = 0 := rfl
@[simp] theorem signals_shutSize : PinPc.shutSize.signals = 0 := rfl
@[simp] theorem signals_closeRdy : PinPc.closeRdy.signals = 0 := rfl
@[simp] theorem signals_closeSize : PinPc.closeSize.signals = 0 := rfl
@[simp] theorem signals_exited : PinPc.exited.signals = 0 := rfl

theorem Handing.signals {p : PinPc} {l : CopyLocals} (h : p.Handing l) (h0 : l.rdyBytes ≠ 0) :
    p.signals = 1 := by
  rcases h with ⟨i, rfl⟩ | rfl <;> exact if_neg h0

end Signals

/-- `ThreadFini` has shut the metadata socket down. -/
def PinPc.sizeShut : PinPc → Bool
  | .closeRdy | .closeSize | .exited => true
  | _ => false

theorem Handing.sizeShut {p : PinPc} {l : CopyLocals} (h : p.Handing l) : p.sizeShut = false := by
  rcases h with ⟨i, rfl⟩ | rfl <;> rfl

/-- `ThreadFini` has closed the ready socket. -/
def PinPc.rdyClosed : PinPc → Bool
  | .closeSize | .exited => true
  | _ => false

namespace ListenPc

/-- `Listen` is inside its loop. -/
def inLoop : ListenPc → Bool
  | .head | .sendReady | .recv | .getDeltas | .testSize | .process | .account => true
  | _ => false

/-- Between a `recv` and the end of the processing of what it delivered. -/
def holding : ListenPc → Bool
  | .getDeltas | .testSize | .process => true
  | _ => false

def hasReturned : ListenPc → Bool
  | .returned | .rdyClosed | .closed => true
  | _ => false

/-- The messages `Listen` has asked for and not received: one while it waits in `recv`, and one if
that `recv` failed. -/
def credit (aborted : Bool) : ListenPc → ℕ
  | .recv => 1
  | .returned | .rdyClosed | .closed => if aborted then 1 else 0
  | _ => 0

theorem credit_le_one (aborted : Bool) (c : ListenPc) : c.credit aborted ≤ 1 := by
  cases aborted <;> cases c <;> decide

/-- Outside its loop, and not after a failure, `Listen` expects nothing. -/
theorem credit_eq_zero {c : ListenPc} (h : c.inLoop = false) : c.credit false = 0 := by
  cases c <;> first | rfl | cases h

end ListenPc

variable {Z : Zstd} {cfg : Config} {s t : Sys Z} {a : Action}

/-! ### The ends of the sockets -/

/-- Each closed end of a socket says where its owner is, and the stop request comes last. -/
structure Ends (s : Sys Z) : Prop where
  rdyWr : s.rdy.wrClosed = true ↔ s.con = .rdyClosed ∨ s.con = .closed
  sizeRd : s.size.rdClosed = true ↔ s.con = .closed
  rdyRd : s.rdy.rdClosed = s.pin.rdyClosed
  sizeWr : s.size.wrClosed = s.pin.sizeShut
  stopFile : s.stopFile = true → s.pin = .exited
  stop : s.stop = true → s.stopFile = true
  aborted : s.aborted = true → s.con.hasReturned = true

/-- Until `Listen` has returned nobody closes its end of the ready socket. -/
theorem Ends.rdy_open (he : Ends s) (h : s.con.hasReturned = false) : s.rdy.wrClosed = false := by
  refine eq_false_of_ne_true fun e => ?_
  rcases he.rdyWr.mp e with e | e <;> rw [e] at h <;> cases h

theorem ends_init (Z : Zstd) (mem : ℕ → UInt8) : Ends (init Z mem) where
  rdyWr := by simp [init]
  sizeRd := by simp [init]
  rdyRd := rfl
  sizeWr := rfl
  stopFile := by simp [init]
  stop := by simp [init]
  aborted := by simp [init]

/-- A step of the traced thread. -/
theorem Ends.pin_move (hi : Ends s) (hcon : t.con = s.con) (hab : t.aborted = s.aborted)
    (hrw : t.rdy.wrClosed = s.rdy.wrClosed) (hsr : t.size.rdClosed = s.size.rdClosed)
    (hrr : t.rdy.rdClosed = t.pin.rdyClosed) (hsw : t.size.wrClosed = t.pin.sizeShut)
    (hsf : t.stopFile = s.stopFile) (hst : t.stop = s.stop) (hne : s.pin ≠ .exited) : Ends t where
  rdyWr := by rw [hrw, hcon]; exact hi.rdyWr
  sizeRd := by rw [hsr, hcon]; exact hi.sizeRd
  rdyRd := hrr
  sizeWr := hsw
  stopFile h := absurd (hi.stopFile (hsf ▸ h)) hne
  stop := by rw [hst, hsf]; exact hi.stop
  aborted := by rw [hab, hcon]; exact hi.aborted

/-- A step of `Listen`, which has closed neither socket before it or after it. -/
theorem Ends.listen (hi : Ends s) (hp : t.pin = s.pin) (hrr : t.rdy.rdClosed = s.rdy.rdClosed)
    (hrw : t.rdy.wrClosed = s.rdy.wrClosed) (hsr : t.size.rdClosed = s.size.rdClosed)
    (hsw : t.size.wrClosed = s.size.wrClosed) (hsf : t.stopFile = s.stopFile)
    (hst : t.stop = s.stop) (hs : s.con ≠ .rdyClosed ∧ s.con ≠ .closed)
    (ht : t.con ≠ .rdyClosed ∧ t.con ≠ .closed)
    (hab : t.aborted = true → t.con.hasReturned = true) : Ends t where
  rdyWr := by
    rw [hrw, hi.rdyWr]
    exact iff_of_false (not_or.mpr hs) (not_or.mpr ht)
  sizeRd := by
    rw [hsr, hi.sizeRd]
    exact iff_of_false hs.2 ht.2
  rdyRd := by rw [hrr, hp]; exact hi.rdyRd
  sizeWr := by rw [hsw, hp]; exact hi.sizeWr
  stopFile := by rw [hsf, hp]; exact hi.stopFile
  stop := by rw [hsf, hst]; exact hi.stop
  aborted := hab

theorem Ends.not_aborted (hi : Ends s) (h : s.con.hasReturned = false) : s.aborted = false :=
  eq_false_of_ne_true fun e => by
    rw [hi.aborted e] at h
    cases h

theorem Ends.fires (hi : Ends s) (h : Fires cfg s a t) : Ends t := by
  cases h with
  | recordIns | countCall => exact { hi with }
  | enter hp | readError hp | readEof hp | sendFail hp | threadFini hp | shutRdy hp | closeSize hp
  | readSignal hp | copyByte hp | copyDone hp | sendOk hp =>
      refine hi.pin_move rfl rfl rfl rfl (hi.rdyRd.trans ?_) (hi.sizeWr.trans ?_) rfl rfl ?_
      all_goals rw [hp]
      exacts [rfl, rfl, nofun]
  | shutSize hp =>
      refine hi.pin_move rfl rfl rfl rfl (hi.rdyRd.trans ?_) rfl rfl rfl ?_
      all_goals rw [hp]
      exacts [rfl, nofun]
  | closeRdy hp =>
      refine hi.pin_move rfl rfl rfl rfl rfl (hi.sizeWr.trans ?_) rfl rfl ?_
      all_goals rw [hp]
      exacts [rfl, nofun]
  | createStop hp => exact { hi with stopFile := fun _ => hp, stop := fun _ => rfl }
  | seeStop hs => exact { hi with stop := fun _ => hs }
  | stopped hc | loop hc | readyOk hc | readyEpipe hc | recvMessage hc | recvEof hc
  | terminated hc | counted hc | sizeZero hc | sizePos hc | processOk hc | account hc =>
      refine hi.listen rfl rfl rfl rfl rfl rfl rfl (by rw [hc]; exact ⟨nofun, nofun⟩)
        ⟨nofun, nofun⟩ fun ha => ?_
      first | cases ha | (rw [hi.not_aborted (by rw [hc]; rfl)] at ha; cases ha)
  | readyError hc | recvError hc | processFail hc | postLoop hc =>
      exact hi.listen rfl rfl rfl rfl rfl rfl rfl (by rw [hc]; exact ⟨nofun, nofun⟩)
        ⟨nofun, nofun⟩ fun _ => rfl
  | closeRdyFd hc =>
      refine { hi with
        rdyWr := ⟨fun _ => .inl rfl, fun _ => rfl⟩, sizeRd := ?_, aborted := fun _ => rfl }
      exact hi.sizeRd.trans (iff_of_false (by rw [hc]; nofun) nofun)
  | closeSizeFd hc =>
      refine { hi with
        rdyWr := ⟨fun _ => .inr rfl, fun _ => hi.rdyWr.mpr (.inl hc)⟩
        sizeRd := ⟨fun _ => rfl, fun _ => rfl⟩
        aborted := fun _ => rfl }

/-! ### Signals and messages -/

/-- The ready signals that may still be answered by a message: none once `ThreadFini` has shut the
metadata socket down. -/
def Sys.answerable (s : Sys Z) : ℕ :=
  if s.size.wrClosed then 0 else s.rdy.queue.length + s.pin.signals

/-- **The accounting.**  `Listen` has asked for at most one message at a time, and whoever hands
off without a signal does so because the ready socket is closed. -/
structure Counts (s : Sys Z) : Prop where
  signals : s.answerable ≤ s.con.credit s.aborted
  messages : s.rdy.wrClosed = false →
    s.answerable + s.size.queue.length ≤ s.con.credit s.aborted
  copying : ∀ l i, s.pin = .copying l i → l.rdyBytes = 0 → s.rdy.wrClosed = true
  sending : ∀ l, s.pin = .sending l → l.rdyBytes = 0 → s.rdy.wrClosed = true

theorem counts_init (Z : Zstd) (mem : ℕ → UInt8) : Counts (init Z mem) where
  signals := Nat.le_refl _
  messages := fun _ => Nat.le_refl _
  copying := by simp [init]
  sending := by simp [init]

/-- Where no more is outstanding and no less is expected, the accounting stays. -/
theorem Counts.mono (hi : Counts s) (ha : t.answerable ≤ s.answerable)
    (hq : t.answerable + t.size.queue.length ≤ s.answerable + s.size.queue.length)
    (hcredit : s.con.credit s.aborted ≤ t.con.credit t.aborted)
    (hw : s.rdy.wrClosed = true → t.rdy.wrClosed = true)
    (hc : ∀ l i, t.pin = .copying l i → l.rdyBytes = 0 → t.rdy.wrClosed = true)
    (hs : ∀ l, t.pin = .sending l → l.rdyBytes = 0 → t.rdy.wrClosed = true) : Counts t where
  signals := ha.trans (hi.signals.trans hcredit)
  messages h := by
    have hw' : s.rdy.wrClosed = false := eq_false_of_ne_true fun e => by
      rw [hw e] at h
      cases h
    exact hq.trans ((hi.messages hw').trans hcredit)
  copying := hc
  sending := hs

/-- A step of `Listen` that leaves the sockets alone and expects no less. -/
theorem Counts.listen (hi : Counts s) (hp : t.pin = s.pin) (hr : t.rdy = s.rdy)
    (hs : t.size = s.size) (hcredit : s.con.credit s.aborted ≤ t.con.credit t.aborted) :
    Counts t := by
  have ha : t.answerable = s.answerable := by rw [Sys.answerable, Sys.answerable, hp, hr, hs]
  refine hi.mono ha.le (by rw [ha, hs]) hcredit (by rw [hr]; exact id) ?_ ?_
  · rw [hp, hr]; exact hi.copying
  · rw [hp, hr]; exact hi.sending

theorem Counts.fires (he : Ends s) (hi : Counts s) (h : Fires cfg s a t) : Counts t := by
  cases h with
  | recordIns | countCall | createStop | seeStop => exact hi.listen rfl rfl rfl le_rfl
  | enter hp | readError hp | threadFini hp | shutRdy hp | closeRdy hp | closeSize hp =>
      have ha : s.answerable = if s.size.wrClosed then 0 else s.rdy.queue.length := by
        rw [Sys.answerable, hp]; rfl
      exact hi.mono ha.ge (by rw [ha]; exact le_rfl) le_rfl id (by simp) (by simp)
  | readSignal hp hq =>
      -- the signal leaves the socket and is held by the hand-off
      refine hi.mono ?_ ?_ le_rfl id ?_ (by simp)
      · simp [Sys.answerable, hp, hq]
      · simp [Sys.answerable, hp, hq]
      · rintro l i ⟨⟩ h0; cases h0
  | readEof hp hq hw =>
      refine hi.mono ?_ ?_ le_rfl id (fun _ _ _ _ => hw) (by simp)
      · simp [Sys.answerable, hp]
      · simp [Sys.answerable, hp]
  | copyByte hp hb =>
      refine hi.mono ?_ ?_ le_rfl id ?_ (by simp)
      · simp [Sys.answerable, hp]
      · simp [Sys.answerable, hp]
      · rintro l i ⟨⟩; exact hi.copying _ _ hp
  | copyDone hp =>
      refine hi.mono ?_ ?_ le_rfl id (by simp) ?_
      · simp [Sys.answerable, hp]
      · simp [Sys.answerable, hp]
      · rintro l ⟨⟩ h0; exact hi.copying _ _ hp h0
  | @sendOk l m hp hr hm =>
      -- a signal is turned into a message, unless there was none to turn
      have ha : s.answerable = if s.size.wrClosed then 0 else
          s.rdy.queue.length + if l.rdyBytes = 0 then 0 else 1 := by
        rw [Sys.answerable, hp]; rfl
      have hopen : s.size.wrClosed = false := by rw [he.sizeWr, hp]; rfl
      rw [hopen, if_neg Bool.false_ne_true] at ha
      have h1 := hi.signals
      refine ⟨?_, fun hw => ?_, by simp, by simp⟩
      · simp only [Sys.answerable, hopen, signals_running]
        grind
      · have h0 : l.rdyBytes ≠ 0 := fun h0 => by
          rw [hi.sending l hp h0] at hw
          cases hw
        have h2 := hi.messages hw
        rw [if_neg h0] at ha
        simp only [Sys.answerable, hopen, signals_running, List.length_append,
          List.length_singleton]
        grind
  | sendFail hp =>
      have ha : s.rdy.queue.length ≤ s.rdy.queue.length + s.pin.signals := Nat.le_add_right _ _
      refine hi.mono ?_ ?_ le_rfl id (by simp) (by simp)
      · simp only [Sys.answerable, signals_running]; grind
      · simp only [Sys.answerable, signals_running]; grind
  | shutSize hp =>
      refine hi.mono ?_ ?_ le_rfl id (by simp) (by simp)
      · simp [Sys.answerable]
      · simp [Sys.answerable]
  | stopped hc | loop hc | readyEpipe hc | terminated hc | counted hc | sizeZero hc | sizePos hc
  | account hc =>
      exact hi.listen rfl rfl rfl (by rw [hc]; exact Nat.zero_le _)
  | readyError hc | processOk hc | processFail hc | postLoop hc =>
      exact hi.listen rfl rfl rfl (by rw [hc]; exact Nat.zero_le _)
  | recvError hc => exact hi.listen rfl rfl rfl (by rw [hc]; exact le_rfl)
  | readyOk hc hr =>
      -- the one step that expects more sends the one signal for it
      have h1 := hi.signals
      rw [hc] at h1
      have hw : s.rdy.wrClosed = false := he.rdy_open (by rw [hc]; rfl)
      have h2 := hi.messages hw
      rw [hc] at h2
      refine ⟨?_, fun _ => ?_, hi.copying, hi.sending⟩
      all_goals
        simp only [Sys.answerable, ListenPc.credit, List.length_append, List.length_singleton] at *
        grind
  | @recvMessage m q hc hq =>
      have hw : s.rdy.wrClosed = false := he.rdy_open (by rw [hc]; rfl)
      have h2 := hi.messages hw
      rw [hc, hq, List.length_cons] at h2
      have ha : s.answerable = 0 ∧ q.length = 0 := by
        simp only [ListenPc.credit] at h2
        omega
      refine ⟨ha.1.le, fun _ => ?_, hi.copying, hi.sending⟩
      exact le_of_eq (congrArg₂ (· + ·) ha.1 ha.2)
  | recvEof hc hq hw =>
      have ha : s.answerable = 0 := by rw [Sys.answerable, if_pos hw]
      refine ⟨ha.le, fun _ => ?_, hi.copying, hi.sending⟩
      exact le_of_eq (congrArg₂ (· + ·) ha (congrArg List.length hq))
  | closeRdyFd hc =>
      refine hi.mono le_rfl le_rfl (by rw [hc]; exact le_rfl) (fun _ => rfl) ?_ ?_
      · exact fun _ _ _ _ => rfl
      · exact fun _ _ _ => rfl
  | closeSizeFd hc =>
      exact hi.mono le_rfl le_rfl (by rw [hc]; exact le_rfl) id hi.copying hi.sending

/-! ### Consequences -/

/-- **Every reachable state keeps the accounting.** -/
theorem protocol_reachable {mem : ℕ → UInt8} (h : Reachable (step cfg) (init Z mem) s) :
    Ends s ∧ Counts s := by
  refine h.invariant (I := fun s => Ends s ∧ Counts s) ⟨ends_init Z mem, counts_init Z mem⟩
    fun s a t hi hs => ?_
  have hf := fires_of_step hs
  exact ⟨hi.1.fires hf, hi.2.fires hi.1 hf⟩

theorem Counts.unsignalled (hi : Counts s) {l : CopyLocals} (h : s.pin.Handing l)
    (h0 : l.rdyBytes = 0) : s.rdy.wrClosed = true := by
  rcases h with ⟨i, hp⟩ | hp
  · exact hi.copying l i hp h0
  · exact hi.sending l hp h0

theorem answerable_pos (he : Ends s) {l : CopyLocals} (h : s.pin.Handing l)
    (h0 : l.rdyBytes ≠ 0) : 0 < s.answerable := by
  have hopen : s.size.wrClosed = false := he.sizeWr.trans (Handing.sizeShut h)
  rw [Sys.answerable, hopen, if_neg Bool.false_ne_true, Handing.signals h h0]
  exact Nat.succ_pos _

/-- **Exclusion**: while a hand-off has the mapping, `Listen` waits in `recv` or is gone. -/
theorem Counts.excludes (he : Ends s) (hi : Counts s) {l : CopyLocals} (h : s.pin.Handing l) :
    s.con = .recv ∨ s.con.hasReturned = true := by
  by_cases h0 : l.rdyBytes = 0
  · refine .inr ?_
    rcases he.rdyWr.mp (hi.unsignalled h h0) with e | e <;> rw [e] <;> rfl
  · have hpos := (answerable_pos he h h0).trans_le hi.signals
    cases hc : s.con with
    | recv => exact .inl rfl
    | returned | rdyClosed | closed => exact .inr rfl
    | _ => rw [hc] at hpos; cases hpos

/-- While a hand-off has the mapping no message is in flight to a `Listen` that may receive it. -/
theorem Counts.queue_eq_nil (he : Ends s) (hi : Counts s) {l : CopyLocals} (h : s.pin.Handing l)
    (hw : s.rdy.wrClosed = false) : s.size.queue = [] := by
  have h0 : l.rdyBytes ≠ 0 := fun h0 => by
    rw [hi.unsignalled h h0] at hw
    cases hw
  have hpos := answerable_pos he h h0
  have hle := (hi.messages hw).trans (s.con.credit_le_one s.aborted)
  exact List.eq_nil_of_length_eq_zero (by omega)

/-- Outside `recv`, a running `Listen` has no message in flight to it. -/
theorem Counts.idle (he : Ends s) (hi : Counts s) (hc : s.con ≠ .recv)
    (hr : s.con.hasReturned = false) : s.size.queue = [] := by
  have h1 := hi.messages (he.rdy_open hr)
  have h0 : s.con.credit s.aborted = 0 := by
    cases h : s.con with
    | recv => exact absurd h hc
    | returned | rdyClosed | closed => rw [h] at hr; cases hr
    | _ => rfl
  exact List.eq_nil_of_length_eq_zero (by omega)

end BulletTime.Handoff
