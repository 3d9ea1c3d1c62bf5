import BulletTime.Handoff.Ownership

/-!
# Handoff — Shutdown

What has been committed when `Listen` has returned, its own calls having succeeded.

* `Loses`: the two steps that lose a buffer.  The monitored thread is reported terminated while a
  message is in hand, or a hand-off whose read of the ready signal returned 0 sends its metadata
  before `ReceiverThread` closes the second socket.
* `Settled`: outside the loop nothing handed off is left to process.  A run without losing steps
  keeps it (`settled_step`).
* `no_loss_iff`: when `Listen` has returned every non-empty buffer handed off has been committed
  exactly when no step lost one.
-/

namespace BulletTime.Handoff
open BulletTime.Pintool BulletTime.Consumer Transition

variable {Z : Zstd} {cfg : Config} {s t : Sys Z} {a : Action}

/-- Every non-empty buffer whose metadata was sent has been committed. -/
def Sys.NoLoss (s : Sys Z) : Prop :=
  ∀ k b, s.handed[k]? = some b → b.bytes ≠ [] → ∃ c ∈ s.commits, c.msg = some k ∧ c.bytes = b.bytes

/-- A step that loses a buffer. -/
def Loses (s : Sys Z) (a : Action) : Prop :=
  (a = .getDeltas none ∧ s.recvRet ≠ 0 ∧ s.recvData.dataSize ≠ 0) ∨
    (a = .sendSize true ∧ ∃ l, s.pin = .sending l ∧ l.rdyBytes = 0 ∧ l.buf.bytes ≠ [])

/-- Every non-empty buffer handed off is among the messages processed. -/
def Sys.AllProcessed (s : Sys Z) : Prop :=
  ∀ k b, s.handed[k]? = some b → b.bytes ≠ [] → k < s.processed.length

/-- Outside the loop, and not after a failure, nothing is left to process. -/
def Sys.Settled (s : Sys Z) : Prop :=
  s.con.inLoop = false → s.aborted = false → s.AllProcessed

/-- A non-empty buffer is left that will not be processed. -/
def Sys.Lost (s : Sys Z) : Prop :=
  s.con.inLoop = false ∧ ∃ k b, s.handed[k]? = some b ∧ b.bytes ≠ [] ∧ s.processed.length ≤ k

/-! ### What is in hand -/

/-- At the exits of the loop all is processed but a message in hand, which then is empty. -/
theorem all_processed (hi : Inv s) (hloop : s.con.inLoop = true) (hrecv : s.con ≠ .recv)
    (h : s.inHand = 0 ∨ s.recvData.dataSize = 0) : s.AllProcessed := by
  intro k b hb hne
  have hret : s.con.hasReturned = false := by cases hc : s.con <;> rw [hc] at hloop <;> trivial
  have hq := hi.counts.idle hi.ends hrecv hret
  have hcount := hi.history.count hloop
  rw [← hi.history.handed_eq_received hq] at hcount
  have hlt := (List.getElem?_eq_some_iff.mp hb).1
  rcases h with h | h
  · omega
  · have hone : s.inHand ≤ 1 := by unfold Sys.inHand; split_ifs <;> omega
    by_contra hk
    -- the buffer would be the one in hand, whose size is 0
    have hlast : s.handed.getLast? = some b := by
      rw [List.getLast?_eq_getElem?, ← hb]
      congr 1
      omega
    have hzero := hi.history.dataSize_eq hq hlast
    rw [h] at hzero
    exact hne (List.eq_nil_of_length_eq_zero hzero.symm)

/-- The number of a buffer handed off and not processed is at least that of the processed ones. -/
theorem processed_le_handed (hi : Inv s) : s.processed.length ≤ s.handed.length := by
  have hle := hi.history.le
  have hsent := congrArg List.length hi.history.announced
  rw [List.length_map, List.length_map, Pipe.sent, List.length_append] at hsent
  omega

/-- After a return without failure a hand-off has no signal. -/
theorem unsignalled_of_returned (hi : Inv s) (hloop : s.con.inLoop = false)
    (hab : s.aborted = false) {l : CopyLocals} (hp : s.pin = .sending l) : l.rdyBytes = 0 := by
  by_contra h0
  have hpos := (answerable_pos hi.ends (.inr hp) h0).trans_le hi.counts.signals
  rw [hab, ListenPc.credit_eq_zero hloop] at hpos
  exact absurd hpos (Nat.lt_irrefl 0)

/-! ### Runs without losing steps -/

theorem settled_step (hi : Inv s) (hs : s.Settled) (hl : ¬ Loses s a)
    (h : step cfg s a = some t) : t.Settled := by
  have hf := fires_of_step h
  cases hf with
  | recordIns | countCall | enter | readSignal | readEof | readError | copyByte | copyDone
  | sendFail | threadFini | shutRdy | shutSize | closeRdy | closeSize | createStop | seeStop =>
      exact hs
  | @sendOk l m hp =>
      intro hloop hab k b hb hne
      have h0 := unsignalled_of_returned hi hloop hab hp
      -- a buffer sent after the loop has ended is lost, unless it is empty
      have hempty : l.buf.bytes = [] := by
        by_contra hbytes
        exact hl (.inr ⟨rfl, l, hp, h0, hbytes⟩)
      rcases Nat.lt_or_ge k s.handed.length with hk | hk
      · exact hs hloop hab k b ((List.getElem?_append_left hk).symm.trans hb) hne
      · rw [List.getElem?_append_right hk] at hb
        obtain rfl : b = l.buf := List.mem_singleton.mp (List.mem_of_getElem? hb)
        exact absurd hempty hne
  | stopped hc | readyEpipe hc =>
      have hin : s.inHand = 0 := if_neg fun h => by rw [hc] at h; cases h.1
      have hall := all_processed hi (by rw [hc]; rfl) (by rw [hc]; exact nofun) (.inl hin)
      exact fun _ _ => hall
  | terminated hc =>
      -- what is in hand at the last test is lost, unless it is empty
      have hin : s.inHand = 0 ∨ s.recvData.dataSize = 0 := by
        by_cases h0 : s.recvRet = 0
        · exact .inl (if_neg fun h => h.2 h0)
        · refine .inr ?_
          by_contra hz
          exact hl (.inl ⟨rfl, h0, hz⟩)
      have hall := all_processed hi (by rw [hc]; rfl) (by rw [hc]; exact nofun) hin
      exact fun _ _ => hall
  | sizeZero hc hz =>
      have hall := all_processed hi (by rw [hc]; rfl) (by rw [hc]; exact nofun) (.inr hz)
      exact fun _ _ => hall
  | loop | readyOk | recvMessage | recvEof | counted | sizePos | processOk | account =>
      exact nofun
  | readyError | recvError | processFail => exact nofun
  | postLoop hc =>
      intro _ _
      exact hs (by rw [hc]; rfl) (hi.ends.not_aborted (by rw [hc]; rfl))
  | closeRdyFd hc => exact fun _ hab => hs (by rw [hc]; rfl) hab
  | closeSizeFd hc => exact fun _ hab => hs (by rw [hc]; rfl) hab

/-! ### Runs with a losing step -/

theorem lost_of_loses (hi : Inv s) (hl : Loses s a) (h : step cfg s a = some t) : t.Lost := by
  have hf := fires_of_step h
  rcases hl with ⟨rfl, h0, hz⟩ | ⟨rfl, l, hp, h0, hne⟩
  · cases hf with
    | terminated hc =>
        have hhold : s.con.holding = true := by rw [hc]; rfl
        have hq := hi.counts.idle hi.ends (by rw [hc]; exact nofun) (by rw [hc]; rfl)
        have hcount := hi.history.count (by rw [hc]; rfl)
        rw [Sys.inHand, if_pos ⟨hhold, h0⟩, ← hi.history.handed_eq_received hq] at hcount
        have hpos : s.handed ≠ [] := List.ne_nil_of_length_pos (by omega)
        have hb := List.getLast?_eq_some_getLast hpos
        refine ⟨rfl, s.processed.length, s.handed.getLast hpos, ?_, fun he => hz ?_, le_rfl⟩
        · rw [← hb, List.getLast?_eq_getElem?, ← hcount, Nat.add_sub_cancel]
        · rw [hi.history.dataSize_eq hq hb, he, List.length_nil]
  · cases hf with
    | @sendOk l' m hp' =>
        obtain rfl : l = l' := PinPc.sending.inj (hp.symm.trans hp')
        have hw := hi.counts.sending l hp h0
        refine ⟨?_, s.handed.length, l.buf, ?_, hne, processed_le_handed hi⟩
        · rcases hi.ends.rdyWr.mp hw with e | e <;> exact congrArg ListenPc.inLoop e
        · rw [List.getElem?_append_right le_rfl, Nat.sub_self]
          rfl

theorem lost_step (hs : s.Lost) (h : step cfg s a = some t) : t.Lost := by
  obtain ⟨hloop, k, b, hb, hne, hk⟩ := hs
  have hf := fires_of_step h
  cases hf with
  | recordIns | countCall | enter | readSignal | readEof | readError | copyByte | copyDone
  | sendFail | threadFini | shutRdy | shutSize | closeRdy | closeSize | createStop | seeStop =>
      exact ⟨hloop, k, b, hb, hne, hk⟩
  | sendOk =>
      have hlt := (List.getElem?_eq_some_iff.mp hb).1
      exact ⟨hloop, k, b, (List.getElem?_append_left hlt).trans hb, hne, hk⟩
  | postLoop | closeRdyFd | closeSizeFd => exact ⟨rfl, k, b, hb, hne, hk⟩
  | stopped hc | loop hc | readyOk hc | readyEpipe hc | readyError hc | recvMessage hc
  | recvEof hc | recvError hc | terminated hc | counted hc | sizeZero hc | sizePos hc
  | processOk hc | processFail hc | account hc => rw [hc] at hloop; cases hloop

/-! ### The whole run -/

/-- A message among the processed ones has been committed with the bytes of its buffer. -/
theorem exists_commit (hi : Inv s) {k : ℕ} {b : TraceBuffer} (hb : s.handed[k]? = some b)
    (hk : k < s.processed.length) : ∃ c ∈ s.commits, c.msg = some k ∧ c.bytes = b.bytes := by
  have hmem : k ∈ s.processed := by
    rw [hi.history.processed]
    exact List.mem_range.mpr hk
  obtain ⟨c, hc, hmsg⟩ := List.mem_filterMap.mp hmem
  obtain ⟨b', hb', hbytes⟩ := hi.owned.committed c hc k hmsg
  obtain rfl : b' = b := Option.some.inj (hb'.symm.trans hb)
  exact ⟨c, hc, hmsg, hbytes⟩

theorem not_noLoss_of_lost (hi : Inv s) (h : s.Lost) : ¬ s.NoLoss := by
  intro hn
  obtain ⟨-, k, b, hb, hne, hk⟩ := h
  obtain ⟨c, hc, hmsg, -⟩ := hn k b hb hne
  have hmem : k ∈ s.processed := List.mem_filterMap.mpr ⟨c, hc, hmsg⟩
  rw [hi.history.processed] at hmem
  exact absurd (List.mem_range.mp hmem) (Nat.not_lt.mpr hk)

/-- Without a failure, the commits are complete exactly when no step lost a buffer. -/
theorem noLoss_iff_everyStep {mem : ℕ → UInt8} {as : List Action}
    (h : exec (step cfg) (init Z mem) as = some s) (hret : s.con.hasReturned = true)
    (hab : s.aborted = false) :
    s.NoLoss ↔ EveryStep (step cfg) (init Z mem) as fun s a => ¬ Loses s a := by
  have hi : Inv s := inv_reachable ⟨as, h⟩
  constructor
  · intro hn
    by_contra hl
    have hsome : SomeStep (step cfg) (init Z mem) as Loses := by
      simpa only [not_not] using not_everyStep.mp hl
    refine not_noLoss_of_lost hi ?_ hn
    exact hsome.reaches (I := Inv) (inv_init Z mem) (fun _ _ _ hi hs => hi.step hs)
      (fun _ _ _ hi hl hs => lost_of_loses hi hl hs) (fun _ _ _ _ hb hs => lost_step hb hs) h
  · intro hl
    have hsettled : Inv s ∧ s.Settled := by
      refine hl.invariant (I := fun s => Inv s ∧ s.Settled) ⟨inv_init Z mem, nofun⟩ ?_ h
      exact fun s a t hi hl hs => ⟨hi.1.step hs, settled_step hi.1 hi.2 hl hs⟩
    have hloop : s.con.inLoop = false := by cases hc : s.con <;> rw [hc] at hret <;> trivial
    exact fun k b hb hne => exists_commit hi hb (hsettled.2 hloop hab k b hb hne)

/-- **No loss**: when `Listen` has returned, none of its calls having failed, the commits are what
the compressor has been given or what is in the file, and every non-empty buffer whose metadata was
sent has been committed exactly when no step lost one. -/
theorem no_loss_iff {mem : ℕ → UInt8} {as : List Action}
    (h : exec (step cfg) (init Z mem) as = some s) (hret : s.con.hasReturned = true)
    (hab : s.aborted = false) :
    Presented cfg s ∧
      (s.NoLoss ↔ EveryStep (step cfg) (init Z mem) as fun s a => ¬ Loses s a) :=
  ⟨presented_reachable ⟨as, h⟩, noLoss_iff_everyStep h hret hab⟩

/-! ### A thread that ends with a buffer on its way -/

/-- All system calls after the loop succeed. -/
def allOk : Output.FinishResults := ⟨true, .full, .full, true⟩

/-- The thread ends after its hand-off and is gone when `Listen` reads its counters. -/
def goneTooSoon : List Action :=
  handOff ++ [.threadFini, .finiCall, .finiCall, .recv .message, .getDeltas none, .postLoop allOk]

theorem no_loss_iff_goneTooSoon :
    ∃ s, exec (step {}) (init storing fun _ => 0) goneTooSoon = some s ∧
      Presented {} s ∧
        (s.NoLoss ↔ EveryStep (step {}) (init storing fun _ => 0) goneTooSoon fun s a =>
          ¬ Loses s a) :=
  ⟨_, rfl, no_loss_iff rfl rfl rfl⟩

/-- With compression off the one buffer handed off is not committed, and the file stays empty. -/
theorem buffer_in_hand_lost :
    ∃ s, exec (step { useCompression := false }) (init storing fun _ => 0) goneTooSoon = some s ∧
      s.con.hasReturned = true ∧ s.aborted = false ∧ s.handed.map (·.bytes) = [[7]] ∧
        s.commits = [] ∧ s.out.file = [] ∧ ¬ s.NoLoss := by
  refine ⟨_, rfl, rfl, rfl, rfl, rfl, rfl, fun h => ?_⟩
  obtain ⟨c, hc, -⟩ := h 0 oneByte rfl (by decide)
  cases hc

end BulletTime.Handoff
