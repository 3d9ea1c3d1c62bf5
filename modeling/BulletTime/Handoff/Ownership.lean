import BulletTime.Handoff.Presented

/-!
# Handoff — Ownership

Who may touch the shared mapping, and what it holds when `Listen` reads it.

* `Owned`: a hand-off has copied what it says; from the send of the metadata to the end of the
  processing the mapping holds the last buffer handed off.
* `shared_buffer_owned`: a hand-off copies only while `Listen` waits in `recv` or has returned, and
  the payload of the `k`-th message, as it is compressed or written, is the `k`-th buffer.
-/

namespace BulletTime.Handoff
open BulletTime.Pintool BulletTime.Consumer Transition

variable {Z : Zstd} {cfg : Config} {s t : Sys Z} {a : Action}

/-- The mapping begins with the bytes of `b`. -/
def Holds (mem : ℕ → UInt8) (b : TraceBuffer) : Prop := payload mem b.bytes.length = b.bytes

/-- The last buffer handed off is on its way: its message is in flight to a `Listen` that may still
receive it, or has been received and not processed. -/
def Sys.Shown (s : Sys Z) : Prop :=
  (s.rdy.wrClosed = false ∧ s.size.queue ≠ []) ∨ (s.con.holding = true ∧ s.recvRet ≠ 0)

structure Owned (s : Sys Z) : Prop where
  copying : ∀ l i, s.pin = .copying l i → payload s.mem i = l.buf.bytes.take i
  sending : ∀ l, s.pin = .sending l → Holds s.mem l.buf
  shown : s.Shown → ∀ b, s.handed.getLast? = some b → Holds s.mem b
  committed : ∀ c ∈ s.commits, ∀ k, c.msg = some k →
    ∃ b, s.handed[k]? = some b ∧ c.bytes = b.bytes

theorem owned_init (Z : Zstd) (mem : ℕ → UInt8) : Owned (init Z mem) where
  copying := nofun
  sending := nofun
  shown := nofun
  committed := nofun

/-! ### The mapping -/

/-- Copying one more byte. -/
theorem payload_update (mem : ℕ → UInt8) (i : ℕ) (b : UInt8) :
    payload (Function.update mem i b) (i + 1) = payload mem i ++ [b] := by
  rw [payload, payload, List.range_succ, List.map_append]
  congr 1
  · refine List.map_congr_left fun j hj => Function.update_of_ne ?_ _ _
    exact (List.mem_range.mp hj).ne
  · simp

/-- A hand-off that has the mapping and a buffer on its way exclude each other. -/
theorem not_shown (he : Ends s) (hc : Counts s) {l : CopyLocals} (h : s.pin.Handing l) :
    ¬ s.Shown := by
  rintro (⟨hw, hq⟩ | ⟨hh, -⟩)
  · exact hq (hc.queue_eq_nil he h hw)
  · rcases hc.excludes he h with e | e
    · rw [e] at hh; cases hh
    · cases hcon : s.con <;> rw [hcon] at hh e <;> cases hh <;> cases e

/-- With nothing in flight, `recv_data` describes the last buffer handed off. -/
theorem History.dataSize_eq (hi : History s) (hq : s.size.queue = []) {b : TraceBuffer}
    (hb : s.handed.getLast? = some b) : s.recvData.dataSize = b.bytes.length := by
  have hlast := congrArg List.getLast? hi.announced
  rw [← Pipe.received_eq_sent hq, List.getLast?_map, List.getLast?_map, hb] at hlast
  obtain ⟨m, hm, hmb⟩ := Option.map_eq_some_iff.mp hlast
  rw [hi.last m hm]
  exact hmb

/-- A process step presents the buffer whose message the round has received. -/
theorem commit_bytes (he : Ends s) (hc : Counts s) (hh : History s) (hi : Owned s)
    (hp : s.con = .process) {k : ℕ} (hk : (s.commit cfg).msg = some k) :
    ∃ b, s.handed[k]? = some b ∧ (s.commit cfg).bytes = b.bytes := by
  have h0 : s.recvRet ≠ 0 := fun h0 => by
    rw [Sys.commit, if_pos h0] at hk
    cases hk
  have hhold : s.con.holding = true := by rw [hp]; rfl
  have hq : s.size.queue = [] := hc.idle he (by rw [hp]; rintro ⟨⟩) (by rw [hp]; rfl)
  have hcount := hh.count (by rw [hp]; rfl)
  rw [Sys.inHand, if_pos ⟨hhold, h0⟩, ← hh.handed_eq_received hq] at hcount
  obtain rfl : s.processed.length = k := Option.some.inj ((hh.msg_commit cfg hp h0).symm.trans hk)
  have hne : s.handed ≠ [] := List.ne_nil_of_length_pos (by omega)
  refine ⟨s.handed.getLast hne, ?_, ?_⟩
  · rw [← List.getLast?_eq_some_getLast, List.getLast?_eq_getElem?, ← hcount, Nat.add_sub_cancel]
  · have hb := List.getLast?_eq_some_getLast hne
    have hholds := hi.shown (.inr ⟨hhold, h0⟩) _ hb
    exact (payload_padded cfg s).trans ((hh.dataSize_eq hq hb).symm ▸ hholds)

/-! ### Steps -/

/-- A step that leaves the mapping alone, hands nothing off and commits nothing. -/
theorem Owned.move (hi : Owned s) (hm : t.mem = s.mem) (hh : t.handed = s.handed)
    (hcm : t.commits = s.commits)
    (hc : ∀ l i, t.pin = .copying l i → payload s.mem i = l.buf.bytes.take i)
    (hs : ∀ l, t.pin = .sending l → Holds s.mem l.buf) (hshown : t.Shown → s.Shown) :
    Owned t where
  copying := by rw [hm]; exact hc
  sending := by rw [hm]; exact hs
  shown h := by rw [hm, hh]; exact hi.shown (hshown h)
  committed := by rw [hcm, hh]; exact hi.committed

/-- A step of `Listen` that leaves the mapping alone, receives nothing and commits nothing. -/
theorem Owned.listen (hi : Owned s) (hp : t.pin = s.pin) (hm : t.mem = s.mem)
    (hh : t.handed = s.handed) (hcm : t.commits = s.commits) (hshown : t.Shown → s.Shown) :
    Owned t :=
  hi.move hm hh hcm (by rw [hp]; exact hi.copying) (by rw [hp]; exact hi.sending) hshown

/-- Processing: the pad overwrites nothing that is on its way. -/
theorem Owned.process (he : Ends s) (hc : Counts s) (hh : History s) (hi : Owned s)
    (hcon : s.con = .process) (hpin : t.pin = s.pin) (hhd : t.handed = s.handed)
    (hcm : t.commits = s.commits ++ [s.commit cfg]) (hns : ¬ t.Shown) : Owned t := by
  have hno : ∀ l, ¬ s.pin.Handing l := fun l h => by
    rcases hc.excludes he h with e | e <;> rw [hcon] at e <;> cases e
  refine ⟨fun l i h => ?_, fun l h => ?_, fun h => absurd h hns, fun c hmem k hk => ?_⟩
  · exact absurd (.inl ⟨i, hpin ▸ h⟩) (hno l)
  · exact absurd (.inr (hpin ▸ h)) (hno l)
  · rw [hhd]
    rw [hcm, List.mem_append, List.mem_singleton] at hmem
    rcases hmem with hmem | rfl
    · exact hi.committed c hmem k hk
    · exact commit_bytes he hc hh hi hcon hk

theorem Owned.fires (he : Ends s) (hc : Counts s) (hh : History s) (hi : Owned s)
    (h : Fires cfg s a t) : Owned t := by
  cases h with
  | recordIns | countCall | createStop | seeStop => exact hi.listen rfl rfl rfl rfl id
  | enter | readError | sendFail | threadFini | shutRdy | shutSize | closeRdy | closeSize =>
      exact hi.move rfl rfl rfl nofun nofun id
  | readSignal | readEof =>
      refine hi.move rfl rfl rfl ?_ nofun id
      rintro l i ⟨⟩
      rfl
  | @copyByte l i b hp hb =>
      have hno : ¬ s.Shown := not_shown he hc (.inl ⟨i, hp⟩)
      refine ⟨?_, nofun, fun h => absurd h hno, hi.committed⟩
      rintro l' i' ⟨⟩
      obtain ⟨hlt, rfl⟩ := List.getElem?_eq_some_iff.mp hb
      rw [payload_update, hi.copying l i hp, List.take_append_getElem hlt]
  | @copyDone l now hp =>
      refine hi.move rfl rfl rfl nofun ?_ id
      rintro l' ⟨⟩
      exact (hi.copying l _ hp).trans List.take_length
  | @sendOk l m hp hr hm =>
      refine ⟨nofun, nofun, fun _ b hb => ?_, fun c hmem k hk => ?_⟩
      · rw [List.getLast?_concat] at hb
        cases hb
        exact hi.sending l hp
      · obtain ⟨b, hb, hbytes⟩ := hi.committed c hmem k hk
        have hlt := (List.getElem?_eq_some_iff.mp hb).1
        exact ⟨b, (List.getElem?_append_left hlt).trans hb, hbytes⟩
  | stopped hc' | loop hc' | readyOk hc' | readyEpipe hc' | readyError hc' | recvError hc'
  | terminated hc' | sizeZero hc' | account hc' | postLoop hc' =>
      refine hi.listen rfl rfl rfl rfl ?_
      rintro (h | ⟨h, -⟩)
      · exact .inl h
      · cases h
  | counted hc' =>
      refine hi.listen rfl rfl rfl rfl ?_
      rintro (h | ⟨-, h⟩)
      · exact .inl h
      · exact .inr ⟨by rw [hc']; rfl, h⟩
  | sizePos hc' =>
      refine hi.listen rfl rfl rfl rfl ?_
      rintro (h | ⟨-, h⟩)
      · exact .inl h
      · exact .inr ⟨by rw [hc']; rfl, h⟩
  | @recvMessage m q hc' hq =>
      -- what is now in hand was in flight
      refine hi.listen rfl rfl rfl rfl fun _ => .inl ⟨?_, by rw [hq]; exact nofun⟩
      exact he.rdy_open (by rw [hc']; rfl)
  | recvEof hc' hq =>
      refine hi.listen rfl rfl rfl rfl ?_
      rintro (⟨-, h⟩ | ⟨-, h⟩)
      · exact absurd hq h
      · exact absurd rfl h
  | processOk hc' | processFail hc' =>
      have hq := hc.idle he (by rw [hc']; exact nofun) (by rw [hc']; rfl)
      refine Owned.process he hc hh hi hc' rfl rfl rfl ?_
      rintro (⟨-, h⟩ | ⟨h, -⟩)
      · exact h hq
      · cases h
  | closeRdyFd =>
      refine hi.listen rfl rfl rfl rfl ?_
      rintro (⟨h, -⟩ | ⟨h, -⟩) <;> cases h
  | closeSizeFd =>
      refine hi.listen rfl rfl rfl rfl ?_
      rintro (h | ⟨h, -⟩)
      · exact .inl h
      · cases h

/-! ### Every reachable state -/

/-- What the hand-off keeps in every reachable state. -/
structure Inv (s : Sys Z) : Prop where
  ends : Ends s
  counts : Counts s
  history : History s
  owned : Owned s

theorem inv_init (Z : Zstd) (mem : ℕ → UInt8) : Inv (init Z mem) :=
  ⟨ends_init Z mem, counts_init Z mem, history_init Z mem, owned_init Z mem⟩

theorem Inv.step (hi : Inv s) (h : step cfg s a = some t) : Inv t := by
  have hf := fires_of_step h
  exact ⟨hi.ends.fires hf, hi.counts.fires hi.ends hf, hi.history.fires hi.ends hf,
    hi.owned.fires hi.ends hi.counts hi.history hf⟩

theorem inv_reachable {mem : ℕ → UInt8} (h : Reachable (step cfg) (init Z mem) s) : Inv s :=
  h.invariant (inv_init Z mem) fun _ _ _ hi hs => hi.step hs

/-- `Listen` runs from the `recv` that delivered a message to its next ready signal, or to its
return. -/
def ListenPc.usesBuffer : ListenPc → Bool
  | .recv | .returned | .rdyClosed | .closed => false
  | _ => true

/-- **Ownership of the shared buffer.**  Whatever has closed, a hand-off copies only while `Listen`
neither holds a message nor runs on to its next ready signal, what `Listen` presents for the `k`-th
message is the `k`-th buffer handed off, and what it presents is what the compressor is given or the
file written from. -/
theorem shared_buffer_owned {mem : ℕ → UInt8} (h : Reachable (step cfg) (init Z mem) s) :
    (∀ l i, s.pin = .copying l i → s.con.usesBuffer = false) ∧
      (∀ c ∈ s.commits, ∀ k, c.msg = some k → ∃ b, s.handed[k]? = some b ∧ c.bytes = b.bytes) ∧
      Presented cfg s := by
  have hi := inv_reachable h
  refine ⟨fun l i hp => ?_, hi.owned.committed, presented_reachable h⟩
  rcases hi.counts.excludes hi.ends (.inl ⟨i, hp⟩) with e | e
  · rw [e]; rfl
  · cases hc : s.con <;> rw [hc] at e <;> first | rfl | cases e

/-! ### One buffer -/

/-- One buffer of one byte. -/
def oneByte : TraceBuffer := ⟨[7], by decide⟩

/-- One hand-off: `Listen` asks, the thread copies and sends. -/
def handOff : List Action :=
  [.testStop, .sendReady .ok, .enter oneByte 0 0, .readReady .message 0 0, .copyByte, .copyDone 0,
    .sendSize true]

def counts : CPUCounts := ⟨1, 1, 1, 1, false⟩

/-- One round of the loop after its `recv`. -/
def round : List Action := [.getDeltas (some counts), .testSize, .process .full, .account 0 true]

theorem shared_buffer_owned_oneByte :
    ∃ s, exec (step {}) (init storing fun _ => 0) (handOff ++ [.recv .message] ++ round) = some s ∧
      (∀ l i, s.pin = .copying l i → s.con.usesBuffer = false) ∧
        (∀ c ∈ s.commits, ∀ k, c.msg = some k →
          ∃ b, s.handed[k]? = some b ∧ c.bytes = b.bytes) ∧ Presented {} s := by
  have hrun : ∃ s, exec (step {}) (init storing fun _ => 0)
      (handOff ++ [.recv .message] ++ round) = some s := ⟨_, rfl⟩
  obtain ⟨s, hs⟩ := hrun
  exact ⟨s, hs, shared_buffer_owned ⟨_, hs⟩⟩

end BulletTime.Handoff
