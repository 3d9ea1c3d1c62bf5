import Mathlib.Data.List.Range
import BulletTime.Handoff.Protocol

/-!
# Handoff — History

What has been handed off, received and processed in every reachable state.

* `Sys.processed`: the numbers of the messages whose payloads have been committed.
* `History`: the metadata sent announce the buffers handed off; `recv_data` is the last message
  received; the messages processed are the first ones, and `Listen` has processed all it has
  received but the one in hand.
* `handed_eq_received`: in its loop, with nothing in flight, `Listen` has received all there is.
-/

namespace BulletTime.Handoff
open BulletTime.Pintool BulletTime.Consumer Transition

variable {Z : Zstd} {cfg : Config} {s t : Sys Z} {a : Action}

/-- The messages processed, by number. -/
def Sys.processed (s : Sys Z) : List ℕ := s.commits.filterMap (·.msg)

/-- One if `Listen` holds a message it has received and not processed. -/
def Sys.inHand (s : Sys Z) : ℕ := if s.con.holding = true ∧ s.recvRet ≠ 0 then 1 else 0

structure History (s : Sys Z) : Prop where
  announced : s.size.sent.map (·.dataSize) = s.handed.map (·.bytes.length)
  last : ∀ m, s.size.received.getLast? = some m → s.recvData = m
  processed : s.processed = List.range s.processed.length
  count : s.con.inLoop = true → s.processed.length + s.inHand = s.size.received.length
  le : s.processed.length + s.inHand ≤ s.size.received.length
  /-- A round whose `recv` returned 0 runs at the end of the stream. -/
  eof : s.con.holding = true → s.recvRet = 0 → s.size.queue = [] ∧ s.size.wrClosed = true
  nonempty : s.con = .process → s.recvData.dataSize ≠ 0

theorem history_init (Z : Zstd) (mem : ℕ → UInt8) : History (init Z mem) where
  announced := rfl
  last := nofun
  processed := rfl
  count := fun _ => rfl
  le := Nat.le_refl _
  eof := nofun
  nonempty := nofun

/-- A step that sends, receives and processes nothing, and stays within the round or ends it. -/
theorem History.move (hi : History s) (hh : t.handed = s.handed)
    (hr : t.size.received = s.size.received) (hq : t.size.queue = s.size.queue)
    (hw : s.size.wrClosed = true → t.size.wrClosed = true) (hd : t.recvData = s.recvData)
    (hn : t.recvRet = s.recvRet) (hc : t.commits = s.commits)
    (hloop : t.con.inLoop = true → s.con.inLoop = true ∧ t.con.holding = s.con.holding)
    (hhold : t.con.holding = true → s.con.holding = true)
    (hp : t.con = .process → t.recvData.dataSize ≠ 0) : History t := by
  have hproc : t.processed = s.processed := congrArg (List.filterMap Commit.msg) hc
  have hle : t.inHand ≤ s.inHand := by
    unfold Sys.inHand
    rw [hn]
    split_ifs with h1 h2
    · exact le_rfl
    · exact absurd ⟨hhold h1.1, h1.2⟩ h2
    · exact Nat.zero_le _
    · exact le_rfl
  refine ⟨?_, ?_, ?_, fun h => ?_, ?_, fun h h0 => ?_, hp⟩
  · rw [Pipe.sent, hr, hq, hh]; exact hi.announced
  · rw [hr, hd]; exact hi.last
  · rw [hproc]; exact hi.processed
  · obtain ⟨hin, heq⟩ := hloop h
    have : t.inHand = s.inHand := by rw [Sys.inHand, Sys.inHand, heq, hn]
    rw [hproc, this, hr]
    exact hi.count hin
  · rw [hproc, hr]
    exact (Nat.add_le_add_left hle _).trans hi.le
  · obtain ⟨hq', hw'⟩ := hi.eof (hhold h) (hn ▸ h0)
    exact ⟨hq.trans hq', hw hw'⟩

/-- A step of the traced thread that sends nothing. -/
theorem History.pin_move (hi : History s) (hcon : t.con = s.con) (hh : t.handed = s.handed)
    (hr : t.size.received = s.size.received) (hq : t.size.queue = s.size.queue)
    (hw : s.size.wrClosed = true → t.size.wrClosed = true) (hd : t.recvData = s.recvData)
    (hn : t.recvRet = s.recvRet) (hc : t.commits = s.commits) : History t := by
  refine hi.move hh hr hq hw hd hn hc ?_ ?_ ?_ <;> rw [hcon]
  · exact fun h => ⟨h, rfl⟩
  · exact id
  · rw [hd]; exact hi.nonempty

/-- In its loop, with nothing in flight, `Listen` has received all there is. -/
theorem History.handed_eq_received (hi : History s) (hq : s.size.queue = []) :
    s.handed.length = s.size.received.length := by
  have := congrArg List.length hi.announced
  rw [List.length_map, List.length_map, ← Pipe.received_eq_sent hq] at this
  exact this.symm

/-- The message of a round that has received one is the next to be processed. -/
theorem History.msg_commit (cfg : Config) (hi : History s) (hc : s.con = .process)
    (h0 : s.recvRet ≠ 0) :
    (s.commit cfg).msg = some s.processed.length := by
  have hcount := hi.count (by rw [hc]; rfl)
  rw [Sys.inHand, if_pos ⟨by rw [hc]; rfl, h0⟩] at hcount
  rw [Sys.commit, if_neg h0, ← hcount, Nat.add_sub_cancel]

/-- **Processing**: a round that has received a message processes the next one. -/
theorem processed_process (hi : History s) (hc : s.con = .process)
    (hcm : t.commits = s.commits ++ [s.commit cfg]) :
    (s.recvRet ≠ 0 → t.processed = s.processed ++ [s.processed.length]) ∧
      (s.recvRet = 0 → t.processed = s.processed) := by
  refine ⟨fun h0 => ?_, fun h0 => ?_⟩
  · rw [Sys.processed, hcm, List.filterMap_append]
    simp [hi.msg_commit cfg hc h0, Sys.processed]
  · rw [Sys.processed, hcm, List.filterMap_append]
    simp [Sys.commit, h0, Sys.processed]

theorem History.process (hi : History s) (hc : s.con = .process) (hh : t.handed = s.handed)
    (hs : t.size = s.size) (hd : t.recvData = s.recvData)
    (hcm : t.commits = s.commits ++ [s.commit cfg]) (hcon : t.con.holding = false) : History t := by
  have hcount := hi.count (by rw [hc]; rfl)
  obtain ⟨hmsg, hnone⟩ := processed_process hi hc hcm
  have hin : t.inHand = 0 := if_neg fun h => by rw [hcon] at h; cases h.1
  have hlen : t.processed.length = t.size.received.length := by
    rw [hs, ← hcount, Sys.inHand]
    by_cases h0 : s.recvRet = 0
    · rw [hnone h0, if_neg fun h => h.2 h0]; rfl
    · rw [hmsg h0, if_pos ⟨by rw [hc]; rfl, h0⟩, List.length_append]; rfl
  refine ⟨?_, ?_, ?_, fun _ => ?_, ?_, fun h => ?_, fun h => ?_⟩
  · rw [hs, hh]; exact hi.announced
  · rw [hs, hd]; exact hi.last
  · by_cases h0 : s.recvRet = 0
    · rw [hnone h0]; exact hi.processed
    · rw [hmsg h0, List.length_append, List.length_singleton, List.range_succ, ← hi.processed]
  · rw [hin, hlen]; rfl
  · rw [hin, hlen]; exact le_rfl
  · rw [hcon] at h; cases h
  · rw [h] at hcon; cases hcon

theorem History.fires (he : Ends s) (hi : History s) (h : Fires cfg s a t) : History t := by
  cases h with
  | recordIns | countCall | enter | readSignal | readEof | readError | copyByte | copyDone
  | sendFail | threadFini | shutRdy | closeRdy | closeSize | createStop | seeStop =>
      exact hi.pin_move rfl rfl rfl rfl id rfl rfl rfl
  | shutSize => exact hi.pin_move rfl rfl rfl rfl (fun _ => rfl) rfl rfl rfl
  | @sendOk l m hp hr hm =>
      have hopen : s.size.wrClosed = false := by rw [he.sizeWr, hp]; rfl
      refine { hi with announced := ?_, eof := fun h h0 => ?_ }
      · have hsend : s.size.send m = some { s.size with queue := s.size.queue ++ [m] } :=
          Pipe.send_eq_some.mpr ⟨hr, rfl⟩
        rw [Pipe.sent_send hsend, List.map_append, hi.announced, hm, List.map_append]
        rfl
      · have := (hi.eof h h0).2
        rw [hopen] at this
        cases this
  | loop hc | readyOk hc | account hc =>
      refine hi.move rfl rfl rfl id rfl rfl rfl ?_ (fun h => by cases h) fun h => by cases h
      rw [hc]
      exact fun _ => ⟨rfl, rfl⟩
  | stopped | readyEpipe | readyError | recvError | terminated | sizeZero | postLoop | closeRdyFd
  | closeSizeFd =>
      refine hi.move rfl rfl rfl id rfl rfl rfl ?_ ?_ ?_ <;>
        · intro h
          cases h
  | counted hc =>
      refine hi.move rfl rfl rfl id rfl rfl rfl ?_ ?_ (fun h => by cases h) <;> rw [hc]
      · exact fun _ => ⟨rfl, rfl⟩
      · exact id
  | sizePos hc hz =>
      refine hi.move rfl rfl rfl id rfl rfl rfl ?_ ?_ (fun _ => hz) <;> rw [hc]
      · exact fun _ => ⟨rfl, rfl⟩
      · exact id
  | @recvMessage m q hc hq =>
      -- the last message has been processed before the next one is received
      have hcount := hi.count (by rw [hc]; rfl)
      have hin : s.inHand = 0 := if_neg fun h => by rw [hc] at h; cases h.1
      rw [hin, Nat.add_zero] at hcount
      have hnew : s.processed.length + 1 = (s.size.received ++ [m]).length := by
        rw [hcount, List.length_append]; rfl
      refine ⟨?_, ?_, hi.processed, fun _ => hnew, hnew.le, fun _ h => ?_, fun h => ?_⟩
      · have hrecv := Pipe.recv_eq_some.mpr ⟨q, hq, rfl⟩
        rw [Pipe.sent_recv hrecv]
        exact hi.announced
      · intro m' hm'
        rw [List.getLast?_concat] at hm'
        exact Option.some.inj hm'
      · cases h
      · cases h
  | recvEof hc hq hw =>
      have hin : s.inHand = 0 := if_neg fun h => by rw [hc] at h; cases h.1
      have hcount := hi.count (by rw [hc]; rfl)
      have hle := hi.le
      rw [hin] at hcount hle
      exact ⟨hi.announced, hi.last, hi.processed, fun _ => hcount, hle, fun _ _ => ⟨hq, hw⟩,
        fun h => by cases h⟩
  | processOk hc => exact hi.process hc rfl rfl rfl rfl rfl
  | processFail hc => exact hi.process hc rfl rfl rfl rfl rfl

end BulletTime.Handoff
