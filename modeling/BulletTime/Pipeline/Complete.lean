import BulletTime.Handoff.Shutdown
import BulletTime.Pipeline.Model

/-!
# Pipeline — Complete

The file a traced thread leaves, against the records its execution has made.

* `Exhausted`: once a round was stale nothing is left to process, so a stale round and a lost buffer
  do not make up for each other.
* `commits_eq_handed_iff`: the bytes committed and those handed off.
* `file_buffers`: without stale rounds the file is a sequence of whole buffers of the thread.
* `file_complete_iff`: when the file is all the thread's records.
-/

namespace BulletTime.Pipeline
open BulletTime.Pintool BulletTime.Consumer BulletTime.Handoff Transition

variable {Z : Zstd} {cfg : Config}

/-! ### What is committed and what was handed off -/

section Handoff
variable {s t : Sys Z} {a : Action}

/-- A stale round comes after all that was handed off has been processed. -/
def Exhausted (s : Sys Z) : Prop :=
  ¬ s.Fresh → s.size.wrClosed = true ∧ s.processed.length = s.handed.length

/-- Once the metadata socket is shut down nothing more is handed off. -/
theorem handed_of_closed (he : Ends s) (hw : s.size.wrClosed = true)
    (h : Handoff.Fires cfg s a t) : t.size.wrClosed = true ∧ t.handed = s.handed := by
  cases h with
  | sendOk hp =>
      rw [he.sizeWr, hp] at hw
      cases hw
  | shutSize => exact ⟨rfl, rfl⟩
  | _ => exact ⟨hw, rfl⟩

theorem exhausted_step (hi : Inv s) (hx : Exhausted s) (h : Handoff.step cfg s a = some t) :
    Exhausted t := by
  intro hn
  by_cases hs : s.Fresh
  · -- this round is the stale one
    have hst : StaleCommit s a := by
      by_contra hst
      exact hn ((fresh_step_iff h).mpr ⟨hs, hst⟩)
    obtain ⟨⟨r, rfl⟩, h0⟩ := hst
    obtain ⟨hc, rfl⟩ := step_process h
    obtain ⟨hq, hw⟩ := hi.history.eof (by rw [hc]; rfl) h0
    refine ⟨hw, ?_⟩
    have hcount := hi.history.count (by rw [hc]; rfl)
    have hin : s.inHand = 0 := if_neg fun h => h.2 h0
    rw [hin, Nat.add_zero, ← hi.history.handed_eq_received hq] at hcount
    rw [(processed_process hi.history hc rfl).2 h0]
    exact hcount
  · obtain ⟨hw, hlen⟩ := hx hs
    have hf := Handoff.fires_of_step h
    obtain ⟨hw', hh⟩ := handed_of_closed hi.ends hw hf
    refine ⟨hw', ?_⟩
    have hi' := hi.step h
    have hle := processed_le_handed hi'
    have hmono : s.processed.length ≤ t.processed.length := by
      rcases commits_of_fires hf with ⟨-, e⟩ | ⟨-, e⟩
      · rw [Sys.processed, Sys.processed, e]
      · rw [Sys.processed, Sys.processed, e, List.filterMap_append, List.length_append]
        exact Nat.le_add_right _ _
    rw [hh] at hle ⊢
    omega

theorem flatMap_range_getElem? {α β : Type*} (f : α → List β) (l : List α) (n : ℕ) :
    ((List.range n).flatMap fun k => (l[k]?).elim [] f) = (l.take n).flatMap f := by
  induction n with
  | zero => rfl
  | succ n ih =>
      rw [List.range_succ, List.flatMap_append, ih, List.take_add_one, List.flatMap_append,
        List.flatMap_singleton]
      cases l[n]? <;> simp

theorem processedPayloads_take (hi : Inv s) :
    s.processedPayloads = (s.handed.take s.processed.length).flatMap TraceBuffer.bytes := by
  rw [← flatMap_range_getElem?, ← hi.history.processed]
  rfl

/-- Nothing is lost where the buffers not processed are empty. -/
theorem noLoss_iff_drop (hi : Inv s) :
    s.NoLoss ↔ (s.handed.drop s.processed.length).flatMap TraceBuffer.bytes = [] := by
  rw [List.flatMap_eq_nil_iff]
  constructor
  · intro hn b hb
    by_contra hne
    obtain ⟨k, hk⟩ := List.mem_iff_getElem?.mp hb
    rw [List.getElem?_drop] at hk
    obtain ⟨c, hc, hmsg, -⟩ := hn _ b hk hne
    have hmem : s.processed.length + k ∈ s.processed := List.mem_filterMap.mpr ⟨c, hc, hmsg⟩
    rw [hi.history.processed, List.length_range, List.mem_range] at hmem
    omega
  · intro h k b hb hne
    refine exists_commit hi hb (lt_of_not_ge fun hk => hne (h b ?_))
    refine List.mem_iff_getElem?.mpr ⟨k - s.processed.length, ?_⟩
    rw [List.getElem?_drop, Nat.add_sub_cancel' hk]
    exact hb

/-- **The bytes committed are those handed off** exactly when no round was stale and no buffer was
lost. -/
theorem commits_eq_handed_iff (hi : Inv s) (hf : Fed s) (hx : Exhausted s) :
    s.commits.flatMap (·.bytes) = s.handed.flatMap TraceBuffer.bytes ↔ s.Fresh ∧ s.NoLoss := by
  have hsplit : s.handed.flatMap TraceBuffer.bytes = s.processedPayloads ++
      (s.handed.drop s.processed.length).flatMap TraceBuffer.bytes := by
    rw [processedPayloads_take hi, ← List.flatMap_append, List.take_append_drop]
  rw [hsplit, noLoss_iff_drop hi, processedPayloads_eq hi]
  by_cases hs : s.Fresh
  · rw [flatMap_fresh hs, List.self_eq_append_right]
    exact (and_iff_right hs).symm
  · refine iff_of_false (fun h => hs ?_) fun h => hs h.1
    have hnil : s.handed.drop s.processed.length = [] :=
      List.drop_eq_nil_of_le (hx hs).2.ge
    rw [hnil, List.flatMap_nil, List.append_nil] at h
    exact fresh_of_length hf.nonempty (congrArg List.length h).le

end Handoff

/-! ### The file -/

section File
variable {k : Knobs} {s : State Z} {mem : ℕ → UInt8} {as : List Act}
  {decompress : List UInt8 → Option (List UInt8)}

theorem kept_of_exec (h : exec (step k cfg) (init Z mem) as = some s) : Kept k s :=
  Reachable.invariant (kept_init k Z mem) (fun _ _ _ hi hs => hi.fires (fires_of_step hs)) ⟨as, h⟩

theorem written_of_exec (hcfg : cfg.useCompression = true) {t : Sys Z} {bs : List Action}
    (h : exec (Handoff.step cfg) (Handoff.init Z mem) bs = some t)
    (hok : EveryStep (Handoff.step cfg) (Handoff.init Z mem) bs fun _ b => Succeeds b) :
    Written t := by
  refine (hok.invariant (I := fun s => (Handoff.Inv s ∧ Fed s) ∧ Written s)
    ⟨⟨inv_init Z mem, fed_init Z mem⟩, written_init Z mem⟩ ?_ h).2
  intro s b t hi hb hs
  have hf := Handoff.fires_of_step hs
  exact ⟨⟨hi.1.1.step hs, hi.1.2.fires hcfg hi.1.1.history hf⟩, hi.2.fires hcfg hi.1.2 hb hf⟩

theorem exhausted_of_exec {t : Sys Z} {bs : List Action}
    (h : exec (Handoff.step cfg) (Handoff.init Z mem) bs = some t) : Exhausted t := by
  refine (Reachable.invariant (I := fun s => Handoff.Inv s ∧ Exhausted s)
    ⟨inv_init Z mem, fun hn => absurd nofun hn⟩ ?_ ⟨bs, h⟩).2
  exact fun s b t hi hs => ⟨hi.1.step hs, exhausted_step hi.1 hi.2 hs⟩

theorem flatMap_toTrace (bufs : List FillBuffer) :
    (bufs.map (·.toTrace)).flatMap TraceBuffer.bytes =
      (bufs.flatMap (·.records)).flatMap MemRef.encode := by
  rw [List.flatMap_map, List.flatMap_assoc]
  rfl

/-- **The file is a sequence of whole buffers of the thread**, in their order and each at most once,
whatever calls of the thread fail: without stale rounds, with a buffer processed and fewer than
2^36 bytes of output, a reader finds the records of some of the buffers handed over, a subsequence
of those the thread's execution has made. -/
theorem file_buffers (hcfg : cfg.useCompression = true) (hz : Z.Inverts decompress)
    (h : exec (step k cfg) (init Z mem) as = some s)
    (hok : EveryStep (step k cfg) (init Z mem) as fun s a => ∀ b ∈ s.call k a, Succeeds b)
    (hfresh : EveryStep (step k cfg) (init Z mem) as fun s a =>
      ∀ b ∈ s.call k a, ¬ StaleCommit s.sys b)
    (hret : s.sys.con.hasReturned = true) (hab : s.sys.aborted = false)
    (hsize : s.sys.out.emitted.length < overwriteLimit) (hsome : s.sys.commits ≠ []) :
    ∃ bufs : List FillBuffer, bufs.Sublist s.full ∧
      (decompress s.sys.out.file).map readTrace = some (bufs.flatMap (·.records)) ∧
      (bufs.flatMap (·.records)).Sublist (s.records k) := by
  have hkept := kept_of_exec h
  obtain ⟨bs, hbs, hbelow⟩ := exists_handOff h
  have hw : Written s.sys := written_of_exec hcfg hbs ((hbelow _).mpr hok)
  have hi : Handoff.Inv s.sys := inv_reachable ⟨bs, hbs⟩
  have hfile := decompress_file hz hw hret hab hsize hsome
  -- the commits are the first buffers handed off, and these are some of those handed over
  have hpre : s.sys.Faithful := commits_prefix hi ((fresh_iff hbs).mpr ((hbelow _).mpr hfresh))
  have hhanded : s.sys.handed.Sublist (s.full.map (·.toTrace)) :=
    (List.sublist_append_left _ _).trans hkept.offered
  have hsub := hpre.sublist.trans (hhanded.map (·.bytes))
  rw [List.map_map] at hsub
  obtain ⟨bufs, hbufs, hbytes⟩ := List.sublist_map_iff.mp hsub
  refine ⟨bufs, hbufs, ?_, ?_⟩
  · have hcommits : s.sys.commits.flatMap (·.bytes) =
        (bufs.flatMap (·.records)).flatMap MemRef.encode := by
      rw [List.flatMap_def, hbytes, ← flatMap_toTrace, List.flatMap_def, List.map_map]
    have hread := readTrace_append (bufs.flatMap (·.records)) []
    rw [List.append_nil] at hread
    rw [hfile, hcommits, Option.map_some, hread]
    exact congrArg some (List.append_nil _)
  · rw [← hkept.records]
    exact (hbufs.flatMap _).trans (List.sublist_append_left _ _)

/-- **The file is all that the thread has done** exactly when no round was stale and no buffer was
lost: where every call has succeeded and some buffer was processed, the file left at the end
decompresses to the records of everything executed, in order, and nothing else. -/
theorem file_complete_iff (hcfg : cfg.useCompression = true) (hz : Z.Inverts decompress)
    (h : exec (step k cfg) (init Z mem) as = some s)
    (hok : EveryStep (step k cfg) (init Z mem) as fun s a =>
      ∀ b ∈ s.call k a, Succeeds b ∧ Delivers b)
    (hexit : s.sys.pin = .exited) (hret : s.sys.con.hasReturned = true)
    (hab : s.sys.aborted = false) (hsize : s.sys.out.emitted.length < overwriteLimit)
    (hsome : s.sys.commits ≠ []) :
    decompress s.sys.out.file = some ((s.records k).flatMap MemRef.encode) ↔
      EveryStep (step k cfg) (init Z mem) as fun s a =>
        ∀ b ∈ s.call k a, ¬ StaleCommit s.sys b ∧ ¬ Loses s.sys b := by
  have hkept := kept_of_exec h
  obtain ⟨bs, hbs, hbelow⟩ := exists_handOff h
  have hw : Written s.sys := written_of_exec hcfg hbs
    ((hbelow _).mpr (hok.mono fun s a ha b hb => (ha b hb).1))
  have hi : Handoff.Inv s.sys := inv_reachable ⟨bs, hbs⟩
  have hfed : Fed s.sys := (fed_reachable hcfg ⟨bs, hbs⟩).2
  -- the hand-off has had every buffer, and the buffers hold every record
  have hoffered : offered s.sys = s.full.map (·.toTrace) :=
    hok.invariant (I := fun s => offered s.sys = s.full.map (·.toTrace)) rfl
      (fun s a t hs ha ht => offered_eq_fires hs (fires_of_step ht) fun b hb => (ha b hb).2) h
  have hrecords : (s.records k).flatMap MemRef.encode =
      s.sys.handed.flatMap TraceBuffer.bytes := by
    obtain ⟨hpending, hbuffer⟩ := hkept.finished (by rw [hexit]; rfl)
    have hrec := hkept.records
    rw [hpending, hbuffer, List.append_nil, List.append_nil] at hrec
    rw [offered, hexit] at hoffered
    rw [← hrec, ← flatMap_toTrace, ← hoffered]
    exact congrArg _ (List.append_nil _)
  have hsplit : (EveryStep (step k cfg) (init Z mem) as fun s a =>
      ∀ b ∈ s.call k a, ¬ StaleCommit s.sys b ∧ ¬ Loses s.sys b) ↔ s.sys.Fresh ∧ s.sys.NoLoss := by
    rw [fresh_iff hbs, noLoss_iff_everyStep hbs hret hab, hbelow, hbelow]
    refine ⟨fun h => ⟨h.mono fun s a hs b hb => (hs b hb).1, h.mono fun s a hs b hb => (hs b hb).2⟩,
      fun h bs a cs s e hs b hb => ⟨h.1 bs a cs s e hs b hb, h.2 bs a cs s e hs b hb⟩⟩
  rw [hsplit, decompress_file hz hw hret hab hsize hsome, Option.some_inj, hrecords]
  exact commits_eq_handed_iff hi hfed (exhausted_of_exec hbs)

end File

/-! ### A load -/

/-- `mov rax, [rbx]`, of the eight bytes at 0x2000. -/
def load : Executed := .ofOperands 0x401000 "mov rax, qword ptr [rbx]" [⟨0x2000, 8⟩] none

def loadRun : BblRun where
  trace := { bbls := [[load.ins]] }
  maps := {}
  bbl := 0
  block := [load.ins]
  instrs := [load]
  instrs_prefix := List.prefix_refl _

/-- `Listen` asks, and the last buffer of the thread, of one record, is handed off. -/
def handsOff : List Action :=
  [.testStop, .sendReady .ok, .readReady .message 0 0] ++ List.replicate 24 .copyByte ++
    [.copyDone 0, .sendSize true]

/-- The thread closes its sockets, and `Listen` processes the buffer before it finds out. -/
def leaves : List Action :=
  [.finiCall, .finiCall, .finiCall, .finiCall, .recv .message] ++ Handoff.round ++
    [.testStop, .sendReady .epipe, .postLoop Output.finishOk]

/-- The thread executes the load and exits. -/
def loaded : List Act :=
  [.enterBbl loadRun, .fill, .lastBuffer 0 0] ++ handsOff.map .other ++
    .threadFini :: leaves.map .other

theorem everyCall_of_forall {Z : Zstd} {k : Knobs} {cfg : Config} {s : State Z} {as : List Act}
    {C : Action → Prop} (hexec : ∀ b, ofExecution b = true → C b)
    (h : ∀ a ∈ as, ∀ b, a = .other b → C b) :
    EveryStep (step k cfg) s as fun s a => ∀ b ∈ s.call k a, C b := by
  refine everyStep_of_forall fun a ha s b hb => ?_
  cases a with
  | fill => cases hb
  | other a =>
      cases hb
      exact h _ ha _ rfl
  | _ =>
      cases hb
      exact hexec _ rfl

theorem succeeds_loaded : EveryStep (step {} {}) (init storing fun _ => 0) loaded fun s a =>
    ∀ b ∈ s.call {} a, Succeeds b ∧ Delivers b := by
  refine everyCall_of_forall (fun b hb => ?_) ?_
  · cases b <;> first | exact ⟨trivial, trivial⟩ | cases hb
  · simp [loaded, handsOff, leaves, Handoff.round, Succeeds, Delivers]

theorem exec_loaded : ∃ s : State storing,
    exec (step {} {}) (init storing fun _ => 0) loaded = some s ∧ s.sys.pin = .exited ∧
      s.sys.con.hasReturned = true ∧ s.sys.aborted = false ∧
      s.sys.out.emitted.length < overwriteLimit ∧ s.sys.commits ≠ [] ∧
      s.sys.commits.map (·.msg) = [some 0] :=
  ⟨_, rfl, rfl, rfl, rfl, by decide, nofun, rfl⟩

theorem file_complete_iff_loaded : ∃ s : State storing,
    exec (step {} {}) (init storing fun _ => 0) loaded = some s ∧
      (some s.sys.out.file = some ((s.records {}).flatMap MemRef.encode) ↔
        EveryStep (step {} {}) (init storing fun _ => 0) loaded fun s a =>
          ∀ b ∈ s.call {} a, ¬ StaleCommit s.sys b ∧ ¬ Loses s.sys b) := by
  obtain ⟨s, hs, hexit, hret, hab, hsize, hsome, -⟩ := exec_loaded
  exact ⟨s, hs, file_complete_iff rfl inverts_storing hs succeeds_loaded hexit hret hab hsize hsome⟩

theorem file_buffers_loaded : ∃ s : State storing,
    exec (step {} {}) (init storing fun _ => 0) loaded = some s ∧
      ∃ bufs : List FillBuffer, bufs.Sublist s.full ∧
        (some s.sys.out.file).map readTrace = some (bufs.flatMap (·.records)) ∧
        (bufs.flatMap (·.records)).Sublist (s.records {}) := by
  obtain ⟨s, hs, hexit, hret, hab, hsize, hsome, hmsg⟩ := exec_loaded
  obtain ⟨bs, hbs, hbelow⟩ := exists_handOff hs
  have hfresh : s.sys.Fresh := fun c hc hn => by
    have hmem := List.mem_map_of_mem (f := Commit.msg) hc
    rw [hmsg, hn, List.mem_singleton] at hmem
    cases hmem
  exact ⟨s, hs, file_buffers rfl inverts_storing hs
    (succeeds_loaded.mono fun s a ha b hb => (ha b hb).1)
    ((hbelow _).mp ((fresh_iff hbs).mp hfresh)) hret hab hsize hsome⟩

end BulletTime.Pipeline
