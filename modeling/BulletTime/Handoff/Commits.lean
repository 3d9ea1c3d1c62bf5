import Mathlib.Data.List.Infix
import BulletTime.Handoff.Ownership

/-!
# Handoff — Commits

The payloads committed against the buffers handed off, over whole runs.

* `commits_prefix`: if every commit is of a round that received a message, the commits are the
  first buffers handed off, in order.
* `commits_prefix_iff`: in a run the commits are at every moment a prefix of the buffers handed off
  exactly when no round goes on to its processing although its `recv` returned 0.
-/

namespace BulletTime.Handoff
open BulletTime.Pintool BulletTime.Consumer Transition

variable {Z : Zstd} {cfg : Config} {s t : Sys Z} {a : Action}

/-- The payloads committed are the first buffers handed off. -/
def Sys.Faithful (s : Sys Z) : Prop :=
  s.commits.map (·.bytes) <+: s.handed.map (·.bytes)

/-- A round goes on to its processing although its `recv` returned 0, with `recv_data` as the last
message left it. -/
def StaleCommit (s : Sys Z) (a : Action) : Prop := (∃ r, a = .process r) ∧ s.recvRet = 0

/-- Every commit is of a round that received a message. -/
def Sys.Fresh (s : Sys Z) : Prop := ∀ c ∈ s.commits, c.msg ≠ none

theorem map_some_filterMap {α β : Type*} {f : α → Option β} {l : List α}
    (h : ∀ x ∈ l, f x ≠ none) : (l.filterMap f).map some = l.map f := by
  induction l with
  | nil => rfl
  | cons x l ih =>
      obtain ⟨y, hy⟩ := Option.ne_none_iff_exists'.mp (h x List.mem_cons_self)
      rw [List.filterMap_cons_some hy, List.map_cons, List.map_cons, hy,
        ih fun z hz => h z (List.mem_cons_of_mem _ hz)]

/-- The commits of a fresh state carry the numbers 0, 1, 2, … -/
theorem msg_getElem (hi : Inv s) (hf : s.Fresh) {i : ℕ} (h : i < s.commits.length) :
    s.commits[i].msg = some i := by
  have hmap : s.processed.map some = s.commits.map (·.msg) := map_some_filterMap hf
  have hlen : s.processed.length = s.commits.length := by
    simpa only [List.length_map] using congrArg List.length hmap
  have hget : (s.processed.map some)[i]? = (s.commits.map (·.msg))[i]? := by rw [hmap]
  rw [hi.history.processed, hlen, List.getElem?_map, List.getElem?_map, List.getElem?_range h,
    List.getElem?_eq_getElem h] at hget
  exact (Option.some.inj hget).symm

/-- **Without stale rounds the commits are the first buffers handed off.** -/
theorem commits_prefix (hi : Inv s) (hf : s.Fresh) : s.Faithful := by
  refine List.prefix_iff_getElem?.mpr fun i h => ?_
  rw [List.length_map] at h
  obtain ⟨b, hb, hbytes⟩ :=
    hi.owned.committed _ (List.getElem_mem h) i (msg_getElem hi hf h)
  rw [List.getElem?_map, hb, List.getElem_map, hbytes]
  rfl

theorem step_process {r : WriteResult} (h : step cfg s (.process r) = some t) :
    s.con = .process ∧ s.process cfg r = t := by
  obtain ⟨hc, ht⟩ := Option.ite_none_right_eq_some.mp h
  exact ⟨hc, Option.some.inj ht⟩

/-- Only processing commits. -/
theorem commits_of_fires (h : Fires cfg s a t) :
    ((¬ ∃ r, a = .process r) ∧ t.commits = s.commits) ∨
      ((∃ r, a = .process r) ∧ t.commits = s.commits ++ [s.commit cfg]) := by
  cases h with
  | processOk => exact .inr ⟨⟨_, rfl⟩, rfl⟩
  | processFail => exact .inr ⟨⟨_, rfl⟩, rfl⟩
  | _ => exact .inl ⟨nofun, rfl⟩

/-- A step keeps the commits fresh exactly when it is not a stale one. -/
theorem fresh_step_iff (h : step cfg s a = some t) : t.Fresh ↔ s.Fresh ∧ ¬ StaleCommit s a := by
  rcases commits_of_fires (fires_of_step h) with ⟨hr, e⟩ | ⟨hr, e⟩
  · have hst : ¬ StaleCommit s a := fun hst => hr hst.1
    rw [Sys.Fresh, e]
    exact ⟨fun hf => ⟨hf, hst⟩, fun hf => hf.1⟩
  · have hmsg : (s.commit cfg).msg ≠ none ↔ ¬ StaleCommit s a := by
      by_cases h0 : s.recvRet = 0
      · rw [Sys.commit, if_pos h0]
        exact iff_of_false (fun h => h rfl) fun h => h ⟨hr, h0⟩
      · rw [Sys.commit, if_neg h0]
        exact iff_of_true (Option.some_ne_none _) fun h => h0 h.2
    rw [← hmsg]
    constructor
    · intro hf
      exact ⟨fun c hc => hf c (e ▸ List.mem_append_left _ hc),
        hf _ (e ▸ List.mem_append_right _ List.mem_cons_self)⟩
    · rintro ⟨hf, hm⟩ c hc
      rw [e, List.mem_append, List.mem_singleton] at hc
      rcases hc with hc | rfl
      · exact hf c hc
      · exact hm

/-- The commits of a run are fresh exactly when no step of it is stale. -/
theorem fresh_iff {mem : ℕ → UInt8} {as : List Action}
    (h : exec (step cfg) (init Z mem) as = some s) :
    s.Fresh ↔ EveryStep (step cfg) (init Z mem) as fun s a => ¬ StaleCommit s a := by
  refine exec_induction (P := fun as s =>
    s.Fresh ↔ EveryStep (step cfg) (init Z mem) as fun s a => ¬ StaleCommit s a) ?_ ?_ h
  · exact iff_of_true nofun everyStep_nil
  · intro as a s t hs ih ht
    rw [everyStep_snoc hs, fresh_step_iff ht, ih]

/-- **A stale round commits one payload too many**: all that has been handed off was committed. -/
theorem not_faithful_of_stale (hi : Inv s) (hst : StaleCommit s a)
    (h : step cfg s a = some t) : ¬ t.Faithful := by
  obtain ⟨⟨r, rfl⟩, h0⟩ := hst
  obtain ⟨hc, rfl⟩ := step_process h
  intro hpre
  have hq := (hi.history.eof (by rw [hc]; rfl) h0).1
  have hcount := hi.history.count (by rw [hc]; rfl)
  have hin : s.inHand = 0 := if_neg fun h => h.2 h0
  rw [hin, Nat.add_zero, ← hi.history.handed_eq_received hq] at hcount
  have hsub : s.processed.length ≤ s.commits.length := List.length_filterMap_le _ _
  have hle : s.commits.length + 1 ≤ s.handed.length := by
    have := hpre.length_le
    rwa [List.length_map, List.length_map, Sys.process, List.length_append] at this
  omega

/-- **No duplication and no invention** exactly when no round goes on to its processing although
its `recv` returned 0.  The commits are at every moment what the compressor has been given or what
has been written. -/
theorem commits_prefix_iff (mem : ℕ → UInt8) {as : List Action}
    (h : exec (step cfg) (init Z mem) as = some s) :
    EveryState (step cfg) (init Z mem) as (Presented cfg) ∧
      (EveryState (step cfg) (init Z mem) as Sys.Faithful ↔
        EveryStep (step cfg) (init Z mem) as fun s a => ¬ StaleCommit s a) := by
  refine ⟨fun bs cs t _ hb => presented_reachable ⟨bs, hb⟩, ?_, ?_⟩
  · intro hP
    refine hP.everyStep (I := Inv) (inv_init Z mem) (fun _ _ _ hi hs => hi.step hs) ?_ h
    exact fun s a t hi hs hf hst => not_faithful_of_stale hi hst hs hf
  · intro hC
    refine EveryStep.everyState (I := fun s => Inv s ∧ s.Fresh) ⟨inv_init Z mem, nofun⟩ ?_ ?_ hC
    · exact fun s a t hi hst hs => ⟨hi.1.step hs, (fresh_step_iff hs).mpr ⟨hi.2, hst⟩⟩
    · exact fun s hi => commits_prefix hi.1 hi.2

/-! ### The last buffer, twice -/

/-- The thread ends after its hand-off, `Listen` processes the buffer, asks again and reads end of
file. -/
def lastTwice : List Action :=
  handOff ++ [.threadFini, .finiCall, .finiCall, .recv .message] ++ round ++
    [.testStop, .sendReady .ok, .recv .eof] ++ round

theorem commits_prefix_iff_lastTwice :
    ∃ s, exec (step {}) (init storing fun _ => 0) lastTwice = some s ∧
      EveryState (step {}) (init storing fun _ => 0) lastTwice (Presented {}) ∧
        (EveryState (step {}) (init storing fun _ => 0) lastTwice Sys.Faithful ↔
          EveryStep (step {}) (init storing fun _ => 0) lastTwice fun s a =>
            ¬ StaleCommit s a) :=
  ⟨_, rfl, commits_prefix_iff _ rfl⟩

/-- One buffer is handed off and committed twice. -/
theorem last_buffer_committed_twice :
    ∃ s, exec (step {}) (init storing fun _ => 0) lastTwice = some s ∧
      s.handed.map (·.bytes) = [[7]] ∧ s.commits.map (·.bytes) = [[7], [7]] ∧ ¬ s.Faithful :=
  ⟨_, rfl, rfl, rfl, fun h => absurd (List.IsPrefix.length_le h) (by decide)⟩

end BulletTime.Handoff
