import BulletTime.Handoff.Commits

/-!
# Handoff — Feed

What the compressor is given over a run of `Listen` with compression on.

* `processedPayloads_eq`: the payloads of the messages processed are those of the fresh commits.
* `fed_eq_processed_iff`: the compressor has been given the payloads of the messages processed
  exactly when no round was stale and the frame was not ended before the first commit.
-/

namespace BulletTime.Handoff
open BulletTime.Pintool BulletTime.Consumer Transition

variable {Z : Zstd} {cfg : Config} {s t : Sys Z} {a : Action}

/-- The payloads of the messages processed, in order. -/
def Sys.processedPayloads (s : Sys Z) : List UInt8 :=
  s.processed.flatMap fun k => (s.handed[k]?).elim [] TraceBuffer.bytes

/-- What a commit adds to the payloads of the messages processed. -/
def Commit.fresh (c : Commit) : List UInt8 := if c.msg = none then [] else c.bytes

/-! ### The two byte sequences -/

/-- The payloads of the messages processed are what the fresh commits presented. -/
theorem processedPayloads_eq (hi : Inv s) :
    s.processedPayloads = s.commits.flatMap Commit.fresh := by
  have key : ∀ l : List Commit, (∀ c ∈ l, c ∈ s.commits) →
      ((l.filterMap (·.msg)).flatMap fun k => (s.handed[k]?).elim [] TraceBuffer.bytes) =
        l.flatMap Commit.fresh := by
    intro l hl
    induction l with
    | nil => rfl
    | cons c l ih =>
        have ih := ih fun c' hc' => hl c' (List.mem_cons_of_mem _ hc')
        cases hm : c.msg with
        | none =>
            rw [List.filterMap_cons_none hm, ih, List.flatMap_cons, Commit.fresh, if_pos hm]
            rfl
        | some k =>
            obtain ⟨b, hb, hbytes⟩ := hi.owned.committed c (hl c List.mem_cons_self) k hm
            rw [List.filterMap_cons_some hm, List.flatMap_cons, List.flatMap_cons, ih, hb,
              Commit.fresh, if_neg (by rw [hm]; exact nofun), hbytes]
            rfl
  exact key s.commits fun c hc => hc

theorem length_fresh_le (l : List Commit) :
    (l.flatMap Commit.fresh).length ≤ (l.flatMap (·.bytes)).length := by
  induction l with
  | nil => exact le_rfl
  | cons c l ih =>
      rw [List.flatMap_cons, List.flatMap_cons, List.length_append, List.length_append]
      refine Nat.add_le_add ?_ ih
      rw [Commit.fresh]
      split_ifs
      · exact Nat.zero_le _
      · exact le_rfl

/-- A stale commit shows in the length. -/
theorem fresh_of_length {l : List Commit} (hne : ∀ c ∈ l, c.bytes ≠ [])
    (h : (l.flatMap (·.bytes)).length ≤ (l.flatMap Commit.fresh).length) :
    ∀ c ∈ l, c.msg ≠ none := by
  induction l with
  | nil => exact nofun
  | cons c l ih =>
      rw [List.flatMap_cons, List.flatMap_cons, List.length_append, List.length_append] at h
      have hl := length_fresh_le l
      have hpos := List.length_pos_iff.mpr (hne c List.mem_cons_self)
      have hc : c.msg ≠ none := fun hm => by
        rw [Commit.fresh, if_pos hm, List.length_nil] at h
        omega
      rw [Commit.fresh, if_neg hc] at h
      intro c' hc'
      rcases List.mem_cons.mp hc' with rfl | hc'
      · exact hc
      · exact ih (fun c' hc' => hne c' (List.mem_cons_of_mem _ hc')) (by omega) c' hc'

theorem flatMap_fresh {l : List Commit} (h : ∀ c ∈ l, c.msg ≠ none) :
    l.flatMap Commit.fresh = l.flatMap (·.bytes) :=
  List.flatMap_congr fun c hc => if_neg (h c hc)

/-- **What the compressor has been given** is the payloads of the messages processed exactly when
every commit is fresh and the frame was not ended before the first one. -/
theorem fed_eq_iff_fresh (hi : Inv s) (hf : Fed s) :
    s.out.fed = s.processedPayloads ↔ s.Fresh ∧ (s.out.ended = true → s.commits ≠ []) := by
  rw [processedPayloads_eq hi]
  cases he : s.out.ended with
  | false =>
      rw [hf.open_ he]
      constructor
      · intro h
        exact ⟨fresh_of_length hf.nonempty (congrArg List.length h).le, nofun⟩
      · rintro ⟨h, -⟩
        exact (flatMap_fresh h).symm
  | true =>
      obtain ⟨tail, htail, hlen⟩ := hf.ended he
      rw [htail]
      constructor
      · intro h
        have hl := congrArg List.length h
        rw [List.length_append] at hl
        have hle := length_fresh_le s.commits
        refine ⟨fresh_of_length hf.nonempty (by omega), fun _ hnil => ?_⟩
        have hzero : tail.length = 0 := by omega
        rw [hlen, if_pos hnil] at hzero
        exact absurd hzero (by decide)
      · rintro ⟨h, hne⟩
        rw [if_neg (hne rfl)] at hlen
        rw [flatMap_fresh h, List.eq_nil_of_length_eq_zero hlen, List.append_nil]

/-! ### The whole run -/

theorem fed_reachable (hcfg : cfg.useCompression = true) {mem : ℕ → UInt8}
    (h : Reachable (step cfg) (init Z mem) s) : Inv s ∧ Fed s :=
  ⟨inv_reachable h, (presented_reachable h).fed hcfg⟩

/-- A step that processes. -/
def Processes (_ : Sys Z) (a : Action) : Prop := ∃ r, a = .process r

theorem commits_ne_nil_iff {mem : ℕ → UInt8} {as : List Action}
    (h : exec (step cfg) (init Z mem) as = some s) :
    s.commits ≠ [] ↔ SomeStep (step cfg) (init Z mem) as Processes := by
  refine exec_induction (P := fun as s =>
    s.commits ≠ [] ↔ SomeStep (step cfg) (init Z mem) as Processes) ?_ ?_ h
  · refine iff_of_false (fun h => h rfl) ?_
    rintro ⟨bs, a, cs, -, e, -⟩
    simp at e
  · intro as a s t hs ih ht
    rw [someStep_snoc hs, ← ih]
    rcases commits_of_fires (fires_of_step ht) with ⟨hr, e⟩ | ⟨hr, e⟩
    · rw [e]
      exact ⟨.inl, fun h => h.resolve_right hr⟩
    · rw [e]
      exact iff_of_true (List.append_ne_nil_of_right_ne_nil _ nofun) (.inr hr)

/-- **The compressor sees exactly the trace**: in a run of `Listen` with compression on it is given
the payloads of the messages processed and nothing else exactly when no round is stale and, if the
end of the frame is asked for, some round has processed. -/
theorem fed_eq_processed_iff (hcfg : cfg.useCompression = true) {mem : ℕ → UInt8}
    {as : List Action} (h : exec (step cfg) (init Z mem) as = some s) :
    s.out.fed = s.processedPayloads ↔
      (EveryStep (step cfg) (init Z mem) as fun s a => ¬ StaleCommit s a) ∧
        (s.out.ended = true → SomeStep (step cfg) (init Z mem) as Processes) := by
  obtain ⟨hi, hf⟩ := fed_reachable hcfg ⟨as, h⟩
  rw [fed_eq_iff_fresh hi hf, fresh_iff h, commits_ne_nil_iff h]

theorem fed_eq_processed_iff_oneByte :
    ∃ s, exec (step {}) (init storing fun _ => 0) (handOff ++ [.recv .message] ++ round) = some s ∧
      (s.out.fed = s.processedPayloads ↔
        (EveryStep (step {}) (init storing fun _ => 0) (handOff ++ [.recv .message] ++ round)
            fun s a => ¬ StaleCommit s a) ∧
          (s.out.ended = true → SomeStep (step {}) (init storing fun _ => 0)
            (handOff ++ [.recv .message] ++ round) Processes)) :=
  ⟨_, rfl, fed_eq_processed_iff rfl rfl⟩

/-! ### A thread without accesses -/

/-- The thread ends without a hand-off, and `Listen` sees the stop request. -/
def noHandOff : List Action :=
  [.threadFini, .finiCall, .finiCall, .finiCall, .finiCall, .createStop, .seeStop, .testStop,
    .postLoop ⟨true, .full, .full, true⟩]

/-- Nothing was processed, and the compressor is given the whole mapping. -/
theorem whole_mapping_fed :
    ∃ s, exec (step {}) (init storing fun _ => 0) noHandOff = some s ∧ s.commits = [] ∧
      s.out.fed.length = allocationSize ∧ s.out.fed ≠ s.processedPayloads := by
  have hrun : ∃ s, exec (step {}) (init storing fun _ => 0) noHandOff = some s ∧ s.commits = [] ∧
      s.processedPayloads = [] ∧ s.out.ended = true := ⟨_, rfl, rfl, rfl, rfl⟩
  obtain ⟨s, hs, hc, hp, he⟩ := hrun
  obtain ⟨tail, htail, hlen⟩ := (fed_reachable rfl ⟨noHandOff, hs⟩).2.ended he
  have hfed : s.out.fed.length = allocationSize := by
    rw [htail, hc, List.flatMap_nil, List.nil_append, hlen, if_pos hc]
  refine ⟨s, hs, hc, hfed, fun h => ?_⟩
  rw [h, hp] at hfed
  exact absurd hfed (by decide)

end BulletTime.Handoff
