import BulletTime.Balance.Doubles

/-!
# Balance — Totals

The totals of the metadata, and the buffers they are the totals of.  Every processed buffer is
counted, but its metadata are added inside the balancing only.

* `Tally`: a total over the buffers processed, less those missed and the one whose round has not
  come to its second scope.
* `Tallied` and `accounts_reachable`: the totals of each thread in every reachable state.
* `totals_account_iff`: between hand-offs the totals are those of the buffers processed exactly when
  the missed ones add nothing.
-/

namespace BulletTime.Balance.Doubles
open Transition

/-- The sum of a field over some buffers. -/
def sumOf (f : Metadata → ℕ) (bufs : List Metadata) : ℕ := (bufs.map f).sum

theorem sumOf_append (f : Metadata → ℕ) (as bs : List Metadata) :
    sumOf f (as ++ bs) = sumOf f as + sumOf f bs := by
  rw [sumOf, List.map_append, List.sum_append]
  rfl

theorem sumOf_singleton (f : Metadata → ℕ) (m : Metadata) : sumOf f [m] = f m := List.sum_singleton

/-- `c` is the sum of `f` over the buffers `done` less those `missed` and `pending`, as a 64-bit
word. -/
structure Tally (f : Metadata → ℕ) (c : ℕ) (done missed pending : List Metadata) : Prop where
  word : c < 2 ^ 64
  sum : (c + sumOf f missed + sumOf f pending) % 2 ^ 64 = sumOf f done % 2 ^ 64

section Tally
variable {f : Metadata → ℕ} {c : ℕ} {done missed : List Metadata} {m : Metadata}

theorem tally_nil (f : Metadata → ℕ) : Tally f 0 [] [] [] where
  word := Nat.two_pow_pos 64
  sum := rfl

/-- A buffer is processed. -/
theorem Tally.begin (h : Tally f c done missed []) (m : Metadata) :
    Tally f c (done ++ [m]) missed [m] where
  word := h.word
  sum := by
    have hs : (c + sumOf f missed) % 2 ^ 64 = sumOf f done % 2 ^ 64 := h.sum
    rw [sumOf_append, sumOf_singleton, Nat.add_mod, hs, ← Nat.add_mod]

/-- Its round is not balanced. -/
theorem Tally.miss (h : Tally f c done missed [m]) : Tally f c done (missed ++ [m]) [] where
  word := h.word
  sum := by
    have hs := h.sum
    rw [sumOf_singleton] at hs
    rw [sumOf_append, sumOf_singleton, ← Nat.add_assoc]
    exact hs

/-- Its metadata are added. -/
theorem Tally.add (h : Tally f c done missed [m]) : Tally f (addWord c (f m)) done missed [] where
  word := by
    rw [addWord_natCast]
    exact Nat.mod_lt _ (Nat.two_pow_pos 64)
  sum := by
    have hs := h.sum
    rw [sumOf_singleton, Nat.add_right_comm] at hs
    rw [addWord_natCast]
    change ((c + f m) % 2 ^ 64 + sumOf f missed) % 2 ^ 64 = _
    rw [Nat.mod_add_mod]
    exact hs

/-- **A total is the sum over all buffers** exactly when the missed ones add nothing. -/
theorem Tally.eq_iff (h : Tally f c done missed []) :
    c = sumOf f done % 2 ^ 64 ↔ sumOf f missed % 2 ^ 64 = 0 := by
  have hs : (c + sumOf f missed) % 2 ^ 64 = sumOf f done % 2 ^ 64 := h.sum
  have hc := h.word
  rw [← hs]
  omega

end Tally

/-- The buffer whose metadata have not been added yet. -/
def PC.pending : PC → List Metadata
  | .counted x | .peaked x _ => [x.data]
  | _ => []

/-- A thread's totals, over the buffers it has processed. -/
structure Tallied (e : TotalEntry) (done missed pending : List Metadata) : Prop where
  fcalls : Tally (·.fcallsExec) e.totalFcalls done missed pending
  instructions : Tally (·.insExec) e.totalInstructions done missed pending
  memIns : Tally (·.memInsExec) e.totalMemIns done missed pending
  buffers : e.totalBuffersProcessed = min done.length (2 ^ 53)

section Tallied
variable {e : TotalEntry} {done missed : List Metadata} {m : Metadata}

theorem tallied_nil : Tallied {} [] [] [] := ⟨tally_nil _, tally_nil _, tally_nil _, rfl⟩

theorem Tallied.begin (h : Tallied e done missed []) (m : Metadata) :
    Tallied { e with totalBuffersProcessed := addOne e.totalBuffersProcessed } (done ++ [m]) missed
      [m] where
  fcalls := h.fcalls.begin m
  instructions := h.instructions.begin m
  memIns := h.memIns.begin m
  buffers := by
    rw [h.buffers, addOne_min, List.length_append, List.length_singleton]

theorem Tallied.miss (h : Tallied e done missed [m]) : Tallied e done (missed ++ [m]) [] :=
  ⟨h.fcalls.miss, h.instructions.miss, h.memIns.miss, h.buffers⟩

theorem Tallied.add (h : Tallied e done missed [m]) :
    Tallied
      { e with
        totalFcalls := addWord e.totalFcalls m.fcallsExec
        totalInstructions := addWord e.totalInstructions m.insExec
        totalMemIns := addWord e.totalMemIns m.memInsExec } done missed [] :=
  ⟨h.fcalls.add, h.instructions.add, h.memIns.add, h.buffers⟩

end Tallied

/-- Every thread's totals, and nothing of the threads still to come. -/
structure Accounts (s : State) : Prop where
  tallied : ∀ i, Tallied (s.tables.total i) (s.done i) (s.missed i) (s.pc i).pending
  fresh : ∀ i, s.tables.nTotal ≤ i → s.pc i = .idle ∧ s.done i = [] ∧ s.missed i = []

theorem accounts_start : Accounts {} where
  tallied _ := tallied_nil
  fresh _ _ := ⟨rfl, rfl, rfl⟩

variable {cfg : Config} {s t : State} {a : Action} {i : ℕ}

theorem period_total (cfg : Config) (u : Tables) :
    (period cfg u).total = u.total ∧ (period cfg u).nTotal = u.nTotal := by
  unfold period
  split_ifs <;> exact ⟨rfl, rfl⟩

/-- The next scope of a round: the buffer stays pending, is missed, or its metadata are added. -/
theorem Tallied.advance {u : Tables} {p : PC}
    (h : Tallied (s.tables.total i) (s.done i) (s.missed i) (s.pc i).pending)
    (ha : advance cfg i s.tables (s.pc i) = some (u, p)) :
    Tallied (u.total i) (s.done i) (s.missed i ++ (s.pc i).unbalanced cfg s.tables) p.pending ∧
      (∀ j ≠ i, u.total j = s.tables.total j) ∧ u.nTotal = s.tables.nTotal := by
  cases hpc : s.pc i with
  | idle =>
      rw [hpc] at ha
      cases ha
  | counted x =>
      rw [hpc] at h ha
      simp only [Doubles.advance] at ha
      split_ifs at ha with hb
      · cases ha
        refine ⟨?_, fun _ _ => rfl, rfl⟩
        rw [PC.unbalanced, if_pos hb, List.append_nil]
        exact h
      · cases ha
        refine ⟨?_, fun _ _ => rfl, rfl⟩
        rw [PC.unbalanced, if_neg hb]
        exact h.miss
  | peaked x l =>
      rw [hpc] at h ha
      cases ha
      refine ⟨?_, fun j hj => Tables.total_modTotal_of_ne _ _ hj, rfl⟩
      rw [unbalanced_peaked, List.append_nil, Tables.totalScope, Tables.total_modTotal_self]
      exact h.add
  | totaled x l =>
      rw [hpc] at h ha
      rw [unbalanced_totaled, List.append_nil]
      simp only [Doubles.advance] at ha
      split_ifs at ha <;> cases ha <;> exact ⟨h, fun _ _ => rfl, rfl⟩
  | raised x l | balanced x =>
      rw [hpc] at h ha
      cases ha
      refine ⟨?_, fun _ _ => rfl, rfl⟩
      simp only [unbalanced_raised, unbalanced_balanced, List.append_nil]
      exact h

/-- Nothing but thread `i` is changed. -/
structure Apart (i : ℕ) (s t : State) : Prop where
  total : ∀ j ≠ i, t.tables.total j = s.tables.total j
  pc : ∀ j ≠ i, t.pc j = s.pc j
  done : ∀ j ≠ i, t.done j = s.done j
  missed : ∀ j ≠ i, t.missed j = s.missed j
  nTotal : t.tables.nTotal = s.tables.nTotal

/-- A scope of thread `i` leaves the totals of the others. -/
theorem Accounts.of_apart (hi : Accounts s) (ha : Apart i s t) (hlt : i < s.tables.nTotal)
    (hown : Tallied (t.tables.total i) (t.done i) (t.missed i) (t.pc i).pending) : Accounts t := by
  refine ⟨fun j => ?_, fun j hj => ?_⟩
  · by_cases hj : j = i
    · rw [hj]
      exact hown
    · rw [ha.total j hj, ha.done j hj, ha.missed j hj, ha.pc j hj]
      exact hi.tallied j
  · rw [ha.nTotal] at hj
    have hne : j ≠ i := (Nat.lt_of_lt_of_le hlt hj).ne'
    rw [ha.pc j hne, ha.done j hne, ha.missed j hne]
    exact hi.fresh j hj

/-- A thread in a round is one that has been started. -/
theorem Accounts.lt_of_advance {u : Tables} {p : PC} (hi : Accounts s)
    (ha : advance cfg i s.tables (s.pc i) = some (u, p)) : i < s.tables.nTotal := by
  by_contra hle
  rw [(hi.fresh i (Nat.le_of_not_lt hle)).1] at ha
  cases ha

/-- **One scope** keeps the totals. -/
theorem Accounts.step (hi : Accounts s) (h : step cfg s a = some t) : Accounts t := by
  cases a with
  | init =>
      cases hpc : s.init with
      | idle =>
          simp only [Doubles.step, hpc] at h
          cases h
          exact ⟨hi.tallied, hi.fresh⟩
      | pushed =>
          simp only [Doubles.step, hpc] at h
          cases h
          refine ⟨fun j => ?_, fun j hj => hi.fresh j (Nat.le_of_succ_le hj)⟩
          dsimp only [Tables.initTotal]
          by_cases hj : j = s.tables.nTotal
          · -- the new thread has processed nothing
            obtain ⟨hp, hd, hm⟩ := hi.fresh j hj.ge
            rw [hp, hd, hm, hj, Function.update_self]
            exact tallied_nil
          · rw [Function.update_of_ne hj]
            exact hi.tallied j
  | begin i x =>
      obtain ⟨hpc, hlt, rfl⟩ := step_begin h
      refine hi.of_apart ⟨fun _ hj => Function.update_of_ne hj ..,
        fun _ hj => Function.update_of_ne hj .., fun _ hj => Function.update_of_ne hj ..,
        fun _ _ => rfl, rfl⟩ hlt ?_
      have hold := hi.tallied i
      rw [hpc] at hold
      dsimp only [Tables.countScope]
      rw [Tables.total_modTotal_self, Function.update_self, Function.update_self]
      exact hold.begin x.data
  | next i =>
      obtain ⟨u, p, ha, rfl⟩ := step_next h
      obtain ⟨hown, hother, hn⟩ := (hi.tallied i).advance ha
      refine hi.of_apart ⟨hother, fun _ hj => Function.update_of_ne hj .., fun _ _ => rfl,
        fun _ hj => Function.update_of_ne hj .., hn⟩ (hi.lt_of_advance ha) ?_
      dsimp only
      rw [Function.update_self, Function.update_self]
      exact hown
  | period =>
      cases step_period h
      -- a period leaves the totals alone
      obtain ⟨ht, hn⟩ := period_total cfg s.tables
      refine ⟨fun j => ?_, fun j hj => hi.fresh j (hn ▸ hj)⟩
      dsimp only
      rw [ht]
      exact hi.tallied j

theorem accounts_reachable (h : Reachable (step cfg) {} s) : Accounts s :=
  h.invariant accounts_start fun _ _ _ => Accounts.step

/-! ### Between hand-offs -/

/-- The totals of thread `i` are those of the buffers it has processed. -/
structure Accounted (s : State) (i : ℕ) : Prop where
  buffers : (s.tables.total i).totalBuffersProcessed = (s.done i).length
  fcalls : (s.tables.total i).totalFcalls = sumOf (·.fcallsExec) (s.done i) % 2 ^ 64
  instructions : (s.tables.total i).totalInstructions = sumOf (·.insExec) (s.done i) % 2 ^ 64
  memIns : (s.tables.total i).totalMemIns = sumOf (·.memInsExec) (s.done i) % 2 ^ 64

/-- The buffers that thread `i` has processed in rounds that were not balanced add nothing, and
`total_buffers_processed` is still exact. -/
structure NothingMissed (s : State) (i : ℕ) : Prop where
  buffers : (s.done i).length ≤ 2 ^ 53
  fcalls : sumOf (·.fcallsExec) (s.missed i) % 2 ^ 64 = 0
  instructions : sumOf (·.insExec) (s.missed i) % 2 ^ 64 = 0
  memIns : sumOf (·.memInsExec) (s.missed i) % 2 ^ 64 = 0

/-- **The totals account for every processed buffer** of a thread between hand-offs exactly when
those of its buffers add nothing whose round was not balanced. -/
theorem totals_account_iff (cfg : Config) {s : State} (h : Reachable (step cfg) {} s) {i : ℕ}
    (hpc : s.pc i = .idle) : Accounted s i ↔ NothingMissed s i := by
  have ht := (accounts_reachable h).tallied i
  rw [hpc] at ht
  have hb : (s.tables.total i).totalBuffersProcessed = (s.done i).length ↔
      (s.done i).length ≤ 2 ^ 53 := by
    rw [ht.buffers]
    exact min_eq_left_iff
  constructor
  · intro ha
    exact ⟨hb.mp ha.buffers, ht.fcalls.eq_iff.mp ha.fcalls,
      ht.instructions.eq_iff.mp ha.instructions, ht.memIns.eq_iff.mp ha.memIns⟩
  · intro hm
    exact ⟨hb.mpr hm.buffers, ht.fcalls.eq_iff.mpr hm.fcalls,
      ht.instructions.eq_iff.mpr hm.instructions, ht.memIns.eq_iff.mpr hm.memIns⟩

/-- A buffer of five instructions, two of them of memory. -/
def fiveIns : Sample where
  data := { dataSize := 48, insExec := 5, memInsExec := 2 }
  counts := ⟨10, 10, 10, 10, false⟩

/-- One thread, which processes a buffer and is idle again. -/
def alone : List Action := [.init, .init, .begin 0 fiveIns, .next 0, .next 0]

theorem totals_account_iff_alone :
    ∃ s, exec (step {}) {} alone = some s ∧ s.pc 0 = .idle ∧
      (Accounted s 0 ↔ NothingMissed s 0) := by
  have hrun : exec (step {}) {} alone = some _ := rfl
  exact ⟨_, hrun, rfl, totals_account_iff {} ⟨alone, hrun⟩ rfl⟩

/-- The buffer is counted, and its instructions are not. -/
theorem alone_not_accounted :
    ∃ s, exec (step {}) {} alone = some s ∧ s.pc 0 = .idle ∧ s.done 0 = [fiveIns.data] ∧
      (s.tables.total 0).totalBuffersProcessed = 1 ∧ ¬ Accounted s 0 := by
  refine ⟨_, rfl, rfl, rfl, rfl, fun ha => ?_⟩
  cases ha.instructions

end BulletTime.Balance.Doubles
