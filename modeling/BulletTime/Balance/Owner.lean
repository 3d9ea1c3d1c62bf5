import BulletTime.Balance.Cover
import BulletTime.Balance.Indices

/-!
# Balance — Owner

Whose the peak is.  The scopes again, with the snapshot a thread has of `max_ratio_owner` once it
has left the balancing's last look at the peak, and two histories that no step reads: who has
counted a buffer, and who has added to `n_work`.

* `Owners`: the scopes with the snapshots and the histories; `Owners.tables` forgets the numbers.
* `periodLoop_owner`: the loop of a period, as the one over the lengths.
* `step_tables`: a scope of numbers is a run over the lengths.
* `owner_is_real`: a peak above zero, and the owner of every injection, is a started thread that has
  counted a buffer.
-/

namespace BulletTime.Balance
open Transition RunningMax

structure Owners extends Scoped where
  /-- `ratio_owner_snapshot` of each thread. -/
  snapshot : ℕ → ℤ := fun _ => -1
  counted : ℕ → Bool := fun _ => false
  worked : ℕ → Bool := fun _ => false

namespace Owners

/-- `ratio_owner_snapshot` once a thread has come from `p` to `q`, with the tables `t`. -/
def ratioOwnerSnapshot (t : Shared) (old : ℤ) : PC → PC → ℤ
  | .counted _, .peaked _ l => l.ratioOwnerSnapshot
  | .totaled _ l, .raised _ _ r =>
      if r > l.maxRatioSnapshot then t.maxRatioOwner else l.ratioOwnerSnapshot
  | _, _ => old

/-- The scope from `p` to `q` is the one that adds to `n_work`. -/
def addsWork : PC → PC → Bool
  | .counted _, .peaked _ _ => true
  | _, _ => false

/-- A thread has taken the scope that leads to `t`. -/
def taken (s : Owners) (i : ℕ) (t : Scoped) : Owners :=
  { s with
    toScoped := t
    snapshot := Function.update s.snapshot i
      (ratioOwnerSnapshot t.shared (s.snapshot i) (s.pc i) (t.pc i))
    worked :=
      if addsWork (s.pc i) (t.pc i) then Function.update s.worked i true else s.worked }

/-- One scope. -/
def step (cfg : Config) (s : Owners) (a : ScopeAction) : Option Owners :=
  (scopeStep cfg s.toScoped a).map fun t =>
    match a with
    | .begin i _ => { s with toScoped := t, counted := Function.update s.counted i true }
    | .next i => s.taken i t
    | .init | .period => { s with toScoped := t }

/-- The point of a thread with the snapshot `owner`. -/
def pointOf (owner : ℤ) : PC → Point
  | .idle => .idle
  | .counted _ => .counted
  | .peaked _ l => .peaked ⟨decide (0 < l.maxRatioSnapshot), l.ratioOwnerSnapshot⟩
  | .totaled _ l => .totaled ⟨decide (0 < l.maxRatioSnapshot), l.ratioOwnerSnapshot⟩
  | .raised _ maxRatioSnapshot _ => .raised ⟨decide (0 < maxRatioSnapshot), owner⟩
  | .slept _ _ => .slept
  | .injected _ _ => .injected
  | .balanced _ => .balanced

/-- The lengths, the peak and the points. -/
def tables (s : Owners) : Tables where
  nInsert := s.shared.nInsert
  nPeak := s.shared.nPeak
  nTotal := s.shared.nTotal
  max := ⟨decide (0 < s.shared.maxBufferWorkRatio), s.shared.maxRatioOwner⟩
  counted := s.counted
  worked := s.worked
  point i := pointOf (s.snapshot i) (s.pc i)
  init := s.init

/-- What the numbers keep: the peak is not below zero, and a thread that has added no work has what
it had at the last period. -/
structure Tracks (s : Owners) : Prop where
  nonneg : 0 ≤ s.shared.maxBufferWorkRatio
  idle : ∀ i, s.worked i = false → (s.shared.peak i).idle = true

/-! ### The loop of a period -/

section Loop
variable {s : Owners}

theorem visit_maxRatioOwner (acc : PeriodAcc) (i : ℕ) (e : PeakEntry) (fcalls : ℕ) :
    (acc.visit i e fcalls).maxRatioOwner =
      (e.countedRatio fcalls).elim acc.maxRatioOwner
        (fun r => if r > acc.newMaxRatio then (i : ℤ) else acc.maxRatioOwner) := by
  have hslow : ∀ a : PeriodAcc,
      (if e.nGenTime > 0 ∧ e.slowdown > a.maxSlowdown then { a with maxSlowdown := e.slowdown }
        else a).maxRatioOwner = a.maxRatioOwner := by
    intro a
    split_ifs <;> rfl
  have hvisit : ∀ r, (acc.visitRatio i e r).maxRatioOwner =
      if r > acc.newMaxRatio then (i : ℤ) else acc.maxRatioOwner := by
    intro r
    unfold PeriodAcc.visitRatio
    dsimp only
    split_ifs <;> rfl
  unfold PeriodAcc.visit PeakEntry.countedRatio
  by_cases hi : e.idle = true
  · rw [if_pos hi, if_pos (Or.inl hi)]
    rfl
  · rw [if_neg hi, hslow]
    cases hr : e.ratio with
    | none => split_ifs <;> rfl
    | some r =>
        by_cases hf : fcalls = 0
        · rw [if_pos (Or.inr hf), hf]
          rfl
        · have hskip : skipOverheadBalancing e.totalWork (some r) fcalls ≠ true := by
            simpa [skipOverheadBalancing] using hf
          rw [if_neg (not_or.mpr ⟨hi, hf⟩)]
          dsimp only
          rw [if_neg hskip, hvisit]
          rfl

/-- The threads whose ratio raises `new_max_ratio`. -/
def tops (s : Shared) (i : ℕ) : Bool :=
  ((s.peak i).countedRatio (s.total i).totalFcalls).elim false
    fun r => decide (r > (periodLoop s i).2.newMaxRatio)

/-- The loop at one thread, by the ratio it counts there. -/
theorem peak_visit {m : ℚ} (hm : 0 ≤ m) (owner : ℤ) (i : ℕ) {busy : Bool} {o : Option ℚ}
    (hbusy : ∀ r ∈ o, busy = true) :
    (if busy && o.elim false (fun r => decide (r > m)) then ⟨true, i⟩
      else ⟨decide (0 < m), owner⟩ : Peak) =
      ⟨decide (0 < o.elim m (max m)), o.elim owner fun r => if r > m then (i : ℤ) else owner⟩ := by
  cases o with
  | none =>
      rw [Option.elim_none, Bool.and_false]
      rfl
  | some r =>
      rw [hbusy r rfl, Bool.true_and]
      simp only [Option.elim_some, decide_eq_true_eq]
      split_ifs with hr
      · simp only [max_eq_right hr.le, lt_of_le_of_lt hm hr, decide_true]
      · simp only [max_eq_left (not_lt.mp hr)]

/-- **The loop of a period** leaves the owner of the last ratio that raised the peak. -/
theorem periodLoop_owner (h : Tracks s) (n : ℕ) :
    s.tables.ownerLoop (fun i => !(s.shared.peak i).idle) (tops s.shared) n =
      ⟨decide (0 < (periodLoop s.shared n).2.newMaxRatio),
        (periodLoop s.shared n).2.maxRatioOwner⟩ := by
  induction n with
  | zero => rfl
  | succ n ih =>
      have hnonneg : 0 ≤ (periodLoop s.shared n).2.newMaxRatio := by
        rw [periodLoop_newMaxRatio]
        exact start_le_runningMax _ _
      have hbusy : ∀ r ∈ (s.shared.peak n).countedRatio (s.shared.total n).totalFcalls,
          s.tables.busyAt (fun i => !(s.shared.peak i).idle) n = true := by
        intro r hr
        obtain ⟨hcounted, -⟩ := Option.ite_none_left_eq_some.mp hr
        have hidle : (s.shared.peak n).idle = false :=
          Bool.eq_false_iff.mpr fun hi => hcounted (Or.inl hi)
        have hworked : s.worked n = true := by
          by_contra hw
          rw [h.idle n (Bool.eq_false_iff.mpr hw)] at hidle
          cases hidle
        rw [Tables.busyAt, hidle]
        exact (Bool.and_true _).trans hworked
      rw [Tables.ownerLoop] at ih
      rw [Tables.ownerLoop, List.range_succ, List.foldl_append, ih, periodLoop_acc,
        visit_newMaxRatio, visit_maxRatioOwner]
      exact peak_visit hnonneg _ n hbusy

end Loop

/-! ### One scope -/

section Step
variable {cfg : Config} {s t : Owners} {i : ℕ}

theorem idle_of_sameCounters {u v : Shared} (h : SameCounters u v) (j : ℕ) :
    (v.peak j).idle = (u.peak j).idle := by
  obtain ⟨a, b, hp⟩ := h.peak j
  rw [hp]
  rfl

/-- Only the scope that adds to `n_work` makes a thread busy. -/
theorem advance_idle {u v : Shared} {p q : PC} (ha : advance cfg i u p = some (v, q)) {j : ℕ}
    (hj : j ≠ i ∨ addsWork p q = false) : (v.peak j).idle = (u.peak j).idle := by
  cases advance_cases ha with
  | peak hb hw =>
      rcases hj with hj | hj
      · rw [peakScope_of_ne _ _ _ _ hj]
      · cases hj
  | unbalanced => rfl
  | total => rfl
  | noRatio => rfl
  | skip => rfl
  | raise => rfl
  | within => rfl
  | write => rfl
  | noExtra => rfl
  | inject => exact idle_of_sameCounters (.injectScope i _ u) j
  | dummy => rfl
  | data => rfl

theorem idle_decay {e : PeakEntry} (h : e.idle = true) : e.decay.idle = true := by
  rw [PeakEntry.decay, PeakEntry.scaled, if_pos h]
  rfl

theorem Tracks.next (h : Tracks s) (hs : step cfg s (.next i) = some t) : Tracks t := by
  obtain ⟨u, hu, rfl⟩ := Option.map_eq_some_iff.mp hs
  obtain ⟨v, q, ha, rfl⟩ := scopeStep_next hu
  have hpc : Function.update s.pc i q i = q := Function.update_self _ _ _
  refine ⟨h.nonneg.trans ((advance_scope ha).keeps (Nat.succ_ne_self i)).maxRatio, fun j hj => ?_⟩
  simp only [taken, hpc] at hj
  refine (advance_idle ha (j := j) ?_).trans (h.idle j ?_)
  · by_cases hji : j = i
    · right
      by_contra hadd
      rw [Bool.not_eq_false] at hadd
      rw [if_pos hadd, hji, Function.update_self] at hj
      cases hj
    · exact .inl hji
  · split_ifs at hj
    · by_cases hji : j = i
      · rw [hji, Function.update_self] at hj
        cases hj
      · rwa [Function.update_of_ne hji] at hj
    · exact hj

theorem Tracks.step {a : ScopeAction} (h : Tracks s) (hs : step cfg s a = some t) : Tracks t := by
  cases a with
  | init =>
      obtain ⟨u, hu, rfl⟩ := Option.map_eq_some_iff.mp hs
      simp only [scopeStep] at hu
      split at hu
      · cases hu
        exact ⟨h.nonneg, h.idle⟩
      · cases hu
        refine ⟨h.nonneg, fun j hj => ?_⟩
        by_cases hn : j = s.shared.nPeak
        · subst hn
          simp only [Shared.initPeak, Function.update_self]
          rfl
        · simp only [Shared.initPeak, Function.update_of_ne hn]
          exact h.idle j hj
      · cases hu
        exact ⟨h.nonneg, h.idle⟩
  | begin i x =>
      obtain ⟨u, hu, rfl⟩ := Option.map_eq_some_iff.mp hs
      obtain ⟨-, -, rfl⟩ := scopeStep_begin hu
      exact ⟨h.nonneg, h.idle⟩
  | next i => exact h.next hs
  | period =>
      obtain ⟨u, hu, rfl⟩ := Option.map_eq_some_iff.mp hs
      obtain rfl := scopeStep_period hu
      refine ⟨?_, fun j hj => ?_⟩
      · simp only [period_max]
        split_ifs
        · exact start_le_runningMax _ _
        · exact h.nonneg
      · simp only [period_peak]
        split_ifs
        · exact idle_decay (h.idle j hj)
        · exact h.idle j hj

/-! ### Over the lengths -/

/-- One thread moves on, with a snapshot. -/
theorem point_update (f : ℕ → ℤ) (pc : ℕ → PC) (o : ℤ) (q : PC) :
    (fun j => pointOf (Function.update f i o j) (Function.update pc i q j)) =
      Function.update (fun j => pointOf (f j) (pc j)) i (pointOf o q) := by
  ext j
  by_cases hj : j = i
  · subst hj
    simp only [Function.update_self]
  · simp only [Function.update_of_ne hj]

/-- `v` has the lengths of `u`. -/
structure SameSizes (u v : Shared) : Prop where
  nInsert : v.nInsert = u.nInsert
  nPeak : v.nPeak = u.nPeak
  nTotal : v.nTotal = u.nTotal

theorem sizes_of_scope {u v : Shared} (h : Scope cfg i u v) : SameSizes u v := by
  cases h <;> exact ⟨rfl, rfl, rfl⟩

/-- A scope of a round over the lengths, from the scope of numbers. -/
theorem tables_taken {v : Shared} {q : PC} (h : SameSizes s.shared v) :
    (s.taken i { s.toScoped with shared := v, pc := Function.update s.pc i q }).tables =
      { s.tables with
        max := ⟨decide (0 < v.maxBufferWorkRatio), v.maxRatioOwner⟩
        worked := if addsWork (s.pc i) q then Function.update s.worked i true else s.worked
        point := Function.update s.tables.point i
          (pointOf (ratioOwnerSnapshot v (s.snapshot i) (s.pc i) q) q) } := by
  have hpc : Function.update s.pc i q i = q := Function.update_self _ _ _
  simp only [taken, tables, hpc, h.nInsert, h.nPeak, h.nTotal, point_update]

/-- A scope of a round that is one over the lengths. -/
theorem step_taken {v : Shared} {q : PC} {b : Branches} (h : SameSizes s.shared v)
    (ha : Tables.advance cfg i s.tables b (pointOf (s.snapshot i) (s.pc i)) =
      some
        ({ s.tables with
          max := ⟨decide (0 < v.maxBufferWorkRatio), v.maxRatioOwner⟩
          worked := if addsWork (s.pc i) q then Function.update s.worked i true else s.worked },
        pointOf (ratioOwnerSnapshot v (s.snapshot i) (s.pc i) q) q)) :
    Reachable (Tables.step cfg) s.tables
      (s.taken i { s.toScoped with shared := v, pc := Function.update s.pc i q }).tables := by
  refine (Reachable.refl _).next (a := .next i b) ?_
  rw [tables_taken h]
  have hpoint : s.tables.point i = pointOf (s.snapshot i) (s.pc i) := rfl
  rw [Tables.step, hpoint, ha]
  rfl

/-- The peak after the exclusive scope. -/
theorem raiseScope_peak (h : Tracks s) (r : ℚ) :
    (⟨decide (0 < (raiseScope i s.shared r).maxBufferWorkRatio),
      (raiseScope i s.shared r).maxRatioOwner⟩ : Peak) =
      if decide (r > s.shared.maxBufferWorkRatio) then ⟨true, i⟩ else s.tables.max := by
  by_cases hr : r > s.shared.maxBufferWorkRatio
  · simp only [raiseScope, hr, lt_of_le_of_lt h.nonneg hr, decide_true, if_true]
  · simp only [raiseScope, hr, decide_false, Bool.false_eq_true, if_false]
    rfl

/-- What is injected is measured against a snapshot above zero. -/
theorem pos_of_extraBuffers {m r e : ℚ} (h : extraBuffers m r = some e) : 0 < m := by
  obtain ⟨hgt, h'⟩ := Option.ite_none_right_eq_some.mp h
  obtain ⟨hextra, -⟩ := Option.ite_none_right_eq_some.mp h'
  by_contra hm
  have hr : r < 0 := lt_of_lt_of_le hgt (not_lt.mp hm)
  have hle : m / r ≤ 1 := (div_le_one_of_neg hr).mpr hgt.le
  linarith

/-- `WriteDummy` and its statistics, which are two scopes over the lengths. -/
theorem writeDummy_tables {x : Sample} {snap r extra : ℚ} (hp : s.pc i = .raised x snap r)
    (he : extraBuffers snap r = some extra) :
    Reachable (Tables.step cfg) s.tables
      (s.taken i { s.toScoped with
        shared := writeDummy i x s.shared extra
        pc := Function.update s.pc i (.slept x extra) }).tables := by
  have hwrite : Tables.step cfg s.tables (.next i { extra := true }) =
      some { s.tables with point := Function.update s.tables.point i .written } := by
    have hpoint : s.tables.point i = .raised ⟨decide (0 < snap), s.snapshot i⟩ := by
      simp only [tables, hp, pointOf]
    simp only [Tables.step, hpoint, Tables.advance, pos_of_extraBuffers he]
    rfl
  refine ((Reachable.refl _).next hwrite).next (a := .next i {}) ?_
  have hsize : SameSizes s.shared (writeDummy i x s.shared extra) := ⟨rfl, rfl, rfl⟩
  rw [tables_taken hsize, hp]
  simp only [Tables.step, Function.update_self, Tables.advance, Option.map_some,
    Function.update_idem]
  rfl

/-- The exclusive scope of a ratio above the snapshot, which may find the peak raised meanwhile. -/
theorem raise_tables (h : Tracks s) {x : Sample} {l : Locals} {r : ℚ}
    (hp : s.pc i = .totaled x l) (hgt : r > l.maxRatioSnapshot) :
    Reachable (Tables.step cfg) s.tables
      (s.taken i { s.toScoped with
        shared := raiseScope i s.shared r
        pc := Function.update s.pc i
          (.raised x (raiseScope i s.shared r).maxBufferWorkRatio r) }).tables := by
  have hsize : SameSizes s.shared (raiseScope i s.shared r) := ⟨rfl, rfl, rfl⟩
  obtain ⟨raises, hraises⟩ :
      ∃ raises, raises = decide (r > s.shared.maxBufferWorkRatio) := ⟨_, rfl⟩
  refine step_taken (b := { above := true, raises := raises }) hsize ?_
  rw [hp]
  have hpeak := raiseScope_peak (i := i) h r
  rw [← hraises] at hpeak
  simp only [ratioOwnerSnapshot, if_pos hgt, pointOf, hpeak]
  rfl

/-- **A scope of a round** is a run over the lengths. -/
theorem next_tables (h : Tracks s) (hs : step cfg s (.next i) = some t) :
    Reachable (Tables.step cfg) s.tables t.tables := by
  obtain ⟨u, hu, rfl⟩ := Option.map_eq_some_iff.mp hs
  obtain ⟨v, q, ha, rfl⟩ := scopeStep_next hu
  have hsize := sizes_of_scope (advance_scope ha)
  generalize hp : s.pc i = p at ha
  cases advance_cases ha with
  | peak hb hw =>
      refine step_taken (b := {}) hsize ?_
      rw [hp]
      exact if_pos hb
  | unbalanced hb =>
      refine step_taken (b := {}) hsize ?_
      rw [hp]
      exact if_neg hb
  | noRatio hr =>
      refine step_taken (b := { skip := true }) hsize ?_
      rw [hp]
      rfl
  | skip hr hskip =>
      refine step_taken (b := { skip := true }) hsize ?_
      rw [hp]
      rfl
  | raise hr hskip hgt => exact raise_tables h hp hgt
  | within hr hskip hle =>
      refine step_taken (b := {}) hsize ?_
      rw [hp]
      simp only [ratioOwnerSnapshot, if_neg hle]
      rfl
  -- `WriteDummy`, and its statistics.
  | write he => exact writeDummy_tables hp he
  | noExtra he =>
      refine step_taken (b := {}) hsize ?_
      rw [hp]
      simp only [pointOf, Tables.advance, Bool.and_false]
      rfl
  -- The scopes that are one over the lengths, whatever they read.
  | total | inject | dummy | data =>
      refine step_taken (b := {}) hsize ?_
      rw [hp]
      rfl

/-- **A scope of numbers** is a run over the lengths. -/
theorem step_tables {a : ScopeAction} (h : Tracks s) (hs : step cfg s a = some t) :
    Reachable (Tables.step cfg) s.tables t.tables := by
  cases a with
  | init =>
      obtain ⟨u, hu, rfl⟩ := Option.map_eq_some_iff.mp hs
      refine (Reachable.refl _).next (a := .init) ?_
      have hinit : s.tables.init = s.init := rfl
      cases hi : s.init with
      | done | inserted | pushed =>
          simp only [scopeStep, hi] at hu
          cases hu
          simp only [Tables.step, hinit, hi]
          rfl
  | begin i x =>
      obtain ⟨u, hu, rfl⟩ := Option.map_eq_some_iff.mp hs
      obtain ⟨hpc, hi, rfl⟩ := scopeStep_begin hu
      refine (Reachable.refl _).next (a := .begin i) ?_
      have hpoint : s.tables.point i = .idle := by simp only [tables, hpc, pointOf]
      have hmoved := point_update (i := i) s.snapshot s.pc (s.snapshot i) (.counted x)
      rw [Function.update_eq_self] at hmoved
      rw [Tables.step, if_pos ⟨hpoint, hi⟩]
      simp only [tables, hmoved]
      rfl
  | next i => exact next_tables h hs
  | period =>
      obtain ⟨u, hu, rfl⟩ := Option.map_eq_some_iff.mp hs
      obtain ⟨hctl, ⟨⟩⟩ := Option.ite_none_right_eq_some.mp hu
      refine (Reachable.refl _).next
        (a := .period (fun i => !(s.shared.peak i).idle) (tops s.shared)) ?_
      have hloop := periodLoop_owner h s.shared.nPeak
      have hn : s.tables.nPeak = s.shared.nPeak := rfl
      simp only [Tables.step, if_pos hctl, hn, hloop]
      by_cases ho : cfg.overheadBalancing = true
      · simp only [period, if_pos ho]
        rfl
      · simp only [period, if_neg ho]
        rfl

end Step

/-! ### Runs -/

section Runs
variable {cfg : Config}

/-- **The scopes refine the lengths.** -/
theorem reachable_tables {s : Owners} (h : Reachable (step cfg) {} s) :
    Reachable (Tables.step cfg) {} s.tables := by
  obtain ⟨as, hs⟩ := h
  exact simulates_run (f := tables) (I := Tracks) (C := fun _ _ => True) ⟨le_rfl, fun _ _ => rfl⟩
    (fun _ _ _ h _ ht => h.step ht) (fun _ _ _ h _ ht => step_tables h ht)
    everyStep_true hs

/-- The thread is started and has counted a buffer in `real_writes`. -/
def Real (s : Owners) (owner : ℤ) : Prop :=
  ∃ k : ℕ, owner = k ∧ k < s.shared.nTotal ∧ s.counted k = true

/-- A peak above zero is a real thread's, and so is the `ratio_owner` of every call of `WriteDummy`
that is about to be made. -/
def OwnerIsReal (s : Owners) : Prop :=
  (0 < s.shared.maxBufferWorkRatio → s.Real s.shared.maxRatioOwner) ∧
    ∀ i x snap r extra, s.pc i = .raised x snap r → extraBuffers snap r = some extra →
      s.Real (s.snapshot i)

variable (cfg) in
/-- **The owner of the peak is always a real thread**, in every state of every run, and so is the
owner every injection is measured by. -/
theorem owner_is_real (as : List ScopeAction) :
    EveryState (step cfg) {} as OwnerIsReal := by
  intro bs cs s _ hs
  have hplaced : Tables.Placed s.tables := (reachable_tables ⟨bs, hs⟩).invariant Tables.placed_init
    fun _ _ _ h ht => h.step ht
  have hreal : ∀ m : Peak, s.tables.Owned m → m.positive = true → s.Real m.owner := by
    intro m hm hpos
    obtain ⟨k, hk, hc⟩ := hm hpos
    exact ⟨k, hk, hplaced.counted k hc, hc⟩
  refine ⟨fun hpos => ?_, fun i x snap r extra hpc he => ?_⟩
  · exact hreal _ hplaced.owned (decide_eq_true hpos)
  · have hat := hplaced.ownedAt i
    have hpoint : s.tables.point i = .raised ⟨decide (0 < snap), s.snapshot i⟩ := by
      simp only [tables, hpc, pointOf]
    rw [hpoint] at hat
    exact hreal _ hat.2 (decide_eq_true (pos_of_extraBuffers he))

end Runs

end Owners

end BulletTime.Balance
