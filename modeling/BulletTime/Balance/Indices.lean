import BulletTime.Balance.Scopes

/-!
# Balance — Indices

Which entries each lock scope indexes, over the lengths of the three groups of vectors.  The numbers
are left out: where a scope branches on them the action says how the comparisons come out, and of
the peak there is only whether it is above zero.

* `Tables`: the lengths, the peak with its owner, and where everyone is.
* `accesses`: the indices a scope uses.
* `step`: a scope of `InitThreadData`, of a round, of `LogThreadStats`, or a period.
* `Placed`: the lengths in every state of `InitThreadData`; a peak above zero, in the globals as in
  a snapshot however old, is of a thread that has counted a buffer.
* `indices_in_bounds_iff`: every index is in bounds exactly where no period falls between the peak
  scope and the total scope of a second or later thread.
-/

namespace BulletTime.Balance
open Transition

/-- The vectors that grow together, by the lock they grow under. -/
inductive Group where
  | insertion
  | peak
  | total
  deriving DecidableEq

/-- An index into the vectors of a group. -/
structure Access where
  group : Group
  index : ℤ
  deriving DecidableEq

/-- Whether `max_buffer_work_ratio` is above zero, and `max_ratio_owner`; or what a thread has read
of them. -/
structure Peak where
  positive : Bool := false
  owner : ℤ := -1
  deriving DecidableEq

/-- Where a thread is: between buffers, in its round, or in `LogThreadStats`. -/
inductive Point where
  | idle
  | counted
  | peaked (snap : Peak)
  | totaled (snap : Peak)
  | raised (snap : Peak)
  | written
  | slept
  | injected
  | balanced
  | logged
  | ended
  deriving DecidableEq

structure Tables where
  nInsert : ℕ := 0
  nPeak : ℕ := 0
  nTotal : ℕ := 0
  max : Peak := {}
  /-- The threads with a buffer in `real_writes`. -/
  counted : ℕ → Bool := fun _ => false
  /-- The threads that have added to `n_work`. -/
  worked : ℕ → Bool := fun _ => false
  point : ℕ → Point := fun _ => .idle
  init : InitPC := .done

/-- How the comparisons of a scope come out. -/
structure Branches where
  /-- `skip_overhead_balancing`. -/
  skip : Bool := false
  /-- `buf_work_ratio > max_ratio_snapshot`. -/
  above : Bool := false
  /-- `buf_work_ratio > max_buffer_work_ratio`. -/
  raises : Bool := false
  /-- `max_ratio_snapshot > buf_work_ratio`, by more than a quarter of a buffer. -/
  extra : Bool := false

/-- A scope of `InitThreadData`, of a round, of `LogThreadStats`, or of a period: at which threads
`n_work` differs from `last_work`, and at which the ratio is above `new_max_ratio`. -/
inductive TableAction where
  | init
  | begin (i : ℕ)
  | next (i : ℕ) (b : Branches)
  | log (i : ℕ)
  | period (busy tops : ℕ → Bool)

namespace Tables

def size (s : Tables) : Group → ℕ
  | .insertion => s.nInsert
  | .peak => s.nPeak
  | .total => s.nTotal

/-- The balancing of `Listen` is entered. -/
def Balanced (cfg : Config) (s : Tables) : Prop := cfg.overheadBalancing = true ∧ s.nPeak > 1

instance (cfg : Config) (s : Tables) : Decidable (Balanced cfg s) :=
  inferInstanceAs (Decidable (_ ∧ _))

/-- The scope a thread enters next. -/
def advance (cfg : Config) (i : ℕ) (s : Tables) (b : Branches) : Point → Option (Tables × Point)
  | .idle | .ended => none
  | .counted =>
      if Balanced cfg s then
        some ({ s with worked := Function.update s.worked i true }, .peaked s.max)
      else some (s, .balanced)
  | .peaked snap => some (s, .totaled snap)
  | .totaled snap =>
      if b.skip then some (s, .balanced)
      else if b.above then
        -- The peak is never below zero, so a ratio above it is above zero.
        let max := if b.raises then ⟨true, i⟩ else s.max
        some ({ s with max := max }, .raised max)
      else some (s, .raised snap)
  | .raised snap =>
      -- Nor is zero above a ratio by a quarter of a buffer: it is `0 / buf_work_ratio - 1`.
      if snap.positive && b.extra then some (s, .written) else some (s, .balanced)
  | .written => some (s, .slept)
  | .slept => some (s, .injected)
  | .injected => some (s, .balanced)
  | .balanced => some (s, .idle)
  | .logged => some (s, .ended)

/-- The indices of the scope a thread enters next. -/
def advanceAccesses (cfg : Config) (i : ℕ) (s : Tables) (b : Branches) : Point → List Access
  | .idle | .ended => []
  | .counted => if Balanced cfg s then [⟨.peak, i⟩] else []
  | .peaked _ => [⟨.total, i⟩]
  | .totaled _ => if b.skip = false ∧ b.above = true then [⟨.peak, i⟩] else []
  -- `WriteDummy` with its `ratio_owner`, and after the sleep its statistics.
  | .raised snap => if snap.positive && b.extra then [⟨.total, snap.owner⟩, ⟨.total, i⟩] else []
  | .written => [⟨.total, i⟩]
  | .slept => [⟨.peak, i⟩]
  | .injected => [⟨.total, i⟩]
  | .balanced => [⟨.insertion, i⟩]
  -- `total_work` is read under `total_lock`.
  | .logged => [⟨.total, i⟩, ⟨.peak, i⟩]

/-- The threads a period takes for busy: one that has added no work has zero in `n_work` and in
`last_work`. -/
def busyAt (s : Tables) (busy : ℕ → Bool) (i : ℕ) : Bool := s.worked i && busy i

/-- The loop of a period over the first `n` threads. -/
def ownerLoop (s : Tables) (busy tops : ℕ → Bool) (n : ℕ) : Peak :=
  (List.range n).foldl (fun p i => if s.busyAt busy i && tops i then ⟨true, i⟩ else p)
    { owner := s.max.owner }

/-- The indices of a period: its loop, the sum over the data table, and the shadow log. -/
def periodAccesses (s : Tables) (busy : ℕ → Bool) : List Access :=
  ((List.range s.nPeak).flatMap fun i =>
      ⟨.peak, i⟩ :: if s.busyAt busy i then [⟨.total, i⟩] else []) ++
    ((List.range s.nInsert).map fun i => ⟨.insertion, i⟩) ++
    if s.nPeak > 1 then (List.range s.nPeak).flatMap fun i => [⟨.peak, i⟩, ⟨.total, i⟩] else []

/-- The indices a scope uses. -/
def accesses (cfg : Config) (s : Tables) : TableAction → List Access
  | .init => []
  | .begin i => [⟨.total, i⟩]
  | .next i b => advanceAccesses cfg i s b (s.point i)
  | .log i => [⟨.peak, i⟩]
  | .period busy _ => if cfg.overheadBalancing then s.periodAccesses busy else []

def step (cfg : Config) (s : Tables) : TableAction → Option Tables
  | .init =>
      match s.init with
      | .done => some { s with nInsert := s.nInsert + 1, init := .inserted }
      | .inserted => some { s with nPeak := s.nPeak + 1, init := .pushed }
      | .pushed => some { s with nTotal := s.nTotal + 1, init := .done }
  | .begin i =>
      if s.point i = .idle ∧ i < s.nTotal then
        some
          { s with
            counted := Function.update s.counted i true
            point := Function.update s.point i .counted }
      else none
  | .next i b =>
      (advance cfg i s b (s.point i)).map fun p =>
        { p.1 with point := Function.update s.point i p.2 }
  | .log i =>
      if s.point i = .idle ∧ i < s.nTotal then
        some { s with point := Function.update s.point i .logged }
      else none
  | .period busy tops =>
      if cfg.dynamicControl then
        some (if cfg.overheadBalancing then { s with max := s.ownerLoop busy tops s.nPeak } else s)
      else none

/-- Every index a scope uses is smaller than the length of its vectors. -/
def InBounds (cfg : Config) (s : Tables) (a : TableAction) : Prop :=
  step cfg s a ≠ none → ∀ x ∈ accesses cfg s a, 0 ≤ x.index ∧ x.index < s.size x.group

/-! ### The invariant -/

/-- A peak above zero is of a thread that has counted a buffer. -/
def Owned (s : Tables) (m : Peak) : Prop :=
  m.positive = true → ∃ k : ℕ, m.owner = k ∧ s.counted k = true

/-- What holds of a thread at each point: it has counted its buffer, and its snapshot is owned. -/
def OwnedAt (s : Tables) (i : ℕ) : Point → Prop
  | .idle => True
  | .counted | .written | .slept | .injected | .balanced => s.counted i = true
  | .peaked snap | .totaled snap | .raised snap => s.counted i = true ∧ s.Owned snap
  | .logged | .ended => i < s.nTotal

structure Placed (s : Tables) : Prop where
  peak : s.nPeak = s.nTotal + if s.init = .pushed then 1 else 0
  insertion : s.nInsert = s.nTotal + if s.init = .done then 0 else 1
  counted : ∀ i, s.counted i = true → i < s.nTotal
  worked : ∀ i, s.worked i = true → s.counted i = true
  owned : s.Owned s.max
  ownedAt : ∀ i, s.OwnedAt i (s.point i)

/-- `t` has the threads of `s`, and what they have counted. -/
structure Grows (s t : Tables) : Prop where
  nTotal : s.nTotal ≤ t.nTotal
  counted : ∀ i, s.counted i = true → t.counted i = true

section Placed
variable {cfg : Config} {s t : Tables} {i : ℕ} {b : Branches}

theorem Owned.grows {m : Peak} (h : s.Owned m) (hg : Grows s t) : t.Owned m := by
  intro hm
  obtain ⟨k, hk, hc⟩ := h hm
  exact ⟨k, hk, hg.counted k hc⟩

theorem OwnedAt.grows {p : Point} (h : s.OwnedAt i p) (hg : Grows s t) : t.OwnedAt i p := by
  cases p with
  | idle => trivial
  | counted | written | slept | injected | balanced => exact hg.counted i h
  | peaked snap | totaled snap | raised snap => exact ⟨hg.counted i h.1, h.2.grows hg⟩
  | logged | ended => exact lt_of_lt_of_le h hg.nTotal

/-- A thread's entries are pushed in every group before it is started. -/
theorem Placed.lt_size (h : Placed s) (hi : i < s.nTotal) (g : Group) : i < s.size g := by
  cases g with
  | insertion => exact lt_of_lt_of_le hi (by rw [size, h.insertion]; exact Nat.le_add_right _ _)
  | peak => exact lt_of_lt_of_le hi (by rw [size, h.peak]; exact Nat.le_add_right _ _)
  | total => exact hi

/-- What a scope of a round leaves: the lengths and the counted buffers; only threads that have
counted one work. -/
structure Advances (s t : Tables) : Prop where
  nInsert : t.nInsert = s.nInsert
  nPeak : t.nPeak = s.nPeak
  nTotal : t.nTotal = s.nTotal
  init : t.init = s.init
  point : t.point = s.point
  counted : t.counted = s.counted
  worked : ∀ j, t.worked j = true → s.counted j = true

theorem Advances.grows (h : Advances s t) : Grows s t :=
  ⟨h.nTotal.ge, fun j hj => by rw [h.counted]; exact hj⟩

theorem Placed.advances (h : Placed s) : Advances s s := ⟨rfl, rfl, rfl, rfl, rfl, rfl, h.worked⟩

/-- **A scope of a round** keeps the peak owned, and what holds of its thread. -/
theorem advance_owned {p q : Point} (h : Placed s) (hp : s.OwnedAt i p)
    (ha : advance cfg i s b p = some (t, q)) :
    Advances s t ∧ t.Owned t.max ∧ t.OwnedAt i q := by
  have hstay : t = s → t.OwnedAt i q → Advances s t ∧ t.Owned t.max ∧ t.OwnedAt i q := by
    rintro rfl hq
    exact ⟨h.advances, h.owned, hq⟩
  cases p with
  | idle | ended => cases ha
  | counted =>
      simp only [advance] at ha
      split_ifs at ha
      · cases ha
        refine ⟨⟨rfl, rfl, rfl, rfl, rfl, rfl, fun j hj => ?_⟩, h.owned, hp, h.owned⟩
        by_cases hji : j = i
        · rw [hji]
          exact hp
        · dsimp only at hj
          rw [Function.update_of_ne hji] at hj
          exact h.worked j hj
      · cases ha
        exact hstay rfl hp
  | peaked snap =>
      cases ha
      exact hstay rfl hp
  | totaled snap =>
      simp only [advance] at ha
      split_ifs at ha with hskip habove hraises
      · cases ha
        exact hstay rfl hp.1
      -- The thread takes the peak over, and reads it back under the same lock.
      · cases ha
        exact ⟨⟨rfl, rfl, rfl, rfl, rfl, rfl, h.worked⟩, fun _ => ⟨i, rfl, hp.1⟩, hp.1,
          fun _ => ⟨i, rfl, hp.1⟩⟩
      · cases ha
        exact hstay rfl ⟨hp.1, h.owned⟩
      · cases ha
        exact hstay rfl hp
  | raised snap =>
      simp only [advance] at ha
      split_ifs at ha
      · cases ha
        exact hstay rfl hp.1
      · cases ha
        exact hstay rfl hp.1
  | written | slept | injected =>
      cases ha
      exact hstay rfl hp
  | balanced =>
      cases ha
      exact hstay rfl trivial
  | logged =>
      cases ha
      exact hstay rfl hp

theorem Placed.next (h : Placed s) (hs : step cfg s (.next i b) = some t) : Placed t := by
  obtain ⟨⟨u, q⟩, ha, rfl⟩ := Option.map_eq_some_iff.mp hs
  obtain ⟨hadv, howned, hat⟩ := advance_owned h (h.ownedAt i) ha
  refine ⟨?_, ?_, ?_, ?_, howned, (Function.forall_update_iff _ _).mpr ⟨hat, fun j _ => ?_⟩⟩
  · simp only [hadv.nPeak, hadv.nTotal, hadv.init]
    exact h.peak
  · simp only [hadv.nInsert, hadv.nTotal, hadv.init]
    exact h.insertion
  · simp only [hadv.counted, hadv.nTotal]
    exact h.counted
  · intro j hj
    simp only [hadv.counted]
    exact hadv.worked j hj
  · exact (h.ownedAt j).grows ⟨hadv.grows.nTotal, hadv.grows.counted⟩

/-- The loop of a period ends at a thread that is busy, or at no thread. -/
theorem owned_ownerLoop (h : Placed s) (busy tops : ℕ → Bool) (n : ℕ) :
    s.Owned (s.ownerLoop busy tops n) := by
  induction n with
  | zero =>
      intro hm
      cases hm
  | succ n ih =>
      rw [ownerLoop, List.range_succ, List.foldl_append]
      rw [ownerLoop] at ih
      simp only [List.foldl_cons, List.foldl_nil]
      split_ifs with hn
      · intro _
        rw [Bool.and_eq_true, busyAt, Bool.and_eq_true] at hn
        exact ⟨n, rfl, h.worked n hn.1.1⟩
      · exact ih

theorem Placed.init (h : Placed s) (hs : step cfg s .init = some t) : Placed t := by
  have hpeak := h.peak
  have hins := h.insertion
  simp only [step] at hs
  split at hs
  · rename_i hi
    cases hs
    rw [hi] at hpeak hins
    exact ⟨hpeak, congrArg (· + 1) hins, h.counted, h.worked, h.owned, h.ownedAt⟩
  · rename_i hi
    cases hs
    rw [hi] at hpeak hins
    exact ⟨congrArg (· + 1) hpeak, hins, h.counted, h.worked, h.owned, h.ownedAt⟩
  · rename_i hi
    cases hs
    rw [hi] at hpeak hins
    exact ⟨hpeak, hins, fun i hc => Nat.lt_succ_of_lt (h.counted i hc), h.worked, h.owned,
      fun i => (h.ownedAt i).grows ⟨Nat.le_succ _, fun _ hc => hc⟩⟩

theorem Placed.begin (h : Placed s) (hs : step cfg s (.begin i) = some t) : Placed t := by
  obtain ⟨⟨-, hi⟩, ⟨⟩⟩ := Option.ite_none_right_eq_some.mp hs
  have hcount : ∀ j, s.counted j = true → Function.update s.counted i true j = true :=
    (Function.forall_update_iff _ fun j c => s.counted j = true → c = true).mpr
      ⟨fun _ => rfl, fun _ _ hc => hc⟩
  refine ⟨h.peak, h.insertion, ?_, fun j hj => hcount j (h.worked j hj),
    h.owned.grows ⟨le_rfl, hcount⟩, (Function.forall_update_iff _ _).mpr ⟨?_, fun j _ => ?_⟩⟩
  · exact (Function.forall_update_iff _ fun j c => c = true → j < s.nTotal).mpr
      ⟨fun _ => hi, fun j _ => h.counted j⟩
  · exact Function.update_self _ _ _
  · exact (h.ownedAt j).grows ⟨le_rfl, hcount⟩

theorem Placed.log (h : Placed s) (hs : step cfg s (.log i) = some t) : Placed t := by
  obtain ⟨⟨-, hi⟩, ⟨⟩⟩ := Option.ite_none_right_eq_some.mp hs
  refine ⟨h.peak, h.insertion, h.counted, h.worked, h.owned,
    (Function.forall_update_iff _ _).mpr ⟨hi, fun j _ => ?_⟩⟩
  exact (h.ownedAt j).grows ⟨le_rfl, fun _ hc => hc⟩

theorem Placed.period {busy tops : ℕ → Bool} (h : Placed s)
    (hs : step cfg s (.period busy tops) = some t) : Placed t := by
  obtain ⟨-, ⟨⟩⟩ := Option.ite_none_right_eq_some.mp hs
  split_ifs
  · exact ⟨h.peak, h.insertion, h.counted, h.worked, owned_ownerLoop h busy tops s.nPeak,
      h.ownedAt⟩
  · exact h

theorem Placed.step {a : TableAction} (h : Placed s) (hs : step cfg s a = some t) : Placed t := by
  cases a with
  | init => exact h.init hs
  | begin i => exact h.begin hs
  | next i b => exact h.next hs
  | log i => exact h.log hs
  | period busy tops => exact h.period hs

theorem placed_init : Placed {} := by
  refine ⟨rfl, rfl, fun _ hc => ?_, fun _ hw => ?_, fun hm => ?_, fun _ => trivial⟩
  · cases hc
  · cases hw
  · cases hm

/-! ### The indices -/

/-- The indices of a round and of `LogThreadStats` are those of a started thread. -/
theorem advance_inBounds {p : Point} (h : Placed s) (hp : s.OwnedAt i p) :
    ∀ x ∈ advanceAccesses cfg i s b p, 0 ≤ x.index ∧ x.index < s.size x.group := by
  have hthread : s.counted i = true → ∀ g, 0 ≤ (i : ℤ) ∧ (i : ℤ) < s.size g := fun hc g =>
    ⟨Int.natCast_nonneg _, Int.ofNat_lt.mpr (h.lt_size (h.counted i hc) g)⟩
  intro x hx
  cases p with
  | idle | ended => cases hx
  | counted =>
      simp only [advanceAccesses] at hx
      split_ifs at hx
      · obtain rfl := List.mem_singleton.mp hx
        exact hthread hp _
      · cases hx
  | peaked snap =>
      obtain rfl := List.mem_singleton.mp hx
      exact hthread hp.1 _
  | totaled snap =>
      simp only [advanceAccesses] at hx
      split_ifs at hx
      · obtain rfl := List.mem_singleton.mp hx
        exact hthread hp.1 _
      · cases hx
  | raised snap =>
      simp only [advanceAccesses] at hx
      split_ifs at hx with hextra
      · -- the snapshot of the peak comes with an owner that has entries
        rw [Bool.and_eq_true] at hextra
        obtain ⟨k, hk, hc⟩ := hp.2 hextra.1
        rcases List.mem_pair.mp hx with rfl | rfl
        · rw [hk]
          exact ⟨Int.natCast_nonneg _, Int.ofNat_lt.mpr (h.lt_size (h.counted k hc) _)⟩
        · exact hthread hp.1 _
      · cases hx
  | written | slept | injected | balanced =>
      obtain rfl := List.mem_singleton.mp hx
      exact hthread hp _
  | logged =>
      have hlt : ∀ g, 0 ≤ (i : ℤ) ∧ (i : ℤ) < s.size g := fun g =>
        ⟨Int.natCast_nonneg _, Int.ofNat_lt.mpr (h.lt_size hp g)⟩
      rcases List.mem_pair.mp hx with rfl | rfl
      · exact hlt _
      · exact hlt _

/-- A period comes while `main` is between the peak scope and the total scope of a thread, and it is
not the first. -/
def InHalfThread (cfg : Config) (s : Tables) : TableAction → Prop
  | .period _ _ => cfg.overheadBalancing = true ∧ s.init = .pushed ∧ s.nPeak > 1
  | _ => False

/-- **A period** is in bounds exactly where it does not find a thread half made. -/
theorem period_inBounds_iff (h : Placed s) (busy tops : ℕ → Bool) :
    InBounds cfg s (.period busy tops) ↔ ¬ InHalfThread cfg s (.period busy tops) := by
  have hthread : ∀ {j g}, j < s.size g → 0 ≤ (j : ℤ) ∧ (j : ℤ) < s.size g := fun hj =>
    ⟨Int.natCast_nonneg _, Int.ofNat_lt.mpr hj⟩
  constructor
  · rintro hin ⟨ho, hinit, hn⟩
    have hlt : s.nTotal < s.nPeak := by
      rw [h.peak, if_pos hinit]
      exact Nat.lt_succ_self _
    have htaken : step cfg s (.period busy tops) ≠ none := by
      simp only [step, if_pos (Config.dynamicControl_of_balancing ho)]
      exact Option.some_ne_none _
    -- The shadow log reads `total_recv_wait` of the thread that has no entry yet.
    have hmem : (⟨.total, s.nTotal⟩ : Access) ∈ accesses cfg s (.period busy tops) := by
      simp only [accesses, if_pos ho, periodAccesses, if_pos hn]
      refine List.mem_append_right _ (List.mem_flatMap.mpr ⟨s.nTotal, List.mem_range.mpr hlt, ?_⟩)
      exact List.mem_cons_of_mem _ List.mem_cons_self
    exact absurd (hin htaken _ hmem).2 (lt_irrefl _)
  · intro hhalf _ x hx
    simp only [accesses] at hx
    split_ifs at hx with ho
    · simp only [periodAccesses] at hx
      rcases List.mem_append.mp hx with hx | hx
      · rcases List.mem_append.mp hx with hx | hx
        · obtain ⟨j, hj, hx⟩ := List.mem_flatMap.mp hx
          rcases List.mem_cons.mp hx with rfl | hx
          · exact hthread (List.mem_range.mp hj)
          · split_ifs at hx with hbusy
            · obtain rfl := List.mem_singleton.mp hx
              rw [busyAt, Bool.and_eq_true] at hbusy
              exact hthread (h.counted j (h.worked j hbusy.1))
            · cases hx
        · obtain ⟨j, hj, rfl⟩ := List.mem_map.mp hx
          exact hthread (List.mem_range.mp hj)
      · split_ifs at hx with hn
        · obtain ⟨j, hj, hx⟩ := List.mem_flatMap.mp hx
          have hinit : s.init ≠ .pushed := fun hi => hhalf ⟨ho, hi, hn⟩
          have hsize : s.nPeak = s.nTotal := by
            rw [h.peak, if_neg hinit]
            rfl
          have hj' := List.mem_range.mp hj
          rcases List.mem_pair.mp hx with rfl | rfl
          · exact hthread hj'
          · exact hthread (lt_of_lt_of_eq hj' hsize)
        · cases hx
    · cases hx

theorem inBounds_iff (h : Placed s) (a : TableAction) :
    InBounds cfg s a ↔ ¬ InHalfThread cfg s a := by
  cases a with
  | period busy tops => exact period_inBounds_iff h busy tops
  | init => exact ⟨fun _ => id, fun _ _ x hx => by cases hx⟩
  | begin i =>
      refine ⟨fun _ => id, fun _ hs x hx => ?_⟩
      obtain ⟨t, ht⟩ := Option.ne_none_iff_exists'.mp hs
      obtain ⟨⟨-, hi⟩, -⟩ := Option.ite_none_right_eq_some.mp ht
      obtain rfl := List.mem_singleton.mp hx
      exact ⟨Int.natCast_nonneg _, Int.ofNat_lt.mpr (h.lt_size hi _)⟩
  | next i b => exact ⟨fun _ => id, fun _ _ => advance_inBounds h (h.ownedAt i)⟩
  | log i =>
      refine ⟨fun _ => id, fun _ hs x hx => ?_⟩
      obtain ⟨t, ht⟩ := Option.ne_none_iff_exists'.mp hs
      obtain ⟨⟨-, hi⟩, -⟩ := Option.ite_none_right_eq_some.mp ht
      obtain rfl := List.mem_singleton.mp hx
      exact ⟨Int.natCast_nonneg _, Int.ofNat_lt.mpr (h.lt_size hi _)⟩

/-! ### Runs -/

variable (cfg) in
/-- **No index past the end**, of any scope in any run, exactly where no period finds a second or
later thread half made. -/
theorem indices_in_bounds_iff (as : List TableAction) :
    EveryStep (step cfg) {} as (InBounds cfg) ↔
      EveryStep (step cfg) {} as (fun s a => ¬ InHalfThread cfg s a) := by
  exact everyStep_true.congr (I := Placed) placed_init (fun _ _ _ h _ hs => h.step hs)
    fun _ a h _ => inBounds_iff h a

/-- `main` has pushed the second thread's entry of `n_buffers`, and the period reads its entry of
`total_recv_wait`. -/
theorem index_past_end :
    ∃ s, exec (step {}) {} (List.replicate 5 .init) = some s ∧
      step {} s (.period (fun _ => false) fun _ => false) ≠ none ∧
      ⟨.total, 1⟩ ∈ accesses {} s (.period (fun _ => false) fun _ => false) ∧
      s.size .total = 1 ∧
      ¬ EveryStep (step {}) {}
        (List.replicate 5 .init ++ [.period (fun _ => false) fun _ => false]) (InBounds {}) := by
  refine ⟨_, rfl, by decide, by decide, rfl, fun h => ?_⟩
  exact absurd (h _ _ [] _ rfl rfl (by decide) ⟨.total, 1⟩ (by decide)).2 (by decide)

end Placed

end Tables

end BulletTime.Balance
