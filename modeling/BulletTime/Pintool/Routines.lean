import Mathlib.Data.List.Infix
import BulletTime.Lib.Decimal
import BulletTime.Pintool.AppThread
import BulletTime.Pintool.Statistics

/-!
# Pintool — Routines

What `ImageLoad` inserts into the routines of an image, and what a thread gets from it as it calls
them: the count of the calls to the functions of `-fcalls`, and the time spent in
`pthread_mutex_lock`.

* `getlines`: how `main` takes the names apart; `counted_iff`: which routines they select.
* `CallTree`: the calls of a thread with the ones made inside them, in the order of the clock.
* `run_fcalls` and `run_lockTime`: what the inserted calls make of them.
* `lock_time_iff`: the time reported is the sum of the durations exactly when no lock is taken
  inside another, since there is one timer for each thread.

`[about the source]`: `prof_sync` turns the timers on from 1 up, and the pauses at 1 only.
-/

namespace BulletTime.Pintool
open Decimal (ascii)
open AppThreadStatistics (Call)

/-! ### What is inserted -/

/-- The knobs that `main` and `ImageLoad` look at. -/
structure RtnKnobs where
  countFCalls : List UInt8 := []
  fCallsExact : Int32 := 0
  profSync : Int32 := 0

/-- `std::getline(ss, name, ',')` until it fails, with what the current name has so far. -/
def getlines (name : List UInt8) : List UInt8 → List (List UInt8)
  | [] => if name = [] then [] else [name]
  | b :: rest => if b = 44 then name :: getlines [] rest else getlines (name ++ [b]) rest

namespace RtnKnobs
variable (k : RtnKnobs)

/-- `fcall_names`. -/
def fcallNames : List (List UInt8) := (getlines [] k.countFCalls).filter (· ≠ [])

/-- `track_fcalls`. -/
def trackFcalls : Bool := k.countFCalls ≠ []

/-- `pthread_tracking`. -/
def pthreadTracking : Bool := k.profSync > 0

/-- The routine is one of those whose calls are counted. -/
def counted (rtnName : List UInt8) : Bool :=
  k.trackFcalls && k.fcallNames.any fun n =>
    if k.fCallsExact ≠ 0 then rtnName == n else decide (n <:+: rtnName)

/-- The routine is timed. -/
def timed (rtnName : List UInt8) : Bool :=
  decide (ascii "pthread_mutex_lock" <:+: rtnName) && k.pthreadTracking

end RtnKnobs

/-- A call inserted at the beginning or at the returns of a routine. -/
inductive RtnCall where
  | timerStart
  | timerEnd
  | countFunctionCalls
  deriving DecidableEq

/-- The calls inserted into a routine. -/
structure RtnCalls where
  before : List RtnCall
  after : List RtnCall

/-- The loop body of `ImageLoad` at a routine. -/
def imageLoad (k : RtnKnobs) (rtnName : List UInt8) : RtnCalls where
  before := (if k.timed rtnName then [.timerStart] else []) ++
    if k.counted rtnName then [.countFunctionCalls] else []
  after := if k.timed rtnName then [.timerEnd] else []

/-! ### The names -/

theorem mem_getlines {n : List UInt8} (hn : n ≠ []) (name value : List UInt8) (hname : 44 ∉ name) :
    n ∈ getlines name value ↔ n ∈ (name ++ value).splitOn 44 := by
  induction value generalizing name with
  | nil =>
      rw [getlines, List.append_nil, List.splitOn_eq_singleton hname]
      split_ifs with h
      · simp [h, hn]
      · rfl
  | cons b rest ih =>
      rw [getlines]
      split_ifs with hb
      · subst hb
        rw [List.splitOn_append_cons_self, List.splitOn_eq_singleton hname, List.singleton_append,
          List.mem_cons, List.mem_cons, ih [] List.not_mem_nil, List.nil_append]
      · rw [ih (name ++ [b]) (List.not_mem_append hname (by simpa using Ne.symm hb)),
          List.append_assoc, List.singleton_append]

/-- The routine is called by one of the names between the commas, or has one inside. -/
def Named (k : RtnKnobs) (rtnName : List UInt8) : Prop :=
  ∃ n ∈ k.countFCalls.splitOn 44, n ≠ [] ∧ if k.fCallsExact ≠ 0 then rtnName = n else n <:+: rtnName

/-- **Which calls are counted**: the order of the names, and a name given twice, do not matter. -/
theorem counted_iff (k : RtnKnobs) (rtnName : List UInt8) :
    k.counted rtnName = true ↔ Named k rtnName := by
  have hmem : ∀ n, n ∈ k.fcallNames ↔ n ∈ k.countFCalls.splitOn 44 ∧ n ≠ [] := by
    intro n
    rw [RtnKnobs.fcallNames, List.mem_filter, decide_eq_true_iff]
    exact and_congr_left fun hn => mem_getlines hn [] _ List.not_mem_nil
  rw [RtnKnobs.counted, Bool.and_eq_true, List.any_eq_true, Named]
  constructor
  · rintro ⟨-, n, hn, h⟩
    obtain ⟨hsplit, hne⟩ := (hmem n).mp hn
    refine ⟨n, hsplit, hne, ?_⟩
    split_ifs at h ⊢ <;> simpa using h
  · rintro ⟨n, hsplit, hne, h⟩
    refine ⟨?_, n, (hmem n).mpr ⟨hsplit, hne⟩, ?_⟩
    · refine decide_eq_true fun hnil => hne ?_
      rw [hnil, List.splitOn_nil, List.mem_singleton] at hsplit
      exact hsplit
    · split_ifs at h ⊢ <;> simpa using h

/-! ### The calls of a thread -/

/-- Calls, one after the other: a routine, when it is entered, the calls inside, when it is left,
and the calls after. -/
inductive CallTree where
  | done
  | call (rtn : List UInt8) (enter : UInt64) (inside : CallTree) (leave : UInt64) (after : CallTree)

/-- What the inserted calls work on. -/
structure RtnThread where
  app : AppThread := {}
  statistics : AppThreadStatistics := {}
  timer : UInt64 := 0

namespace RtnThread

/-- One inserted call, with the reading of the time stamp counter. -/
def call (now : UInt64) (x : RtnThread) : RtnCall → RtnThread
  | .timerStart => { x with timer := now }
  | .timerEnd =>
      { x with statistics := x.statistics.apply (.addPthreadLockTime (now - x.timer)) }
  | .countFunctionCalls => { x with app := x.app.countFunctionCalls }

/-- The calls of a thread. -/
def run (k : RtnKnobs) (x : RtnThread) : CallTree → RtnThread
  | .done => x
  | .call rtn enter inside leave after =>
      let x := (imageLoad k rtn).before.foldl (call enter) x
      let x := run k x inside
      run k ((imageLoad k rtn).after.foldl (call leave) x) after

end RtnThread

namespace CallTree
variable (k : RtnKnobs)

/-- The readings of the clock, in their order. -/
def times : CallTree → List UInt64
  | .done => []
  | .call _ enter inside leave after => enter :: (inside.times ++ leave :: after.times)

/-- How many routines that meet `p` are called. -/
def count (p : List UInt8 → Bool) : CallTree → ℕ
  | .done => 0
  | .call rtn _ inside _ after => (if p rtn then 1 else 0) + inside.count p + after.count p

/-- The durations of the timed calls, each from its entry to its return. -/
def durations : CallTree → ℕ
  | .done => 0
  | .call rtn enter inside leave after =>
      (if k.timed rtn then leave.toNat - enter.toNat else 0) + inside.durations + after.durations

/-- No timed call is made inside another one. -/
def NotNested : CallTree → Prop
  | .done => True
  | .call rtn _ inside _ after =>
      (k.timed rtn = true → inside.count k.timed = 0) ∧ inside.NotNested ∧ after.NotNested

/-- The timer after the calls. -/
def timerAfter (timer : UInt64) : CallTree → UInt64
  | .done => timer
  | .call rtn enter inside _ after =>
      after.timerAfter (inside.timerAfter (if k.timed rtn then enter else timer))

/-- What the timed calls add, each from the last entry of one to its own return. -/
def reported : CallTree → ℕ
  | .done => 0
  | .call rtn enter inside leave after =>
      (if k.timed rtn then leave.toNat - (inside.timerAfter k enter).toNat else 0) +
        inside.reported + after.reported

/-- What they leave out, each from its own entry to the last one. -/
def leftOut : CallTree → ℕ
  | .done => 0
  | .call rtn enter inside _ after =>
      (if k.timed rtn then (inside.timerAfter k enter).toNat - enter.toNat else 0) +
        inside.leftOut + after.leftOut

end CallTree

/-! ### What a thread gets from its calls -/

section Run
variable {k : RtnKnobs}

theorem foldl_before (x : RtnThread) (rtn : List UInt8) (now : UInt64) :
    (imageLoad k rtn).before.foldl (RtnThread.call now) x =
      { app := if k.counted rtn then x.app.countFunctionCalls else x.app
        statistics := x.statistics
        timer := if k.timed rtn then now else x.timer } := by
  rw [imageLoad]
  dsimp only
  split_ifs <;> rfl

theorem foldl_after (x : RtnThread) (rtn : List UInt8) (now : UInt64) :
    (imageLoad k rtn).after.foldl (RtnThread.call now) x =
      { x with
        statistics :=
          if k.timed rtn then x.statistics.apply (.addPthreadLockTime (now - x.timer))
          else x.statistics } := by
  rw [imageLoad]
  dsimp only
  split_ifs <;> rfl

theorem run_timer (c : CallTree) (x : RtnThread) :
    (x.run k c).timer = c.timerAfter k x.timer := by
  induction c generalizing x with
  | done => rfl
  | call rtn enter inside leave after ihIn ihAfter =>
      rw [RtnThread.run, ihAfter, foldl_after]
      dsimp only
      rw [ihIn, foldl_before, CallTree.timerAfter]

/-- **The calls counted** are those of the routines that are named, once each. -/
theorem run_fcalls (c : CallTree) (x : RtnThread) : (x.run k c).app.fcallsExecuted =
    x.app.fcallsExecuted + .ofNat (c.count k.counted) := by
  induction c generalizing x with
  | done => exact (UInt64.add_zero _).symm
  | call rtn enter inside leave after ihIn ihAfter =>
      rw [RtnThread.run, ihAfter, foldl_after, ihIn, foldl_before, CallTree.count, UInt64.ofNat_add,
        UInt64.ofNat_add]
      dsimp only
      split_ifs
      · rw [AppThread.countFunctionCalls, UInt64.add_assoc, UInt64.add_assoc, UInt64.add_assoc]
        rfl
      · rw [UInt64.add_assoc]
        simp

/-- The timer holds the last entry of a timed call, if there was one. -/
theorem timerAfter_cases (c : CallTree) (timer : UInt64) :
    c.timerAfter k timer = timer ∧ c.count k.timed = 0 ∨
      c.timerAfter k timer ∈ c.times ∧ c.count k.timed ≠ 0 := by
  induction c generalizing timer with
  | done => exact .inl ⟨rfl, rfl⟩
  | call rtn enter inside leave after ihIn ihAfter =>
      rw [CallTree.timerAfter, CallTree.count, CallTree.times]
      rcases ihAfter (inside.timerAfter k (if k.timed rtn then enter else timer)) with
        ⟨hafter, hzero⟩ | ⟨hafter, hpos⟩
      · rw [hafter, hzero, Nat.add_zero]
        rcases ihIn (if k.timed rtn then enter else timer) with ⟨hin, hzero⟩ | ⟨hin, hpos⟩
        · rw [hin, hzero, Nat.add_zero]
          split_ifs
          · exact .inr ⟨List.mem_cons_self, Nat.one_ne_zero⟩
          · exact .inl ⟨rfl, rfl⟩
        · exact .inr ⟨List.mem_cons_of_mem _ (List.mem_append_left _ hin), by omega⟩
      · have hmem := List.mem_append_right inside.times (List.mem_cons_of_mem leave hafter)
        exact .inr ⟨List.mem_cons_of_mem _ hmem, by omega⟩

/-- The clock at a call: its entry comes before the calls inside, these before its return. -/
theorem times_call {rtn : List UInt8} {enter leave : UInt64} {inside after : CallTree}
    (h : (CallTree.call rtn enter inside leave after).times.Pairwise (· < ·)) :
    (∀ t ∈ inside.times, enter < t) ∧ (∀ t ∈ inside.times, t < leave) ∧ enter < leave ∧
      inside.times.Pairwise (· < ·) ∧ after.times.Pairwise (· < ·) := by
  obtain ⟨henter, hrest⟩ := List.pairwise_cons.mp h
  obtain ⟨hinside, hleave, hcross⟩ := List.pairwise_append.mp hrest
  exact ⟨fun t ht => henter t (List.mem_append_left _ ht),
    fun t ht => hcross t ht leave List.mem_cons_self,
    henter leave (List.mem_append_right _ List.mem_cons_self), hinside, hleave.of_cons⟩

/-- The timer at the return of a timed call is not before its entry, and is its entry only if no
timed call was made inside. -/
theorem timerAfter_inside {enter leave : UInt64} {inside : CallTree}
    (henter : ∀ t ∈ inside.times, enter < t) (hleave : ∀ t ∈ inside.times, t < leave)
    (hlt : enter < leave) :
    enter.toNat ≤ (inside.timerAfter k enter).toNat ∧
      (inside.timerAfter k enter).toNat ≤ leave.toNat ∧
      ((inside.timerAfter k enter).toNat = enter.toNat ↔ inside.count k.timed = 0) := by
  rcases timerAfter_cases (k := k) inside enter with ⟨heq, hzero⟩ | ⟨hmem, hpos⟩
  · rw [heq]
    exact ⟨le_rfl, (UInt64.lt_iff_toNat_lt.mp hlt).le, iff_of_true rfl hzero⟩
  · have hgt := UInt64.lt_iff_toNat_lt.mp (henter _ hmem)
    exact ⟨hgt.le, (UInt64.lt_iff_toNat_lt.mp (hleave _ hmem)).le, iff_of_false hgt.ne' hpos⟩

/-- The durations are what is reported and what is left out. -/
theorem durations_eq {c : CallTree} (h : c.times.Pairwise (· < ·)) :
    c.durations k = c.reported k + c.leftOut k := by
  induction c with
  | done => rfl
  | call rtn enter inside leave after ihIn ihAfter =>
      obtain ⟨henter, hleave, hlt, hinside, hafter⟩ := times_call h
      obtain ⟨hle, hle', -⟩ := timerAfter_inside (k := k) henter hleave hlt
      rw [CallTree.durations, CallTree.reported, CallTree.leftOut, ihIn hinside, ihAfter hafter]
      split_ifs <;> omega

/-- **Nothing is left out** exactly where no timed call is made inside another. -/
theorem leftOut_eq_zero_iff {c : CallTree} (h : c.times.Pairwise (· < ·)) :
    c.leftOut k = 0 ↔ c.NotNested k := by
  induction c with
  | done => exact iff_of_true rfl trivial
  | call rtn enter inside leave after ihIn ihAfter =>
      obtain ⟨henter, hleave, hlt, hinside, hafter⟩ := times_call h
      obtain ⟨hle, -, heq⟩ := timerAfter_inside (k := k) henter hleave hlt
      rw [CallTree.leftOut, CallTree.NotNested, Nat.add_eq_zero_iff, Nat.add_eq_zero_iff,
        ihIn hinside, ihAfter hafter, and_assoc]
      refine and_congr_left fun _ => ?_
      split_ifs with ht
      · rw [← heq]
        simp only [ht, forall_const]
        omega
      · exact iff_of_true rfl fun h => absurd h ht

theorem apply_addPthreadLockTime (st : AppThreadStatistics) (d : UInt64) :
    (st.apply (.addPthreadLockTime d)).pthreadLockTime = st.pthreadLockTime + d := rfl

theorem timer_sub {timer leave : UInt64} (h : timer.toNat ≤ leave.toNat) :
    leave - timer = .ofNat (leave.toNat - timer.toNat) := by
  rw [← UInt64.toNat_sub_of_le _ _ (UInt64.le_iff_toNat_le.mpr h), UInt64.ofNat_toNat]

/-- **The lock time** is what the timed calls report. -/
theorem run_lockTime (c : CallTree) (x : RtnThread) (h : c.times.Pairwise (· < ·)) :
    (x.run k c).statistics.pthreadLockTime =
      x.statistics.pthreadLockTime + .ofNat (c.reported k) := by
  induction c generalizing x with
  | done => exact (UInt64.add_zero _).symm
  | call rtn enter inside leave after ihIn ihAfter =>
      obtain ⟨henter, hleave, hlt, hinside, hafter⟩ := times_call h
      obtain ⟨-, hle, -⟩ := timerAfter_inside (k := k) henter hleave hlt
      rw [RtnThread.run, ihAfter _ hafter, foldl_after, CallTree.reported]
      dsimp only
      rw [run_timer, foldl_before]
      dsimp only
      cases ht : k.timed rtn with
      | false =>
          simp only [Bool.false_eq_true, if_false]
          rw [ihIn _ hinside, Nat.zero_add, UInt64.ofNat_add, UInt64.add_assoc]
      | true =>
          simp only [if_true]
          rw [apply_addPthreadLockTime, ihIn _ hinside, timer_sub hle, UInt64.add_assoc,
            UInt64.add_assoc, ← UInt64.ofNat_add, ← UInt64.ofNat_add, Nat.add_left_comm,
            ← Nat.add_assoc]

/-- **The lock time of a thread** grows by the durations of its timed calls exactly where none of
them is made inside another: there is one timer, and an inner call sets it again. -/
theorem lock_time_iff (c : CallTree) (x : RtnThread) (h : c.times.Pairwise (· < ·))
    (hlt : c.durations k < 2 ^ 64) :
    (x.run k c).statistics.pthreadLockTime =
        x.statistics.pthreadLockTime + .ofNat (c.durations k) ↔ c.NotNested k := by
  have hsum := durations_eq (k := k) h
  rw [run_lockTime c x h, UInt64.add_right_inj, ← leftOut_eq_zero_iff h, ← UInt64.toNat_inj,
    UInt64.toNat_ofNat_of_lt' (lt_of_le_of_lt (by omega) hlt), UInt64.toNat_ofNat_of_lt' hlt]
  omega

end Run

/-- A lock of a kind that `pthread_mutex_lock` leaves to a routine with its own name in it. -/
theorem lock_time_nested :
    let k : RtnKnobs := { profSync := 1 }
    let c := CallTree.call (ascii "pthread_mutex_lock") 10
      (.call (ascii "__pthread_mutex_lock_full") 12 .done 30 .done) 32 .done
    (RtnThread.run k {} c).statistics.pthreadLockTime ≠ .ofNat (c.durations k) := by
  intro k c heq
  have hnot : c.NotNested k :=
    (lock_time_iff c {} (by decide +kernel) (by decide +kernel)).mp (by rw [heq]; rfl)
  exact absurd (hnot.1 (by decide +kernel)) (by decide +kernel)

end BulletTime.Pintool
