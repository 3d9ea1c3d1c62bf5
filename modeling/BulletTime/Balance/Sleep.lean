import Mathlib.Data.Rat.Floor
import Mathlib.Algebra.Order.Floor.Semiring
import Mathlib.Algebra.BigOperators.Group.List.Basic
import Mathlib.Tactic.Linarith

/-!
# Balance — Sleep

How `WriteDummy` sleeps `sleep_time_us` microseconds: in sleeps of 10 ms, each followed by a look
at the clock, and a last one of what is left.  A sleep takes at least what it is asked for.

* `Sleeps`: what the sleeps take, by the readings of the clock.
* `dummyLoop` and `DummyState.finish`: the loop, and the sleep after it.
* `dummyLoop_ends`: the loop ends, whether it is stopped or not.
* `writeDummy_no_drift`: what is slept is the time asked for, up to a microsecond below and the
  oversleeping of the last sleep above.
-/

namespace BulletTime.Balance

/-- The longest sleep asked for. -/
def maxPeriod : ℕ := 10000

/-- The clock at the start and after each sleep of the loop, and what the last sleep takes by what
it is asked for. -/
structure Sleeps where
  clock : ℕ → ℕ
  slept : ∀ k, clock k + maxPeriod ≤ clock (k + 1)
  last : ℕ → ℕ
  last_le : ∀ n, n ≤ last n

/-- A sleep: the microseconds asked for, and those it took. -/
structure Sleep where
  asked : ℕ
  taken : ℕ
  deriving DecidableEq

/-- The locals of the loop, with the sleeps so far. -/
structure DummyState where
  sleepTimeUs : ℚ
  timer : ℕ
  sleeps : List Sleep := []
  deriving DecidableEq

/-- All the time slept. -/
def slept (l : List Sleep) : ℕ := (l.map (·.taken)).sum

/-- What a sleep took over what it was asked for. -/
def Sleep.overshoot (x : Sleep) : ℚ := x.taken - x.asked

namespace DummyState

/-- The condition of the loop; `stop` is read before each sleep. -/
def sleepsOn (stop : ℕ → Bool) (s : DummyState) : Bool :=
  decide (s.sleepTimeUs > maxPeriod) && !stop s.sleeps.length

/-- The body of the loop: the remainder loses what the clock says has passed. -/
def body (e : Sleeps) (s : DummyState) : DummyState :=
  let curr := e.clock (s.sleeps.length + 1)
  { sleepTimeUs := s.sleepTimeUs - (curr - s.timer : ℕ)
    timer := curr
    sleeps := s.sleeps ++ [⟨maxPeriod, curr - s.timer⟩] }

/-- The sleep after the loop, of the remainder cut to whole microseconds. -/
def finish (e : Sleeps) (stop : ℕ → Bool) (s : DummyState) : DummyState :=
  if s.sleepTimeUs > 0 ∧ stop s.sleeps.length = false then
    { s with sleeps := s.sleeps ++ [⟨⌊s.sleepTimeUs⌋₊, e.last ⌊s.sleepTimeUs⌋₊⟩] }
  else s

end DummyState

/-- `WriteDummy` before its loop. -/
def dummyStart (e : Sleeps) (sleepTimeUs : ℚ) : DummyState where
  sleepTimeUs := sleepTimeUs
  timer := e.clock 0

/-- The loop, of at most so many iterations. -/
def dummyLoop (e : Sleeps) (stop : ℕ → Bool) : ℕ → DummyState → Option DummyState
  | 0, s => if s.sleepsOn stop then none else some s
  | n + 1, s => if s.sleepsOn stop then dummyLoop e stop n (s.body e) else some s

/-! ### The loop -/

section Loop
variable {e : Sleeps} {stop : ℕ → Bool} {s t : DummyState} {T : ℚ}

/-- **The remainder** is the time asked for less the time slept, and an iteration begins with more
than 10 ms left, so that only the last sleep can go past the end. -/
structure Remaining (e : Sleeps) (T : ℚ) (s : DummyState) : Prop where
  timer : s.timer = e.clock s.sleeps.length
  left : s.sleepTimeUs = T - slept s.sleeps
  last : ∀ x, s.sleeps.getLast? = some x → slept s.sleeps < T + x.overshoot

theorem slept_concat (l : List Sleep) (x : Sleep) : slept (l ++ [x]) = slept l + x.taken := by
  simp [slept]

theorem remaining_start (e : Sleeps) (T : ℚ) : Remaining e T (dummyStart e T) where
  timer := rfl
  left := by simp [dummyStart, slept]
  last := nofun

theorem Remaining.body (hs : Remaining e T s) (hon : s.sleepsOn stop = true) :
    Remaining e T (s.body e) := by
  have hlong : (maxPeriod : ℚ) < s.sleepTimeUs := by
    simp only [DummyState.sleepsOn, Bool.and_eq_true, decide_eq_true_eq] at hon
    exact hon.1
  have hsleeps : (s.body e).sleeps =
      s.sleeps ++ [⟨maxPeriod, e.clock (s.sleeps.length + 1) - s.timer⟩] := rfl
  have htime : (s.body e).sleepTimeUs =
      s.sleepTimeUs - (e.clock (s.sleeps.length + 1) - s.timer : ℕ) := rfl
  have hleft := hs.left
  refine ⟨?_, ?_, fun x hx => ?_⟩
  · rw [hsleeps, List.length_append]
    rfl
  · rw [htime, hsleeps, slept_concat, hleft]
    push_cast
    ring
  · rw [hsleeps, List.getLast?_concat] at hx
    obtain rfl := Option.some.inj hx
    rw [hsleeps, slept_concat, Sleep.overshoot]
    push_cast
    linarith

/-- An iteration takes at least 10 ms off the remainder. -/
theorem sleepTimeUs_body_le (hs : Remaining e T s) :
    (s.body e).sleepTimeUs ≤ s.sleepTimeUs - maxPeriod := by
  have hslept : s.timer + maxPeriod ≤ e.clock (s.sleeps.length + 1) := by
    rw [hs.timer]
    exact e.slept _
  have hle : ((maxPeriod : ℕ) : ℚ) ≤ (e.clock (s.sleeps.length + 1) - s.timer : ℕ) := by
    exact_mod_cast Nat.le_sub_of_add_le' hslept
  have htime : (s.body e).sleepTimeUs =
      s.sleepTimeUs - (e.clock (s.sleeps.length + 1) - s.timer : ℕ) := rfl
  rw [htime]
  linarith

/-- **The loop ends**, within the iterations the remainder has room for. -/
theorem dummyLoop_ends (stop : ℕ → Bool) (n : ℕ) (hs : Remaining e T s)
    (hn : s.sleepTimeUs ≤ n * maxPeriod) :
    ∃ t, dummyLoop e stop n s = some t ∧ Remaining e T t ∧ t.sleepsOn stop = false ∧
      t.sleeps.length ≤ s.sleeps.length + n := by
  induction n generalizing s with
  | zero =>
      have hoff : s.sleepsOn stop = false := by
        have hshort : ¬ s.sleepTimeUs > maxPeriod := by
          rw [Nat.cast_zero, zero_mul] at hn
          exact not_lt.mpr (hn.trans (Nat.cast_nonneg _))
        simp only [DummyState.sleepsOn, decide_eq_false hshort, Bool.false_and]
      exact ⟨s, by rw [dummyLoop, hoff]; rfl, hs, hoff, le_rfl⟩
  | succ n ih =>
      by_cases hon : s.sleepsOn stop = true
      · have hbody := sleepTimeUs_body_le hs
        have hn' : (s.body e).sleepTimeUs ≤ n * maxPeriod := by
          push_cast at hn
          linarith
        obtain ⟨t, ht, hr, hoff, hlen⟩ := ih (hs.body hon) hn'
        have hlen' : (s.body e).sleeps.length = s.sleeps.length + 1 := List.length_append
        refine ⟨t, by rw [dummyLoop, if_pos hon, ht], hr, hoff, ?_⟩
        omega
      · exact ⟨s, by rw [dummyLoop, if_neg hon], hs, eq_false_of_ne_true hon, Nat.le_add_right _ _⟩

/-! ### The whole sleep -/

/-- Nobody asks to stop. -/
def noStop : ℕ → Bool := fun _ => false

/-- **After the loop**: the last sleep rounds the remainder down, unless nothing was left. -/
theorem Remaining.finish (hs : Remaining e T s) (hT : 0 < T) :
    T - 1 < slept (s.finish e noStop).sleeps ∧
      ∃ x, (s.finish e noStop).sleeps.getLast? = some x ∧
        slept (s.finish e noStop).sleeps ≤ T + x.overshoot := by
  have hleft := hs.left
  by_cases hpos : s.sleepTimeUs > 0
  · have hsleeps : (s.finish e noStop).sleeps =
        s.sleeps ++ [⟨⌊s.sleepTimeUs⌋₊, e.last ⌊s.sleepTimeUs⌋₊⟩] := by
      rw [DummyState.finish, if_pos ⟨hpos, rfl⟩]
    have hlast : ((⌊s.sleepTimeUs⌋₊ : ℕ) : ℚ) ≤ e.last ⌊s.sleepTimeUs⌋₊ := by
      exact_mod_cast e.last_le _
    have hfloor := Nat.lt_floor_add_one s.sleepTimeUs
    have hle := Nat.floor_le hpos.le
    rw [hsleeps, slept_concat]
    push_cast
    refine ⟨by linarith, _, List.getLast?_concat, ?_⟩
    rw [Sleep.overshoot]
    linarith
  · have hsleeps : s.finish e noStop = s := by
      rw [DummyState.finish, if_neg fun h => hpos h.1]
    have hne : s.sleeps ≠ [] := by
      intro hnil
      rw [hnil] at hleft
      have hslept : (slept [] : ℚ) = 0 := by norm_num [slept]
      rw [hslept] at hleft
      linarith
    have hlast := List.getLast?_eq_some_getLast hne
    rw [hsleeps]
    exact ⟨by linarith, _, hlast, (hs.last _ hlast).le⟩

/-- **`WriteDummy` sleeps as long as it was asked to**, whatever its sleeps take: the loop ends
within `⌈T / 10000⌉` iterations, and what is slept in all is more than `T - 1` and at most `T` and
what the last sleep took too long. -/
theorem writeDummy_no_drift (e : Sleeps) {T : ℚ} (hT : 0 < T) :
    ∃ s, dummyLoop e noStop ⌈T / 10000⌉₊ (dummyStart e T) = some s ∧
      s.sleeps.length ≤ ⌈T / 10000⌉₊ ∧
      T - 1 < slept (s.finish e noStop).sleeps ∧
      ∃ x, (s.finish e noStop).sleeps.getLast? = some x ∧
        slept (s.finish e noStop).sleeps ≤ T + x.overshoot := by
  have hn : (dummyStart e T).sleepTimeUs ≤ ⌈T / 10000⌉₊ * maxPeriod := by
    have hceil := Nat.le_ceil (T / 10000)
    have hT' : (dummyStart e T).sleepTimeUs = T / 10000 * 10000 := by
      rw [dummyStart]
      ring
    rw [hT', show ((maxPeriod : ℕ) : ℚ) = 10000 by norm_num [maxPeriod]]
    exact mul_le_mul_of_nonneg_right hceil (by norm_num)
  obtain ⟨s, hloop, hs, -, hlen⟩ := dummyLoop_ends noStop _ (remaining_start e T) hn
  exact ⟨s, hloop, hlen.trans (by simp [dummyStart]), hs.finish hT⟩

end Loop

/-- Every sleep takes half a millisecond too long. -/
def late : Sleeps where
  clock k := k * 10500
  slept k := by rw [maxPeriod, Nat.succ_mul]; omega
  last n := n + 500
  last_le n := Nat.le_add_right n 500

theorem writeDummy_no_drift_late :
    ∃ s, dummyLoop late noStop ⌈(25000 : ℚ) / 10000⌉₊ (dummyStart late 25000) = some s ∧
      s.sleeps.length ≤ ⌈(25000 : ℚ) / 10000⌉₊ ∧
      25000 - 1 < (slept (s.finish late noStop).sleeps : ℚ) ∧
      ∃ x, (s.finish late noStop).sleeps.getLast? = some x ∧
        (slept (s.finish late noStop).sleeps : ℚ) ≤ 25000 + x.overshoot :=
  writeDummy_no_drift late (by norm_num)

end BulletTime.Balance
