import Mathlib.Data.List.Basic

/-!
# Lib — LastOf

The last place an element stands in a list, as `find_last_of` finds it in a string.

* `lastWith`: the last element that meets a test, for the last one of a set.
* `lastOf_eq_some_iff`: the place splits the list into what is before it and what is after it,
  which has no such element.
* `append_cons_inj`: a list is split at the last such element in one way only.
-/

namespace LastOf

section With
variable {α : Type*}

/-- The index of the last element that meets `p`. -/
def lastWith (p : α → Bool) : List α → Option Nat
  | [] => none
  | b :: s =>
      match lastWith p s with
      | some i => some (i + 1)
      | none => if p b then some 0 else none

theorem lastWith_eq_none {p : α → Bool} {s : List α} (h : ∀ b ∈ s, p b = false) :
    lastWith p s = none := by
  induction s with
  | nil => rfl
  | cons b s ih =>
      rw [List.forall_mem_cons] at h
      rw [lastWith, ih h.2]
      simp [h.1]

theorem lastWith_lt {p : α → Bool} {s : List α} {i : Nat} (h : lastWith p s = some i) :
    i < s.length := by
  induction s generalizing i with
  | nil => cases h
  | cons b s ih =>
      rw [lastWith] at h
      cases hs : lastWith p s with
      | some j =>
          rw [hs] at h
          obtain rfl := Option.some.inj h
          exact Nat.succ_lt_succ (ih hs)
      | none =>
          rw [hs] at h
          dsimp only at h
          split at h
          · obtain rfl := Option.some.inj h
            exact Nat.succ_pos _
          · cases h

/-- The last such element stands after `l` where nothing after it is one. -/
theorem lastWith_append_cons {p : α → Bool} {c : α} (l : List α) {q : List α} (hc : p c = true)
    (h : ∀ b ∈ q, p b = false) : lastWith p (l ++ c :: q) = some l.length := by
  induction l with
  | nil => simp [lastWith, lastWith_eq_none h, hc]
  | cons b l ih => simp [lastWith, ih]

end With

variable {α : Type*} [DecidableEq α]

/-- The index of the last `c` of a list. -/
def lastOf (c : α) : List α → Option Nat
  | [] => none
  | b :: s =>
      match lastOf c s with
      | some i => some (i + 1)
      | none => if b = c then some 0 else none

theorem lastOf_eq_lastWith (c : α) (s : List α) : lastOf c s = lastWith (· = c) s := by
  induction s with
  | nil => rfl
  | cons b s ih =>
      rw [lastOf, lastWith, ih]
      simp only [decide_eq_true_eq]

theorem lastOf_eq_none_iff {c : α} {s : List α} : lastOf c s = none ↔ c ∉ s := by
  induction s with
  | nil => simp [lastOf]
  | cons b s ih =>
      rw [List.mem_cons, not_or, ← ih, lastOf]
      cases lastOf c s with
      | some i => simp
      | none =>
          simp only [and_true]
          split
          · rename_i h; simp [h]
          · rename_i h; simp [Ne.symm h]

/-- The last `c` stands after `p` where nothing after it is `c`. -/
theorem lastOf_append_cons {c : α} (p : List α) {q : List α} (h : c ∉ q) :
    lastOf c (p ++ c :: q) = some p.length := by
  rw [lastOf_eq_lastWith]
  exact lastWith_append_cons p (decide_eq_true rfl) fun b hb =>
    decide_eq_false (ne_of_mem_of_not_mem hb h)

/-- **The last place splits the list.** -/
theorem lastOf_eq_some_iff {c : α} {s : List α} {i : Nat} :
    lastOf c s = some i ↔ ∃ p q, s = p ++ c :: q ∧ p.length = i ∧ c ∉ q := by
  constructor
  · intro h
    induction s generalizing i with
    | nil => cases h
    | cons b s ih =>
        rw [lastOf] at h
        cases hs : lastOf c s with
        | some j =>
            rw [hs] at h
            obtain rfl := Option.some.inj h
            obtain ⟨p, q, rfl, rfl, hq⟩ := ih hs
            exact ⟨b :: p, q, rfl, rfl, hq⟩
        | none =>
            rw [hs] at h
            simp only at h
            split at h
            · rename_i hb
              obtain rfl := Option.some.inj h
              exact ⟨[], s, by rw [hb]; rfl, rfl, lastOf_eq_none_iff.mp hs⟩
            · cases h
  · rintro ⟨p, q, rfl, rfl, hq⟩
    exact lastOf_append_cons p hq

/-- A list with a `c` in it is split at the last one. -/
theorem exists_split_of_mem {c : α} {s : List α} (h : c ∈ s) : ∃ p q, s = p ++ c :: q ∧ c ∉ q := by
  cases hs : lastOf c s with
  | none => exact absurd h (lastOf_eq_none_iff.mp hs)
  | some i =>
      obtain ⟨p, q, e, -, hq⟩ := lastOf_eq_some_iff.mp hs
      exact ⟨p, q, e, hq⟩

/-- **One way to split**: at its last `c`. -/
theorem append_cons_inj {c : α} {p p' q q' : List α} (h : c ∉ q) (h' : c ∉ q') :
    p ++ c :: q = p' ++ c :: q' ↔ p = p' ∧ q = q' := by
  constructor
  · intro e
    have hlen := congrArg (lastOf c) e
    rw [lastOf_append_cons p h, lastOf_append_cons p' h'] at hlen
    have hsplit := List.append_inj e (Option.some.inj hlen)
    exact ⟨hsplit.1, (List.cons.inj hsplit.2).2⟩
  · rintro ⟨rfl, rfl⟩
    rfl

end LastOf
