import BulletTime.Lib.Transition

/-!
# Lib — FairRun

Infinite runs of a transition function that are fair to the actions of a set `J`: one that stays
enabled is taken.

* `FairRun.reachable`: the states of such a run are reachable.
* `FairRun.eventually`: what holds until a goal is met, and enables a fair action that meets it,
  leads to the goal.
* `FairRun.idling`: a run that ends where nothing fair is enabled, idling there for ever, is one.
-/

namespace Transition

variable {σ α : Type*} {step : σ → α → Option σ} {J : α → Prop} {s₀ : σ}

/-- An infinite run from `s₀`, fair to the actions that meet `J`. -/
structure FairRun (step : σ → α → Option σ) (J : α → Prop) (s₀ : σ) where
  state : ℕ → σ
  act : ℕ → α
  zero : state 0 = s₀
  next : ∀ n, step (state n) (act n) = some (state (n + 1))
  fair : ∀ a, J a → ∀ n, (∀ m, n ≤ m → (step (state m) a).isSome) → ∃ m, n ≤ m ∧ act m = a

namespace FairRun

theorem reachable (r : FairRun step J s₀) (n : ℕ) : Reachable step s₀ (r.state n) := by
  induction n with
  | zero =>
      rw [r.zero]
      exact .refl _
  | succ n ih => exact ih.next (r.next n)

/-- **A fair action meets its goal.**  From `n` on `Q` holds.  `P` holds at `n` and is kept until
the goal is met; where it holds the action `a` is enabled, and meets the goal. -/
theorem eventually (r : FairRun step J s₀) {P Q G : σ → Prop} {a : α} {n : ℕ} (ha : J a)
    (hQ : ∀ m, n ≤ m → Q (r.state m)) (hP : P (r.state n))
    (keep : ∀ s b t, P s → step s b = some t → Q t → ¬ G t → P t)
    (enabled : ∀ s, P s → (step s a).isSome)
    (meets : ∀ s t, P s → step s a = some t → G t) : ∃ m, n ≤ m ∧ G (r.state m) := by
  by_contra hno
  have hgoal : ∀ m, n ≤ m → ¬ G (r.state m) := by
    intro m hm hg
    exact hno ⟨m, hm, hg⟩
  have hstays : ∀ m, n ≤ m → P (r.state m) := by
    intro m hm
    induction hm with
    | refl => exact hP
    | step hm ih =>
        have hm' := Nat.le_succ_of_le hm
        exact keep _ _ _ ih (r.next _) (hQ _ hm') (hgoal _ hm')
  obtain ⟨m, hm, rfl⟩ := r.fair a ha n fun m hm => enabled _ (hstays m hm)
  exact hgoal (m + 1) (Nat.le_succ_of_le hm) (meets _ _ (hstays m hm) (r.next m))

section Idling
variable {as : List α} {b : α} {u : σ}

/-- A run passes a state behind each of its first actions. -/
theorem exists_exec_take (h : exec step s₀ as = some u) (n : ℕ) :
    ∃ s, exec step s₀ (as.take n) = some s := by
  rw [← List.take_append_drop n as] at h
  obtain ⟨s, hs, -⟩ := exec_split.mp h
  exact ⟨s, hs⟩

/-- The run of `as` to `u`, then `b` for ever, where no fair action is enabled at `u`. -/
def idling (h : exec step s₀ as = some u) (hb : step u b = some u)
    (idle : ∀ a, J a → step u a = none) : FairRun step J s₀ where
  state n := (exec step s₀ (as.take n)).getD u
  act n := as[n]?.getD b
  zero := rfl
  next n := by
    obtain ⟨s, hs⟩ := exists_exec_take h n
    obtain ⟨t, ht⟩ := exists_exec_take h (n + 1)
    rw [hs, ht, Option.getD_some, Option.getD_some]
    rcases Nat.lt_or_ge n as.length with hn | hn
    · rw [List.take_add_one, List.getElem?_eq_getElem hn, Option.toList_some, exec_snoc] at ht
      obtain ⟨s', hs', hstep⟩ := ht
      rw [Option.some.inj (hs.symm.trans hs'), List.getElem?_eq_getElem hn]
      exact hstep
    · -- past the actions of `as` the state is `u` and stays there
      rw [List.take_of_length_le hn, h] at hs
      rw [List.take_of_length_le (Nat.le_succ_of_le hn), h] at ht
      cases hs
      cases ht
      rw [List.getElem?_eq_none hn]
      exact hb
  fair a ha n hen := by
    have h' := hen (max n as.length) (Nat.le_max_left ..)
    rw [List.take_of_length_le (Nat.le_max_right ..), h, Option.getD_some, idle a ha] at h'
    cases h'

theorem idling_state (h : exec step s₀ as = some u) (hb : step u b = some u)
    (idle : ∀ a, J a → step u a = none) (n : ℕ) :
    (idling h hb idle).state n = (exec step s₀ (as.take n)).getD u := rfl

/-- Past the actions of `as` the run is at `u`. -/
theorem idling_state_of_le (h : exec step s₀ as = some u) (hb : step u b = some u)
    (idle : ∀ a, J a → step u a = none) {n : ℕ} (hn : as.length ≤ n) :
    (idling h hb idle).state n = u := by
  rw [idling_state, List.take_of_length_le hn, h, Option.getD_some]

end Idling

end FairRun

end Transition
