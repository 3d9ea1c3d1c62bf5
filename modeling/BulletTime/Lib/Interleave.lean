import Mathlib.Logic.Function.Basic
import BulletTime.Lib.Transition

/-!
# Lib — Interleave

Any number of copies of one machine, one of them moving at a time.

* `exec_lift`: a run of one copy is a run of all, the others standing still.
* `exec_proj`: what one copy does in a run of all is a run of it.
* `reachable_lift` and `reachable_proj`: so a copy reaches the same states alone and among the
  others.
-/

namespace Transition

variable {ι σ α : Type*} [DecidableEq ι] {step : σ → α → Option σ}

/-- One step of the copy named first. -/
def interleave (step : σ → α → Option σ) (s : ι → σ) (a : ι × α) : Option (ι → σ) :=
  (step (s a.1) a.2).map (Function.update s a.1)

theorem interleave_eq_some {s t : ι → σ} {a : ι × α} :
    interleave step s a = some t ↔
      ∃ p, step (s a.1) a.2 = some p ∧ t = Function.update s a.1 p := by
  rw [interleave, Option.map_eq_some_iff]
  exact exists_congr fun p => and_congr_right fun _ => eq_comm

/-- **A copy runs among the others.** -/
theorem exec_lift {s : ι → σ} {i : ι} {as : List α} {p : σ} (h : exec step (s i) as = some p) :
    exec (interleave step) s (as.map (Prod.mk i)) = some (Function.update s i p) := by
  induction as generalizing s with
  | nil =>
      obtain rfl := Option.some.inj h
      simp
  | cons a as ih =>
      obtain ⟨q, hq, hp⟩ := Option.bind_eq_some_iff.mp h
      rw [List.map_cons, exec_cons, interleave, hq]
      have hq' : Function.update s i q i = q := Function.update_self _ _ _
      rw [← hq'] at hp
      rw [Option.map_some, Option.bind_some, ih hp, Function.update_idem]

/-- **What a copy does among the others** it does alone. -/
theorem exec_proj {s t : ι → σ} {as : List (ι × α)} (h : exec (interleave step) s as = some t)
    (i : ι) : Reachable step (s i) (t i) := by
  induction as generalizing s with
  | nil =>
      obtain rfl := Option.some.inj h
      exact .refl _
  | cons a as ih =>
      obtain ⟨r, hr, ht⟩ := Option.bind_eq_some_iff.mp h
      obtain ⟨p, hp, rfl⟩ := interleave_eq_some.mp hr
      refine .trans ?_ (ih ht)
      by_cases hi : i = a.1
      · subst hi
        rw [Function.update_self]
        exact Reachable.refl _ |>.next hp
      · rw [Function.update_of_ne hi]
        exact .refl _

theorem reachable_lift {s : ι → σ} {i : ι} {p : σ} (h : Reachable step (s i) p) :
    Reachable (interleave step) s (Function.update s i p) := by
  obtain ⟨as, ha⟩ := h
  exact ⟨_, exec_lift ha⟩

theorem reachable_proj {s t : ι → σ} (h : Reachable (interleave step) s t) (i : ι) :
    Reachable step (s i) (t i) := by
  obtain ⟨as, ha⟩ := h
  exact exec_proj ha i

end Transition
