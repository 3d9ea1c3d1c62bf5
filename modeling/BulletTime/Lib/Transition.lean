import Mathlib.Data.List.Induction
import Mathlib.Tactic.Push

/-!
# Lib — Transition

Runs of a transition function `step : σ → α → Option σ`, where `step s a = none` says that the
action `a` is not enabled at `s`.

* `exec` runs a list of actions; `exec_snoc` exposes the last one.
* `Reachable.invariant`: what holds at the start and is kept by every step holds at every
  reachable state.
* `EveryStep` and `EveryState` say that a condition on the steps, or a property of the states,
  holds all along one run.  `EveryStep.invariant` is the invariant rule for the runs whose steps
  all meet a condition, `EveryStep.everyState` its conclusion about the states passed, and
  `EveryState.everyStep` goes back from the states to the steps.
* `SomeStep`: a step of the run meets a condition, the negation of `EveryStep`.
* `countP_le_of_variant`: a measure bounds the steps of a kind in a run that stays in a region.
* `simulates_run`: a map that sends every step to a run of a second machine sends runs to runs.
* `exists_run_below`: a machine built on a second one runs it, with what holds of its steps.
-/

namespace Transition

variable {σ τ α β : Type*}

/-- Run the actions `as` from `s`; `none` as soon as one of them is not enabled. -/
def exec (step : σ → α → Option σ) : σ → List α → Option σ
  | s, [] => some s
  | s, a :: as => (step s a).bind fun t => exec step t as

section Exec
variable {step : σ → α → Option σ}

@[simp] theorem exec_nil (s : σ) : exec step s [] = some s := rfl

@[simp] theorem exec_cons (s : σ) (a : α) (as : List α) :
    exec step s (a :: as) = (step s a).bind fun t => exec step t as := rfl

theorem exec_append (s : σ) (as bs : List α) :
    exec step s (as ++ bs) = (exec step s as).bind fun t => exec step t bs := by
  induction as generalizing s with
  | nil => rfl
  | cons a as ih =>
      cases h : step s a with
      | none => simp [h]
      | some t => simp [h, ih t]

theorem exec_snoc {s u : σ} {as : List α} {a : α} :
    exec step s (as ++ [a]) = some u ↔ ∃ t, exec step s as = some t ∧ step t a = some u := by
  rw [exec_append, Option.bind_eq_some_iff]
  refine exists_congr fun t => and_congr_right fun _ => ?_
  rw [exec_cons, Option.bind_eq_some_iff]
  simp only [exec_nil, Option.some.injEq, exists_eq_right]

theorem exec_split {s u : σ} {as bs : List α} :
    exec step s (as ++ bs) = some u ↔ ∃ t, exec step s as = some t ∧ exec step t bs = some u := by
  rw [exec_append, Option.bind_eq_some_iff]

/-- Induction on a run, last step first. -/
theorem exec_induction {s₀ : σ} {P : List α → σ → Prop} (nil : P [] s₀)
    (snoc : ∀ as a s t, exec step s₀ as = some s → P as s → step s a = some t → P (as ++ [a]) t) :
    ∀ {as s}, exec step s₀ as = some s → P as s := by
  intro as
  induction as using List.reverseRecOn with
  | nil => intro s h; cases h; exact nil
  | append_singleton as a ih =>
      intro s h
      obtain ⟨t, ht, hs⟩ := exec_snoc.mp h
      exact snoc as a t s ht (ih ht) hs

end Exec

/-! ### Reachable states -/

/-- `s` is reached from `s₀` by some run. -/
def Reachable (step : σ → α → Option σ) (s₀ s : σ) : Prop := ∃ as, exec step s₀ as = some s

section Reachable
variable {step : σ → α → Option σ} {s₀ s t : σ}

theorem Reachable.refl (s : σ) : Reachable step s s := ⟨[], rfl⟩

theorem Reachable.next {a : α} (h : Reachable step s₀ s) (hs : step s a = some t) :
    Reachable step s₀ t := by
  obtain ⟨as, ha⟩ := h
  exact ⟨as ++ [a], exec_snoc.mpr ⟨s, ha, hs⟩⟩

theorem Reachable.trans {u : σ} (h : Reachable step s₀ s) (h' : Reachable step s u) :
    Reachable step s₀ u := by
  obtain ⟨as, ha⟩ := h
  obtain ⟨bs, hb⟩ := h'
  exact ⟨as ++ bs, exec_split.mpr ⟨s, ha, hb⟩⟩

/-- **The invariant rule.** -/
theorem Reachable.invariant {I : σ → Prop} (init : I s₀)
    (keep : ∀ s a t, I s → step s a = some t → I t) (h : Reachable step s₀ s) : I s := by
  obtain ⟨as, ha⟩ := h
  exact exec_induction (P := fun _ s => I s) init (fun _ a s t _ hi hs => keep s a t hi hs) ha

end Reachable

/-! ### Conditions along a run -/

/-- Every step of the run `as` from `s₀` meets `C`, a condition on the state before it and the
action taken. -/
def EveryStep (step : σ → α → Option σ) (s₀ : σ) (as : List α) (C : σ → α → Prop) : Prop :=
  ∀ bs a cs s, as = bs ++ a :: cs → exec step s₀ bs = some s → C s a

/-- Every state the run `as` from `s₀` passes, the first and the last included, meets `P`. -/
def EveryState (step : σ → α → Option σ) (s₀ : σ) (as : List α) (P : σ → Prop) : Prop :=
  ∀ bs cs s, as = bs ++ cs → exec step s₀ bs = some s → P s

/-- Some step of the run `as` from `s₀` meets `C`. -/
def SomeStep (step : σ → α → Option σ) (s₀ : σ) (as : List α) (C : σ → α → Prop) : Prop :=
  ∃ bs a cs s, as = bs ++ a :: cs ∧ exec step s₀ bs = some s ∧ C s a

section Along
variable {step : σ → α → Option σ} {s₀ s t : σ} {as : List α} {a : α}

theorem everyStep_nil {C : σ → α → Prop} : EveryStep step s₀ [] C := by
  intro bs a cs s h
  simp at h

theorem everyStep_snoc {C : σ → α → Prop} (h : exec step s₀ as = some s) :
    EveryStep step s₀ (as ++ [a]) C ↔ EveryStep step s₀ as C ∧ C s a := by
  refine ⟨fun hC => ⟨fun bs b cs r e hr => ?_, hC as a [] s rfl h⟩,
    fun ⟨hC, ha⟩ bs b cs r e hr => ?_⟩
  · exact hC bs b (cs ++ [a]) r (by rw [e]; simp) hr
  · cases cs using List.reverseRecOn with
    | nil =>
        obtain ⟨rfl, hab⟩ := List.append_inj' e rfl
        obtain rfl : a = b := by simpa using hab
        rw [h] at hr
        cases hr
        exact ha
    | append_singleton cs c =>
        rw [← List.cons_append, ← List.append_assoc] at e
        exact hC bs b cs r (List.append_inj' e rfl).1 hr

theorem everyStep_cons {C : σ → α → Prop} : EveryStep step s (a :: as) C ↔
    C s a ∧ ∀ t ∈ step s a, EveryStep step t as C := by
  refine ⟨fun h => ⟨h [] a as s rfl rfl, fun t ht bs b cs r e hr => ?_⟩,
    fun ⟨ha, h⟩ bs b cs r e hr => ?_⟩
  · refine h (a :: bs) b cs r (by rw [e]; rfl) ?_
    rw [exec_cons, Option.mem_def.mp ht]
    exact hr
  · cases bs with
    | nil =>
        obtain ⟨rfl, rfl⟩ := List.cons.inj e
        cases hr
        exact ha
    | cons c bs =>
        obtain ⟨rfl, rfl⟩ := List.cons.inj e
        obtain ⟨t, ht, hr⟩ := Option.bind_eq_some_iff.mp hr
        exact h t ht bs b cs r rfl hr

/-- A decidable condition is decided along a run by taking it. -/
instance decidableEveryStep {C : σ → α → Prop} [∀ s a, Decidable (C s a)] :
    ∀ (s : σ) (as : List α), Decidable (EveryStep step s as C)
  | _, [] => isTrue everyStep_nil
  | _, _ :: as =>
      have : ∀ t, Decidable (EveryStep step t as C) := fun t => decidableEveryStep t as
      decidable_of_iff' _ everyStep_cons

/-- A condition on the actions alone. -/
theorem everyStep_of_forall {C : σ → α → Prop} (h : ∀ a ∈ as, ∀ s, C s a) :
    EveryStep step s₀ as C := by
  intro bs a cs s e _
  exact h a (by rw [e]; simp) s

/-- No condition at all. -/
theorem everyStep_true : EveryStep step s₀ as fun _ _ => True :=
  everyStep_of_forall fun _ _ _ => trivial

theorem not_everyStep {C : σ → α → Prop} :
    ¬ EveryStep step s₀ as C ↔ SomeStep step s₀ as fun s a => ¬ C s a := by
  unfold EveryStep SomeStep
  push Not
  rfl

theorem EveryStep.mono {C D : σ → α → Prop} (hC : EveryStep step s₀ as C)
    (h : ∀ s a, C s a → D s a) : EveryStep step s₀ as D :=
  fun bs a cs s e hs => h s a (hC bs a cs s e hs)

theorem someStep_snoc {C : σ → α → Prop} (h : exec step s₀ as = some s) :
    SomeStep step s₀ (as ++ [a]) C ↔ SomeStep step s₀ as C ∨ C s a := by
  have key := (everyStep_snoc (C := fun s a => ¬ C s a) (a := a) h).not
  rw [not_everyStep, not_and_or, not_everyStep] at key
  simpa only [not_not] using key

/-- A property of every state of a run holds of the last one. -/
theorem EveryState.last {P : σ → Prop} (h : EveryState step s₀ as P)
    (hs : exec step s₀ as = some s) : P s :=
  h as [] s (List.append_nil as).symm hs

/-- **The invariant rule along a run** whose steps all meet `C`. -/
theorem EveryStep.invariant {C : σ → α → Prop} {I : σ → Prop} (init : I s₀)
    (keep : ∀ s a t, I s → C s a → step s a = some t → I t)
    (hC : EveryStep step s₀ as C) (h : exec step s₀ as = some s) : I s := by
  refine exec_induction (P := fun as s => EveryStep step s₀ as C → I s) (fun _ => init)
    (fun as a s t hs ih ht hC => ?_) h hC
  obtain ⟨hC, ha⟩ := (everyStep_snoc hs).mp hC
  exact keep s a t (ih hC) ha ht

/-- What the invariant of such a run implies holds of every state the run passes. -/
theorem EveryStep.everyState {C : σ → α → Prop} {I P : σ → Prop} (init : I s₀)
    (keep : ∀ s a t, I s → C s a → step s a = some t → I t) (out : ∀ s, I s → P s)
    (hC : EveryStep step s₀ as C) : EveryState step s₀ as P := by
  intro bs cs s e hs
  have hC' : EveryStep step s₀ bs C := fun ds a es r e' hr =>
    hC ds a (es ++ cs) r (by rw [e, e']; simp) hr
  exact out s (hC'.invariant init keep hs)

/-- Where a property that holds after a step implies a condition on that step, a run whose states
all have the property takes only steps that meet the condition. -/
theorem EveryState.everyStep {C : σ → α → Prop} {I P : σ → Prop} (init : I s₀)
    (keep : ∀ s a t, I s → step s a = some t → I t)
    (out : ∀ s a t, I s → step s a = some t → P t → C s a)
    (hP : EveryState step s₀ as P) (h : exec step s₀ as = some s) :
    EveryStep step s₀ as C := by
  intro bs a cs r e hr
  rw [e] at h
  obtain ⟨r', hr', hcs⟩ := exec_split.mp h
  obtain rfl : r = r' := Option.some.inj (hr.symm.trans hr')
  obtain ⟨t, ht, -⟩ := Option.bind_eq_some_iff.mp hcs
  have hI : I r := Reachable.invariant init keep ⟨bs, hr⟩
  refine out r a t hI ht (hP (bs ++ [a]) cs t ?_ (exec_snoc.mpr ⟨r, hr, ht⟩))
  rw [e, List.append_assoc, List.singleton_append]

/-- Along a run whose steps all meet `H`, what follows from `H` and the invariant. -/
theorem EveryStep.implies {C H : σ → α → Prop} {I : σ → Prop} (init : I s₀)
    (keep : ∀ s a t, I s → H s a → step s a = some t → I t)
    (hC : ∀ s a, I s → H s a → C s a) (hH : EveryStep step s₀ as H) : EveryStep step s₀ as C := by
  intro bs a cs r e hr
  have hH' : EveryStep step s₀ bs H := fun ds b es q e' hq =>
    hH ds b (es ++ a :: cs) q (by rw [e, e']; simp) hq
  exact hC r a (hH'.invariant init keep hr) (hH bs a cs r e hr)

/-- Along a run whose steps all meet `H`, two conditions that agree where the invariant holds. -/
theorem EveryStep.congr {C D H : σ → α → Prop} {I : σ → Prop} (init : I s₀)
    (keep : ∀ s a t, I s → H s a → step s a = some t → I t)
    (hCD : ∀ s a, I s → H s a → (C s a ↔ D s a)) (hH : EveryStep step s₀ as H) :
    EveryStep step s₀ as C ↔ EveryStep step s₀ as D := by
  have key : EveryStep step s₀ as fun s a => C s a ↔ D s a := hH.implies init keep hCD
  exact ⟨fun h bs a cs r e hr => (key bs a cs r e hr).mp (h bs a cs r e hr),
    fun h bs a cs r e hr => (key bs a cs r e hr).mpr (h bs a cs r e hr)⟩

theorem everyState_snoc {P : σ → Prop} (h : exec step s₀ as = some s) (ht : step s a = some t) :
    EveryState step s₀ (as ++ [a]) P ↔ EveryState step s₀ as P ∧ P t := by
  constructor
  · intro hP
    refine ⟨fun bs cs r e hr => hP bs (cs ++ [a]) r (by rw [e]; simp) hr, ?_⟩
    exact hP.last (exec_snoc.mpr ⟨s, h, ht⟩)
  · rintro ⟨hP, hPt⟩ bs cs r e hr
    cases cs using List.reverseRecOn with
    | nil =>
        rw [List.append_nil] at e
        subst e
        obtain ⟨s', hs', ht'⟩ := exec_snoc.mp hr
        rw [h] at hs'
        cases hs'
        rw [ht] at ht'
        cases ht'
        exact hPt
    | append_singleton cs c =>
        rw [← List.append_assoc] at e
        exact hP bs cs r (List.append_inj' e rfl).1 hr

/-- A property that every step meeting `C` breaks, and that no step mends, fails at the end of a
run that takes such a step; the steps may use what holds of every state of the run. -/
theorem SomeStep.reaches_of_everyState {C : σ → α → Prop} {I B P : σ → Prop} (init : I s₀)
    (keep : ∀ s a t, I s → step s a = some t → I t)
    (breaks : ∀ s a t, I s → C s a → step s a = some t → P t → B t)
    (stays : ∀ s a t, I s → B s → step s a = some t → P t → B t)
    (hC : SomeStep step s₀ as C) (hP : EveryState step s₀ as P) (h : exec step s₀ as = some s) :
    B s := by
  refine (exec_induction
    (P := fun as s => I s ∧ (SomeStep step s₀ as C → EveryState step s₀ as P → B s))
    ⟨init, fun hC => ?_⟩ (fun as a s t hs ih ht => ⟨keep s a t ih.1 ht, fun hC hP => ?_⟩) h).2 hC hP
  · obtain ⟨bs, a, cs, -, e, -⟩ := hC
    simp at e
  · obtain ⟨hP, hPt⟩ := (everyState_snoc hs ht).mp hP
    rcases (someStep_snoc hs).mp hC with hC | hC
    · exact stays s a t ih.1 (ih.2 hC hP) ht hPt
    · exact breaks s a t ih.1 hC ht hPt

/-- A property that every step meeting `C` breaks, and that no step mends, fails at the end of a
run that takes such a step. -/
theorem SomeStep.reaches {C : σ → α → Prop} {I B : σ → Prop} (init : I s₀)
    (keep : ∀ s a t, I s → step s a = some t → I t)
    (breaks : ∀ s a t, I s → C s a → step s a = some t → B t)
    (stays : ∀ s a t, I s → B s → step s a = some t → B t)
    (hC : SomeStep step s₀ as C) (h : exec step s₀ as = some s) : B s :=
  hC.reaches_of_everyState (P := fun _ => True) init keep
    (fun s a t hI hC ht _ => breaks s a t hI hC ht) (fun s a t hI hB ht _ => stays s a t hI hB ht)
    (fun _ _ _ _ _ => trivial) h

end Along

/-! ### Variants -/

/-- **The variant rule.**  In a run that stays in `Q` a measure bounds the number of actions in `J`,
if each of them lowers it and no action raises it. -/
theorem countP_le_of_variant {step : σ → α → Option σ} {I Q : σ → Prop} {J : α → Bool} {m : σ → ℕ}
    {s₀ s : σ} {as : List α} (init : I s₀) (keep : ∀ s a t, I s → step s a = some t → I t)
    (lower : ∀ s a t, I s → Q s → step s a = some t → Q t →
      m t + (if J a = true then 1 else 0) ≤ m s)
    (hQ : EveryState step s₀ as Q) (h : exec step s₀ as = some s) : as.countP J ≤ m s₀ := by
  have key : I s ∧ (EveryState step s₀ as Q → m s + as.countP J ≤ m s₀) := by
    refine exec_induction
      (P := fun as s => I s ∧ (EveryState step s₀ as Q → m s + as.countP J ≤ m s₀))
      ⟨init, fun _ => Nat.le_refl _⟩ (fun as a s t hs ih ht => ⟨keep s a t ih.1 ht, fun hQ => ?_⟩) h
    obtain ⟨hQ, hQt⟩ := (everyState_snoc hs ht).mp hQ
    have hstep := lower s a t ih.1 (hQ.last hs) ht hQt
    have hrun := ih.2 hQ
    rw [List.countP_append, List.countP_singleton]
    omega
  exact Nat.le_trans (Nat.le_add_left _ _) (key.2 hQ)

/-! ### Simulation -/

/-- **Simulation.**  If `f` sends every step from a state meeting the invariant `I` to a run of
the second machine, it sends every run to a run. -/
theorem simulates_run {step : σ → α → Option σ} {step' : τ → β → Option τ} {f : σ → τ}
    {I : σ → Prop} {C : σ → α → Prop} {s₀ s : σ} {as : List α} (init : I s₀)
    (keep : ∀ s a t, I s → C s a → step s a = some t → I t)
    (sim : ∀ s a t, I s → C s a → step s a = some t → Reachable step' (f s) (f t))
    (hC : EveryStep step s₀ as C) (h : exec step s₀ as = some s) :
    Reachable step' (f s₀) (f s) := by
  refine (hC.invariant (I := fun s => I s ∧ Reachable step' (f s₀) (f s)) ⟨init, .refl _⟩
    (fun s a t hi ha ht => ⟨keep s a t hi.1 ha ht, ?_⟩) h).2
  exact hi.2.trans (sim s a t hi.1 ha ht)

/-- **The run seen from below.**  Where each step is the step `g s a` of a second machine, or none
of it, a run is a run of the second machine, with the same conditions met all along. -/
theorem exists_run_below {step : σ → α → Option σ} {step' : τ → β → Option τ} {f : σ → τ}
    {g : σ → α → Option β} {s₀ s : σ} {as : List α}
    (silent : ∀ s a t, step s a = some t → g s a = none → f t = f s)
    (call : ∀ s a t b, step s a = some t → g s a = some b → step' (f s) b = some (f t))
    (h : exec step s₀ as = some s) :
    ∃ bs, exec step' (f s₀) bs = some (f s) ∧ ∀ D : τ → β → Prop,
      EveryStep step' (f s₀) bs D ↔ EveryStep step s₀ as fun s a => ∀ b ∈ g s a, D (f s) b := by
  refine exec_induction (P := fun as s => ∃ bs, exec step' (f s₀) bs = some (f s) ∧
    ∀ D : τ → β → Prop, EveryStep step' (f s₀) bs D ↔
      EveryStep step s₀ as fun s a => ∀ b ∈ g s a, D (f s) b) ⟨[], rfl, fun D => ?_⟩ ?_ h
  · exact iff_of_true everyStep_nil everyStep_nil
  rintro as a s t hs ⟨bs, hbs, hD⟩ ht
  cases hg : g s a with
  | none =>
      refine ⟨bs, hbs.trans (congrArg some (silent s a t ht hg).symm), fun D => ?_⟩
      rw [everyStep_snoc hs, hD, hg]
      exact (and_iff_left nofun).symm
  | some b =>
      refine ⟨bs ++ [b], exec_snoc.mpr ⟨f s, hbs, call s a t b ht hg⟩, fun D => ?_⟩
      rw [everyStep_snoc hs, everyStep_snoc hbs, hD, hg]
      refine and_congr_right fun _ => ⟨fun hb c hc => ?_, fun hb => hb b rfl⟩
      cases hc
      exact hb

end Transition
