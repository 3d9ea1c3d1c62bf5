import BulletTime.Balance.Delay

/-!
# Balance — Scopes

The same threads with each lock scope a step of its own, in any interleaving.

* `PC` and `advance`: where a thread is in its round, and the scope it enters next.
* `Advance` and `advance_cases`: its branches, each with the guard it is taken under.
* `Scope` and `advance_scope`: what that scope may be.
* `scopeStep`: a scope of `InitThreadData`, of a round or of a period.
* `handOff_scopes` and `atomic_run_scopes`: the scopes of a round, taken without interruption, are
  a hand-off, so the interleavings of scopes simulate the atomic machine.
-/

namespace BulletTime.Balance
open Transition

/-- Where a thread is in its round, with the locals it has read. -/
inductive PC where
  | idle
  | counted (x : Sample)
  | peaked (x : Sample) (l : Locals)
  | totaled (x : Sample) (l : Locals)
  | raised (x : Sample) (maxRatioSnapshot bufWorkRatio : ℚ)
  | slept (x : Sample) (extra : ℚ)
  | injected (x : Sample) (extra : ℚ)
  | balanced (x : Sample)
  deriving DecidableEq

/-- The scope a thread enters next. -/
def advance (cfg : Config) (i : ℕ) (s : Shared) : PC → Option (Shared × PC)
  | .idle => none
  | .counted x =>
      -- The size of the table only grows, so a thread that has seen a second one still does.
      if Balanced cfg s then
        x.work.map fun w => (peakScope i x s w, .peaked x (snapshot i (peakScope i x s w)))
      else some (s, .balanced x)
  | .peaked x l =>
      some (totalScope i x s,
        .totaled x { l with currFcalls := ((totalScope i x s).total i).totalFcalls })
  | .totaled x l =>
      match l.bufWorkRatio with
      | some r =>
          if l.skip then some (s, .balanced x)
          else if r > l.maxRatioSnapshot then
            some (raiseScope i s r, .raised x (raiseScope i s r).maxBufferWorkRatio r)
          else some (s, .raised x l.maxRatioSnapshot r)
      | none => some (s, .balanced x)
  | .raised x maxRatioSnapshot r =>
      match extraBuffers maxRatioSnapshot r with
      | some extra => some (writeDummy i x s extra, .slept x extra)
      | none => some (s, .balanced x)
  | .slept x extra => some (injectScope i x s, .injected x extra)
  | .injected x extra => some (dummyScope i s extra, .balanced x)
  | .balanced x => some (dataScope cfg i x s, .idle)

/-- A thread's next scope as a relation, a row for each branch of `advance` with its guards. -/
inductive Advance (cfg : Config) (i : ℕ) (s : Shared) : PC → Shared → PC → Prop where
  | peak {x : Sample} {w : ℚ} (hb : Balanced cfg s) (hw : x.work = some w) :
      Advance cfg i s (.counted x) (peakScope i x s w)
        (.peaked x (snapshot i (peakScope i x s w)))
  | unbalanced {x : Sample} (hb : ¬ Balanced cfg s) :
      Advance cfg i s (.counted x) s (.balanced x)
  | total {x : Sample} {l : Locals} :
      Advance cfg i s (.peaked x l) (totalScope i x s)
        (.totaled x { l with currFcalls := ((totalScope i x s).total i).totalFcalls })
  | noRatio {x : Sample} {l : Locals} (hr : l.bufWorkRatio = none) :
      Advance cfg i s (.totaled x l) s (.balanced x)
  | skip {x : Sample} {l : Locals} {r : ℚ} (hr : l.bufWorkRatio = some r)
      (hskip : l.skip = true) : Advance cfg i s (.totaled x l) s (.balanced x)
  | raise {x : Sample} {l : Locals} {r : ℚ} (hr : l.bufWorkRatio = some r)
      (hskip : ¬ l.skip = true) (hgt : r > l.maxRatioSnapshot) :
      Advance cfg i s (.totaled x l) (raiseScope i s r)
        (.raised x (raiseScope i s r).maxBufferWorkRatio r)
  | within {x : Sample} {l : Locals} {r : ℚ} (hr : l.bufWorkRatio = some r)
      (hskip : ¬ l.skip = true) (hle : ¬ r > l.maxRatioSnapshot) :
      Advance cfg i s (.totaled x l) s (.raised x l.maxRatioSnapshot r)
  | write {x : Sample} {m r extra : ℚ} (he : extraBuffers m r = some extra) :
      Advance cfg i s (.raised x m r) (writeDummy i x s extra) (.slept x extra)
  | noExtra {x : Sample} {m r : ℚ} (he : extraBuffers m r = none) :
      Advance cfg i s (.raised x m r) s (.balanced x)
  | inject {x : Sample} {extra : ℚ} :
      Advance cfg i s (.slept x extra) (injectScope i x s) (.injected x extra)
  | dummy {x : Sample} {extra : ℚ} :
      Advance cfg i s (.injected x extra) (dummyScope i s extra) (.balanced x)
  | data {x : Sample} : Advance cfg i s (.balanced x) (dataScope cfg i x s) .idle

section Advance
variable {cfg : Config} {i : ℕ} {s t : Shared} {q : PC}

/-- The branches of the decision, which is `bufWorkRatio`, `skip` and the snapshot in turn. -/
theorem advance_totaled {x : Sample} {l : Locals}
    (h : advance cfg i s (.totaled x l) = some (t, q)) : Advance cfg i s (.totaled x l) t q := by
  unfold advance at h
  dsimp only at h
  split at h
  · rename_i r hr
    split_ifs at h with hskip hgt
    · cases h
      exact .skip hr hskip
    · cases h
      exact .raise hr hskip hgt
    · cases h
      exact .within hr hskip hgt
  · rename_i hr
    cases h
    exact .noRatio hr

/-- **What a thread may do next**, and from where. -/
theorem advance_cases {p : PC} (h : advance cfg i s p = some (t, q)) : Advance cfg i s p t q := by
  cases p with
  | idle => cases h
  | counted x =>
      unfold advance at h
      split_ifs at h with hb
      · obtain ⟨w, hwork, hw⟩ := Option.map_eq_some_iff.mp h
        cases hw
        exact .peak hb hwork
      · cases h
        exact .unbalanced hb
  | peaked x l =>
      cases h
      exact .total
  | totaled x l => exact advance_totaled h
  | raised x m r =>
      unfold advance at h
      dsimp only at h
      split at h
      · rename_i extra he
        cases h
        exact .write he
      · rename_i he
        cases h
        exact .noExtra he
  | slept x extra =>
      cases h
      exact .inject
  | injected x extra =>
      cases h
      exact .dummy
  | balanced x =>
      cases h
      exact .data

end Advance

/-- The scopes of a round, and none. -/
inductive Scope (cfg : Config) (i : ℕ) (s : Shared) : Shared → Prop where
  | none : Scope cfg i s s
  | peak (x : Sample) (w : ℚ) : Scope cfg i s (peakScope i x s w)
  | total (x : Sample) : Scope cfg i s (totalScope i x s)
  | raise (r : ℚ) : Scope cfg i s (raiseScope i s r)
  | write (x : Sample) (extra : ℚ) : Scope cfg i s (writeDummy i x s extra)
  | inject (x : Sample) : Scope cfg i s (injectScope i x s)
  | dummy (extra : ℚ) : Scope cfg i s (dummyScope i s extra)
  | data (x : Sample) : Scope cfg i s (dataScope cfg i x s)

/-- **What a thread may do next** to the tables. -/
theorem advance_scope {cfg : Config} {i : ℕ} {s t : Shared} {p q : PC}
    (h : advance cfg i s p = some (t, q)) : Scope cfg i s t := by
  cases advance_cases h with
  | peak => exact .peak _ _
  | unbalanced => exact .none
  | total => exact .total _
  | noRatio => exact .none
  | skip => exact .none
  | raise => exact .raise _
  | within => exact .none
  | write => exact .write _ _
  | noExtra => exact .none
  | inject => exact .inject _
  | dummy => exact .dummy _
  | data => exact .data _

/-- Where `main` is in `InitThreadData`. -/
inductive InitPC where
  | done
  | inserted
  | pushed
  deriving DecidableEq

/-- The tables and where everyone is. -/
structure Scoped where
  shared : Shared := {}
  pc : ℕ → PC := fun _ => .idle
  init : InitPC := .done

/-- The next scope of `InitThreadData`, of a round, or of the control thread. -/
inductive ScopeAction where
  | init
  | begin (i : ℕ) (x : Sample)
  | next (i : ℕ)
  | period

/-- One scope. -/
def scopeStep (cfg : Config) (s : Scoped) : ScopeAction → Option Scoped
  | .init =>
      match s.init with
      | .done => some { s with shared := s.shared.initInsert, init := .inserted }
      | .inserted => some { s with shared := s.shared.initPeak, init := .pushed }
      | .pushed => some { s with shared := s.shared.initTotal, init := .done }
  | .begin i x =>
      match s.pc i with
      | .idle =>
          if i < s.shared.nTotal then
            some
              { s with
                shared := countScope cfg i x s.shared
                pc := Function.update s.pc i (.counted x) }
          else none
      | _ => none
  | .next i =>
      (advance cfg i s.shared (s.pc i)).map fun p =>
        { s with shared := p.1, pc := Function.update s.pc i p.2 }
  | .period => if cfg.dynamicControl then some { s with shared := period cfg s.shared } else none

section Step
variable {cfg : Config} {s t : Scoped} {i : ℕ} {x : Sample}

theorem scopeStep_begin (h : scopeStep cfg s (.begin i x) = some t) :
    s.pc i = .idle ∧ i < s.shared.nTotal ∧
      t = { s with
        shared := countScope cfg i x s.shared
        pc := Function.update s.pc i (.counted x) } := by
  unfold scopeStep at h
  dsimp only at h
  split at h
  · rename_i hpc
    split_ifs at h with hi
    exact ⟨hpc, hi, (Option.some.inj h).symm⟩
  · cases h

theorem scopeStep_next (h : scopeStep cfg s (.next i) = some t) :
    ∃ u p, advance cfg i s.shared (s.pc i) = some (u, p) ∧
      t = { s with shared := u, pc := Function.update s.pc i p } := by
  obtain ⟨⟨u, p⟩, hp, rfl⟩ := Option.map_eq_some_iff.mp h
  exact ⟨u, p, hp, rfl⟩

theorem scopeStep_period (h : scopeStep cfg s .period = some t) :
    t = { s with shared := period cfg s.shared } := by
  unfold scopeStep at h
  dsimp only at h
  split_ifs at h
  exact (Option.some.inj h).symm

end Step

/-! ### A round without interruption -/

/-- A thread alone. -/
def threadStep (cfg : Config) (i : ℕ) (q : Shared × PC) (_ : Unit) : Option (Shared × PC) :=
  advance cfg i q.1 q.2

section Alone
variable {cfg : Config} {i : ℕ} {x : Sample}

theorem threadStep_next {q₀ q q' : Shared × PC} (h : Reachable (threadStep cfg i) q₀ q)
    (ha : advance cfg i q.1 q.2 = some q') : Reachable (threadStep cfg i) q₀ q' :=
  h.next (a := ()) ha

/-- The scopes of an injection. -/
theorem threadStep_inject (s : Shared) (snap r : ℚ) :
    Reachable (threadStep cfg i) (s, .raised x snap r)
      ((match extraBuffers snap r with
        | some extra => (dummyScope i (injectScope i x (writeDummy i x s extra)) extra, some extra)
        | none => (s, none)).1, .balanced x) := by
  cases he : extraBuffers snap r with
  | none => exact threadStep_next (.refl _) (by simp only [advance, he])
  | some extra =>
      have hwrite : Reachable (threadStep cfg i) (s, .raised x snap r)
          (writeDummy i x s extra, .slept x extra) :=
        threadStep_next (.refl _) (by simp only [advance, he])
      exact threadStep_next (threadStep_next hwrite rfl) rfl

/-- The scopes of a delay. -/
theorem threadStep_delay (s : Shared) (l : Locals) {r : ℚ} (hr : l.bufWorkRatio = some r)
    (hskip : ¬ l.skip = true) :
    Reachable (threadStep cfg i) (s, .totaled x l) ((delay i x s l r).1, .balanced x) := by
  unfold delay
  by_cases h : r > l.maxRatioSnapshot
  · simp only [if_pos h]
    refine .trans (threadStep_next (.refl _) ?_) (threadStep_inject _ _ r)
    simp only [advance, hr, if_neg hskip, if_pos h]
  · simp only [if_neg h]
    refine .trans (threadStep_next (.refl _) ?_) (threadStep_inject _ _ r)
    simp only [advance, hr, if_neg hskip, if_neg h]

/-- The scopes of the balancing. -/
theorem threadStep_balance (s : Shared) (w : ℚ) :
    Reachable (threadStep cfg i)
      (peakScope i x s w, .peaked x (snapshot i (peakScope i x s w)))
      ((balance i x s w).1, .balanced x) := by
  refine .trans (threadStep_next (.refl _) rfl) ?_
  unfold balance
  dsimp only
  cases hr : (snapshot i (peakScope i x s w)).bufWorkRatio with
  | none =>
      refine threadStep_next (.refl _) ?_
      simp only [advance]
  | some r =>
      dsimp only
      split_ifs with hskip
      · refine threadStep_next (.refl _) ?_
        simp only [advance, if_pos hskip]
      · exact threadStep_delay _ _ rfl hskip

/-- **A hand-off** is a round of one thread alone. -/
theorem threadStep_handOff {s t : Shared} {extra : Option ℚ}
    (h : handOff cfg i x s = some (t, extra)) :
    Reachable (threadStep cfg i) (countScope cfg i x s, .counted x) (t, .idle) := by
  rcases handOff_cases cfg i x s h with ⟨hb, rfl, -⟩ | ⟨w, hb, hw, rfl, -⟩
  · have hcheck : Reachable (threadStep cfg i) (countScope cfg i x s, .counted x)
        (countScope cfg i x s, .balanced x) := threadStep_next (.refl _) (if_neg hb)
    exact threadStep_next hcheck rfl
  · refine threadStep_next (.trans (threadStep_next (.refl _) ?_) (threadStep_balance _ w)) rfl
    refine (if_pos hb).trans ?_
    rw [hw]
    rfl

/-- What a thread does alone it does among the others. -/
theorem Reachable.scopes {s : Scoped} {q : Shared × PC}
    (h : Reachable (threadStep cfg i) (s.shared, s.pc i) q) :
    Reachable (scopeStep cfg) s
      { s with shared := q.1, pc := Function.update s.pc i q.2 } := by
  refine h.invariant (I := fun q => Reachable (scopeStep cfg) s
    { s with shared := q.1, pc := Function.update s.pc i q.2 }) ?_ ?_
  · rw [Function.update_eq_self]
    exact .refl _
  · intro q a q' hq hstep
    refine hq.next (a := .next i) ?_
    have hpc : Function.update s.pc i q.2 i = q.2 := Function.update_self ..
    have hadvance : advance cfg i q.1 q.2 = some q' := hstep
    unfold scopeStep
    dsimp only
    rw [hpc, hadvance, Option.map_some, Function.update_idem]

/-- **The scopes of a round refine its hand-off**: taken without interruption, they lead from an
idle thread to the tables of the hand-off. -/
theorem handOff_scopes {s : Scoped} {t : Shared} {extra : Option ℚ} (hpc : s.pc i = .idle)
    (hi : i < s.shared.nTotal) (h : handOff cfg i x s.shared = some (t, extra)) :
    Reachable (scopeStep cfg) s { s with shared := t } := by
  have hbegin : scopeStep cfg s (.begin i x) = some { s with
      shared := countScope cfg i x s.shared
      pc := Function.update s.pc i (.counted x) } := by
    unfold scopeStep
    dsimp only
    rw [hpc]
    exact if_pos hi
  have halone : Reachable (threadStep cfg i)
      (countScope cfg i x s.shared, Function.update s.pc i (.counted x) i) (t, .idle) := by
    rw [Function.update_self]
    exact threadStep_handOff h
  have hround := Reachable.scopes (s := { s with
    shared := countScope cfg i x s.shared
    pc := Function.update s.pc i (.counted x) }) halone
  have hend : Function.update (Function.update s.pc i (.counted x)) i .idle = s.pc := by
    rw [Function.update_idem, ← hpc, Function.update_eq_self]
  rw [hend] at hround
  exact ((Reachable.refl s).next hbegin).trans hround

/-- The tables, with everyone idle. -/
def State.atRest (s : State) : Scoped := { shared := s.shared }

/-- A step keeps the tables of the same size. -/
theorem step_sizes {s t : State} {a : Action} (hn : s.shared.nTotal = s.shared.nPeak)
    (hs : step cfg s a = some t) : t.shared.nTotal = t.shared.nPeak := by
  cases a with
  | spawn =>
      cases hs
      exact congrArg (· + 1) hn
  | handOff i x =>
      obtain ⟨-, extra, he, -⟩ := step_handOff hs
      have hr := handOff_round cfg i x s.shared he
      rw [hr.sizes.1, hr.sizes.2, hn]
  | period =>
      cases step_period hs
      dsimp only
      rw [period_nTotal, period_nPeak, hn]

/-- One atomic step, scope by scope. -/
theorem step_scopes {s t : State} {a : Action} (hn : s.shared.nTotal = s.shared.nPeak)
    (hs : step cfg s a = some t) : Reachable (scopeStep cfg) s.atRest t.atRest := by
  cases a with
  | spawn =>
      cases hs
      exact (((Reachable.refl s.atRest).next (a := .init) rfl).next (a := .init) rfl).next
        (a := .init) rfl
  | handOff i x =>
      obtain ⟨hi, extra, he, -⟩ := step_handOff hs
      exact handOff_scopes (s := s.atRest) rfl (hn ▸ hi) he
  | period =>
      have ht := step_period hs
      unfold step at hs
      dsimp only at hs
      split_ifs at hs with hctl
      rw [ht]
      exact (Reachable.refl s.atRest).next (a := .period) (if_pos hctl)

/-- **The scopes simulate the atomic machine**: whatever tables it reaches, an interleaving of
scopes reaches. -/
theorem atomic_run_scopes {as : List Action} {s : State} (h : exec (step cfg) {} as = some s) :
    Reachable (scopeStep cfg) {} s.atRest := by
  exact simulates_run (f := State.atRest) (I := fun s => s.shared.nTotal = s.shared.nPeak) rfl
    (fun _ _ _ hn _ hs => step_sizes hn hs) (fun _ _ _ hn _ hs => step_scopes hn hs)
    everyStep_true h

end Alone

end BulletTime.Balance
