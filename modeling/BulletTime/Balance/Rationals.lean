import BulletTime.Balance.Finiteness
import BulletTime.Balance.Scopes

/-!
# Balance — Rationals

The scopes over rationals, in which a work that is no number ends the run, are those over doubles:
wherever the first get, the second get too, with the same tables and everyone at the same place.

* `Tables.ofShared`: the tables over rationals, as tables of doubles.  The scopes commute with it
  (`ofShared_peakScope` and the others), and so does a period (`ofShared_period`).
* `Follows`: a thread is at the same place of its round in both machines.  The scopes that write
  none of the tables of doubles are no step there.
* `advance_follows`: the next scope of a round.
* `Simulates` and `scopes_simulated`: every run of the scopes.
-/

namespace BulletTime.Balance.Doubles
open Transition Double

/-! ### The tables -/

def PeakEntry.ofRat (e : Balance.PeakEntry) : PeakEntry where
  nBuffers := .fin e.nBuffers
  nWork := .fin e.nWork
  totalWork := .fin e.totalWork
  lastWork := .fin e.lastWork

def TotalEntry.ofTotal (e : Balance.TotalEntry) : TotalEntry where
  totalFcalls := e.totalFcalls
  totalInstructions := e.totalInstructions
  totalMemIns := e.totalMemIns
  totalBuffersProcessed := e.totalBuffersProcessed

def Tables.ofShared (s : Shared) : Tables where
  nPeak := s.nPeak
  nTotal := s.nTotal
  peak := PeakEntry.ofRat ∘ s.peak
  total := TotalEntry.ofTotal ∘ s.total
  maxBufferWorkRatio := .fin s.maxBufferWorkRatio

section Scopes
variable (cfg : Config) (i : ℕ) (x : Sample) (s : Shared)

theorem ofShared_modPeak {f : Balance.PeakEntry → Balance.PeakEntry} {g : PeakEntry → PeakEntry}
    (h : ∀ e, PeakEntry.ofRat (f e) = g (.ofRat e)) :
    Tables.ofShared (s.modPeak i f) = (Tables.ofShared s).modPeak i g := by
  simp only [Tables.ofShared, Shared.modPeak, Function.comp_update, h]
  rfl

theorem ofShared_modTotal {f : Balance.TotalEntry → Balance.TotalEntry}
    {g : TotalEntry → TotalEntry} (h : ∀ e, TotalEntry.ofTotal (f e) = g (.ofTotal e)) :
    Tables.ofShared (s.modTotal i f) = (Tables.ofShared s).modTotal i g := by
  simp only [Tables.ofShared, Shared.modTotal, Function.comp_update, h]
  rfl

theorem modPeak_id (t : Tables) : t.modPeak i id = t := by
  rw [Tables.modPeak, id, Function.update_eq_self]

theorem modTotal_id (t : Tables) : t.modTotal i id = t := by
  rw [Tables.modTotal, id, Function.update_eq_self]

theorem ofShared_initPeak : Tables.ofShared s.initPeak = (Tables.ofShared s).initPeak := by
  simp only [Tables.ofShared, Shared.initPeak, Function.comp_update]
  rfl

theorem ofShared_initTotal : Tables.ofShared s.initTotal = (Tables.ofShared s).initTotal := by
  simp only [Tables.ofShared, Shared.initTotal, Function.comp_update]
  rfl

theorem ofShared_countScope :
    Tables.ofShared (countScope cfg i x s) = (Tables.ofShared s).countScope i :=
  ofShared_modTotal i s fun _ => rfl

theorem ofShared_peakScope (w : ℚ) :
    Tables.ofShared (peakScope i x s w) = (Tables.ofShared s).peakScope i (.fin w) :=
  ofShared_modPeak i s fun _ => rfl

theorem ofShared_totalScope :
    Tables.ofShared (totalScope i x s) = (Tables.ofShared s).totalScope i x :=
  ofShared_modTotal i s fun _ => rfl

theorem ofShared_raiseScope (r : ℚ) :
    Tables.ofShared (raiseScope i s r) = (Tables.ofShared s).raiseScope (.fin r) := by
  simp only [Tables.ofShared, raiseScope, Tables.raiseScope, Double.lt, decide_eq_true_eq,
    gt_iff_lt, apply_ite Double.fin]

theorem ofShared_writeDummy (extra : ℚ) :
    Tables.ofShared (writeDummy i x s extra) = Tables.ofShared s := by
  rw [← modTotal_id i (Tables.ofShared s)]
  exact ofShared_modTotal i s fun _ => rfl

theorem ofShared_injectScope : Tables.ofShared (injectScope i x s) = Tables.ofShared s := by
  rw [← modPeak_id i (Tables.ofShared s)]
  exact ofShared_modPeak i s fun _ => rfl

theorem ofShared_dummyScope (extra : ℚ) :
    Tables.ofShared (dummyScope i s extra) = Tables.ofShared s := by
  rw [← modTotal_id i (Tables.ofShared s)]
  exact ofShared_modTotal i s fun _ => rfl

end Scopes

/-! ### A period -/

section Period
variable (e : Balance.PeakEntry)

theorem eq_ofRat : (PeakEntry.ofRat e).nWork.eq (PeakEntry.ofRat e).lastWork = e.idle := rfl

/-- The ratio over zero work is not finite. -/
theorem not_isFinite_ratio (h : e.ratio = none) : ¬ (PeakEntry.ofRat e).ratio.IsFinite := by
  have hzero : e.nWork = 0 := by
    by_contra hne
    rw [Balance.PeakEntry.ratio, if_neg hne] at h
    cases h
  rw [PeakEntry.ratio, PeakEntry.ofRat, hzero]
  exact not_isFinite_fin_div_zero _

theorem ratio_ofRat {r : ℚ} (h : e.ratio = some r) :
    (PeakEntry.ofRat e).ratio = .fin r ∧ r = e.nBuffers / e.nWork ∧ e.nWork ≠ 0 := by
  obtain ⟨hne, h⟩ := Option.ite_none_left_eq_some.mp h
  obtain rfl := Option.some.inj h
  exact ⟨fin_div hne, rfl, hne⟩

/-- A ratio that is not finite is skipped. -/
theorem skip_of_not_isFinite {tWork r : Double} {fcalls : ℕ} (h : ¬ r.IsFinite) :
    skipOverheadBalancing tWork r fcalls = true := by
  rw [isFinite_iff, not_not] at h
  rw [skipOverheadBalancing, h, Bool.true_or]

theorem ofRat_decay : PeakEntry.ofRat e.decay = (PeakEntry.ofRat e).decay := by
  rw [PeakEntry.decay, PeakEntry.scaled, eq_ofRat, Balance.PeakEntry.decay,
    Balance.PeakEntry.scaled]
  split_ifs <;> rfl

/-- What the loop counts at one thread. -/
theorem newMaxRatio_ofRat (fcalls : ℕ) (acc : ℚ) :
    (PeakEntry.ofRat e).newMaxRatio fcalls (.fin acc) =
      .fin ((e.countedRatio fcalls).elim acc (max acc)) := by
  rw [PeakEntry.newMaxRatio, eq_ofRat, PeakEntry.countedRatio]
  by_cases hi : e.idle = true
  · rw [if_pos hi, if_pos (.inl hi)]
    rfl
  · rw [if_neg hi]
    cases hr : e.ratio with
    | none =>
        rw [skip_of_not_isFinite (not_isFinite_ratio e hr), ite_self]
        rfl
    | some r =>
        rw [(ratio_ofRat e hr).1]
        by_cases hf : fcalls = 0
        · subst hf
          have hcounted : (if e.idle = true ∨ (0 : ℕ) = 0 then none else some r) = none :=
            if_pos (.inr rfl)
          rw [hcounted]
          rfl
        · have hskip : skipOverheadBalancing (PeakEntry.ofRat e).totalWork (.fin r) fcalls =
              false := beq_eq_false_iff_ne.mpr hf
          rw [if_neg (not_or.mpr ⟨hi, hf⟩), hskip, Option.elim_some, ← raised]
          simp only [Bool.not_false, Bool.true_and, Double.lt, decide_eq_true_eq, gt_iff_lt,
            apply_ite Double.fin]

/-- **The loop of a period** finds the same new peak. -/
theorem foldl_newMaxRatio (s : Shared) (n : ℕ) :
    (List.range n).foldl (fun acc i => ((Tables.ofShared s).peak i).newMaxRatio
      ((Tables.ofShared s).total i).totalFcalls acc) (.fin 0) =
      .fin (RunningMax.runningMax 0 (counted s n)) := by
  induction n with
  | zero => rfl
  | succ n ih =>
      have hsucc : counted s (n + 1) = counted s n ++
          ((s.peak n).countedRatio (s.total n).totalFcalls).toList := filterMap_range_succ _ n
      rw [List.range_succ, List.foldl_append, ih, hsucc, RunningMax.runningMax_append_toList]
      exact newMaxRatio_ofRat (s.peak n) _ _

theorem ofShared_period (cfg : Config) (s : Shared) :
    Tables.ofShared (Balance.period cfg s) = period cfg (Tables.ofShared s) := by
  have hpeak : PeakEntry.ofRat ∘ (Balance.period cfg s).peak = fun j =>
      if cfg.overheadBalancing = true ∧ j < s.nPeak then (PeakEntry.ofRat (s.peak j)).decay
      else PeakEntry.ofRat (s.peak j) := by
    funext j
    rw [Function.comp_apply, period_peak, apply_ite PeakEntry.ofRat, ofRat_decay]
  have htotal : (Balance.period cfg s).total = s.total := funext fun j => period_fcalls s j
  rw [Tables.ofShared, hpeak, htotal, period_nPeak, period_nTotal, period_max, period]
  by_cases ho : cfg.overheadBalancing = true
  · simp only [ho, if_true, true_and]
    rw [show (Tables.ofShared s).nPeak = s.nPeak from rfl, foldl_newMaxRatio]
    rfl
  · simp only [ho]
    rfl

end Period

/-! ### A round -/

/-- The locals read over rationals and over doubles.  A ratio over zero work is not finite. -/
structure SameLocals (l : Balance.Locals) (l' : Locals) : Prop where
  ratio : ∀ r, l.bufWorkRatio = some r → l'.bufWorkRatio = .fin r ∧ r ≠ 0
  noRatio : l.bufWorkRatio = none → ¬ l'.bufWorkRatio.IsFinite
  maxRatio : l'.maxRatioSnapshot = .fin l.maxRatioSnapshot
  fcalls : l'.currFcalls = l.currFcalls

/-- A thread is at the same place of its round; the scopes after `WriteDummy` are no steps over
doubles. -/
inductive Follows : Balance.PC → PC → Prop where
  | idle : Follows .idle .idle
  | counted (x : Sample) : Follows (.counted x) (.counted x)
  | peaked (x : Sample) {l l'} (h : SameLocals l l') : Follows (.peaked x l) (.peaked x l')
  | totaled (x : Sample) {l l'} (h : SameLocals l l') : Follows (.totaled x l) (.totaled x l')
  | raised (x : Sample) {snap r : ℚ} {l : Locals} (hs : l.maxRatioSnapshot = .fin snap)
      (hr : l.bufWorkRatio = .fin r) (hne : r ≠ 0) : Follows (.raised x snap r) (.raised x l)
  | slept (x : Sample) (extra : ℚ) : Follows (.slept x extra) (.balanced x)
  | injected (x : Sample) (extra : ℚ) : Follows (.injected x extra) (.balanced x)
  | balanced (x : Sample) : Follows (.balanced x) (.balanced x)

/-- The value a sleeping thread has passed to `WriteDummy`. -/
def sleeping : Balance.PC → List Double
  | .slept _ extra => [.fin extra]
  | _ => []

section Round
variable {cfg : Config} {i : ℕ} {s t : Shared}

/-- The snapshots after the first scope, in which the thread has counted a buffer. -/
theorem sameLocals_snapshot (h : 0 < (s.peak i).nBuffers) :
    SameLocals (Balance.snapshot i s) ((Tables.ofShared s).snapshot i) where
  ratio r hr := by
    obtain ⟨hfin, rfl, hne⟩ := ratio_ofRat (s.peak i) hr
    exact ⟨hfin, div_ne_zero h.ne' hne⟩
  noRatio hr := not_isFinite_ratio (s.peak i) hr
  maxRatio := rfl
  fcalls := rfl

theorem SameLocals.skip {l : Balance.Locals} {l' : Locals} (h : SameLocals l l') :
    l'.skip = l.skip := by
  rw [Locals.skip, Balance.Locals.skip, h.fcalls]
  cases hr : l.bufWorkRatio with
  | none => exact skip_of_not_isFinite (h.noRatio hr)
  | some r =>
      rw [(h.ratio r hr).1]
      rfl

theorem SameLocals.counted {l : Balance.Locals} {l' : Locals} (h : SameLocals l l') (n : ℕ) :
    SameLocals { l with currFcalls := n } { l' with currFcalls := n } where
  ratio := h.ratio
  noRatio := h.noRatio
  maxRatio := h.maxRatio
  fcalls := rfl

/-- The same extra buffers. -/
theorem extraBuffers_fin {l : Locals} {snap r : ℚ} (hs : l.maxRatioSnapshot = .fin snap)
    (hr : l.bufWorkRatio = .fin r) (hne : r ≠ 0) :
    l.extraBuffers = (Balance.extraBuffers snap r).map Double.fin := by
  rw [Locals.extraBuffers, hs, hr, fin_div hne, fin_sub, Balance.extraBuffers]
  simp only [Double.lt, decide_eq_true_eq, gt_iff_lt]
  split_ifs <;> rfl

/-- The same comparison with the peak. -/
theorem SameLocals.lt {l : Balance.Locals} {l' : Locals} (h : SameLocals l l') {r : ℚ}
    (hr : l.bufWorkRatio = some r) :
    l'.maxRatioSnapshot.lt l'.bufWorkRatio = decide (l.maxRatioSnapshot < r) := by
  rw [h.maxRatio, (h.ratio r hr).1]
  rfl

/-- The comparison with the peak: both skip it, or both find the ratio above it, or neither. -/
theorem totaled_follows {x : Sample} {l : Balance.Locals} {l' : Locals} {q : Balance.PC}
    (h : SameLocals l l') (ha : Balance.advance cfg i s (.totaled x l) = some (t, q)) :
    ∃ q', Follows q q' ∧ advance cfg i (.ofShared s) (.totaled x l') = some (.ofShared t, q') ∧
      sleeping q = [] := by
  rw [advance, h.skip]
  cases advance_cases ha with
  | noRatio hr =>
      have hskip : l.skip = true := by
        rw [Balance.Locals.skip, hr]
        rfl
      exact ⟨_, .balanced x, if_pos hskip, rfl⟩
  | skip hr hskip => exact ⟨_, .balanced x, if_pos hskip, rfl⟩
  | @raise _ _ r hr hskip hgt =>
      obtain ⟨hfin, hne⟩ := h.ratio r hr
      have hscope : (Tables.ofShared s).raiseScope l'.bufWorkRatio =
          .ofShared (raiseScope i s r) := by rw [hfin, ofShared_raiseScope]
      rw [if_neg hskip, h.lt hr, if_pos (decide_eq_true hgt), hscope]
      exact ⟨_, .raised x (l := { l' with
        maxRatioSnapshot := .fin (raiseScope i s r).maxBufferWorkRatio }) rfl hfin hne, rfl, rfl⟩
  | @within _ _ r hr hskip hle =>
      obtain ⟨hfin, hne⟩ := h.ratio r hr
      rw [if_neg hskip, h.lt hr, if_neg (by simpa using hle)]
      exact ⟨_, .raised x h.maxRatio hfin hne, rfl, rfl⟩

/-- **The next scope of a round** over rationals is one over doubles, which passes the same value to
`WriteDummy`, or writes none of the tables of doubles. -/
theorem advance_follows {p q : Balance.PC} {p' : PC} (hn : 0 ≤ (s.peak i).nBuffers)
    (hf : Follows p p') (ha : Balance.advance cfg i s p = some (t, q)) :
    (∃ q', Follows q q' ∧ advance cfg i (.ofShared s) p' = some (.ofShared t, q') ∧
      sleeping q ⊆ p'.extra) ∨
    (Follows q p' ∧ Tables.ofShared t = .ofShared s ∧ sleeping q = []) := by
  cases hf with
  | idle => cases ha
  | counted x =>
      left
      cases advance_cases ha with
      | @peak _ w hb hw =>
          have hpos : 0 < ((peakScope i x s w).peak i).nBuffers := by
            rw [peakScope_self]
            exact add_pos_of_nonneg_of_pos hn one_pos
          refine ⟨_, .peaked x (sameLocals_snapshot hpos), ?_, List.nil_subset _⟩
          have hb' : Balanced cfg (Tables.ofShared s) := hb
          rw [advance, if_pos hb', workDouble_of_work hw, ← ofShared_peakScope]
      | unbalanced hb => exact ⟨_, .balanced x, if_neg hb, List.nil_subset _⟩
  | @peaked x l l' h =>
      cases ha
      refine .inl ⟨_, .totaled x (h.counted ((totalScope i x s).total i).totalFcalls), ?_,
        List.nil_subset _⟩
      have hcalls : (((Tables.ofShared s).totalScope i x).total i).totalFcalls =
          ((totalScope i x s).total i).totalFcalls := by
        rw [← ofShared_totalScope]
        rfl
      rw [advance, hcalls, ofShared_totalScope]
  | @totaled x l l' h =>
      obtain ⟨q', hq, ha', hsleep⟩ := totaled_follows h ha
      exact .inl ⟨q', hq, ha', hsleep ▸ List.nil_subset _⟩
  | @raised x snap r l hs hr hne =>
      left
      have hextra := extraBuffers_fin hs hr hne
      cases advance_cases ha with
      | noExtra he => exact ⟨_, .balanced x, rfl, List.nil_subset _⟩
      | @write _ _ _ extra he =>
          rw [he] at hextra
          refine ⟨_, .slept x extra, ?_, ?_⟩
          · rw [ofShared_writeDummy]
            rfl
          · rw [PC.extra, hextra]
            exact List.Subset.refl _
  | slept x extra =>
      cases ha
      exact .inr ⟨.injected x extra, ofShared_injectScope i x s, rfl⟩
  | injected x extra =>
      cases ha
      exact .inr ⟨.balanced x, ofShared_dummyScope i s extra, rfl⟩
  | balanced x =>
      cases ha
      exact .inl ⟨_, .idle, rfl, List.nil_subset _⟩

end Round

/-! ### Whole runs -/

section Counted
variable {cfg : Config} {s t : Shared}

theorem nBuffers_scope {i : ℕ} (h : Scope cfg i s t) (hs : ∀ j, 0 ≤ (s.peak j).nBuffers) (j : ℕ) :
    0 ≤ (t.peak j).nBuffers := by
  cases h with
  | peak x w =>
      by_cases hj : j = i
      · subst hj
        rw [peakScope_self]
        exact add_nonneg (hs j) zero_le_one
      · rw [peakScope_of_ne _ _ _ _ hj]
        exact hs j
  | inject x =>
      obtain ⟨a, b, hp⟩ := (SameCounters.injectScope i x s).peak j
      rw [hp]
      exact hs j
  | none | total | raise | write | dummy | data => exact hs j

theorem nBuffers_period (hs : ∀ j, 0 ≤ (s.peak j).nBuffers) (j : ℕ) :
    0 ≤ ((Balance.period cfg s).peak j).nBuffers := by
  rw [period_peak, Balance.PeakEntry.decay, Balance.PeakEntry.scaled]
  split_ifs
  · exact le_rfl
  · exact mul_nonneg (hs j) (by norm_num [scaleFactor])
  · exact hs j

end Counted

/-- The first scope of `InitThreadData` writes none of the tables of doubles. -/
def InitPC.ofScoped : Balance.InitPC → InitPC
  | .done | .inserted => .idle
  | .pushed => .pushed

/-- Both machines have the same tables and everyone at the same place, and each sleep is for a value
passed to `WriteDummy` over doubles too. -/
structure Simulates (s : Scoped) (u : State) : Prop where
  tables : u.tables = .ofShared s.shared
  pc : ∀ i, Follows (s.pc i) (u.pc i)
  init : u.init = .ofScoped s.init
  extras : ∀ i, sleeping (s.pc i) ⊆ u.extras
  nonneg : ∀ i, 0 ≤ (s.shared.peak i).nBuffers

theorem simulates_start : Simulates {} {} where
  tables := rfl
  pc _ := .idle
  init := rfl
  extras _ := List.nil_subset _
  nonneg _ := le_rfl

section Update
variable {pc : ℕ → Balance.PC} {pc' : ℕ → PC} {q : Balance.PC} {q' : PC} {extras : List Double}

theorem follows_update (h : ∀ j, Follows (pc j) (pc' j)) (hq : Follows q q') (i j : ℕ) :
    Follows (Function.update pc i q j) (Function.update pc' i q' j) := by
  by_cases hj : j = i
  · subst hj
    rw [Function.update_self, Function.update_self]
    exact hq
  · rw [Function.update_of_ne hj, Function.update_of_ne hj]
    exact h j

theorem sleeping_update (h : ∀ j, sleeping (pc j) ⊆ extras) (hq : sleeping q ⊆ extras) (i : ℕ) :
    ∀ j, sleeping (Function.update pc i q j) ⊆ extras :=
  (Function.forall_update_iff pc fun _ p => sleeping p ⊆ extras).mpr ⟨hq, fun j _ => h j⟩

end Update

section Runs
variable {cfg : Config} {s t : Scoped} {u : State}

/-- A scope of a round. -/
theorem Simulates.next {i : ℕ} (h : Simulates s u) (hs : scopeStep cfg s (.next i) = some t) :
    ∃ v, Reachable (step cfg) u v ∧ Simulates t v := by
  obtain ⟨w, q, ha, rfl⟩ := scopeStep_next hs
  have hnonneg := nBuffers_scope (advance_scope ha) h.nonneg
  rcases advance_follows (h.nonneg i) (h.pc i) ha with ⟨q', hq, hadv, hextra⟩ | ⟨hq, htab, hawake⟩
  · rw [← h.tables] at hadv
    refine ⟨_, (Reachable.refl u).next (a := .next i) (congrArg (Option.map _) hadv), rfl,
      follows_update h.pc hq i, h.init, sleeping_update (fun j => ?_) ?_ i, hnonneg⟩
    · exact List.subset_append_of_subset_left _ (h.extras j)
    · exact List.subset_append_of_subset_right _ hextra
  · refine ⟨u, .refl u, h.tables.trans htab.symm, ?_, h.init, sleeping_update h.extras ?_ i,
      hnonneg⟩
    · exact (Function.forall_update_iff _ fun j p => Follows p (u.pc j)).mpr
        ⟨hq, fun j _ => h.pc j⟩
    · rw [hawake]
      exact List.nil_subset _

/-- **One scope** over rationals is one over doubles, or none. -/
theorem Simulates.step {a : ScopeAction} (h : Simulates s u) (hs : scopeStep cfg s a = some t) :
    ∃ v, Reachable (step cfg) u v ∧ Simulates t v := by
  cases a with
  | init =>
      have hinit := h.init
      cases hpc : s.init with
      | done =>
          simp only [scopeStep, hpc] at hs
          cases hs
          rw [hpc] at hinit
          exact ⟨u, .refl u, h.tables, h.pc, hinit, h.extras, h.nonneg⟩
      | inserted =>
          simp only [scopeStep, hpc] at hs
          cases hs
          rw [hpc] at hinit
          have hstep : Doubles.step cfg u .init =
              some { u with tables := u.tables.initPeak, init := .pushed } := by
            rw [Doubles.step, hinit]
            rfl
          refine ⟨_, (Reachable.refl u).next hstep, ?_, h.pc, rfl, h.extras, ?_⟩
          · dsimp only
            rw [h.tables, ofShared_initPeak]
          · -- the new entry has counted nothing
            exact (Function.forall_update_iff _ fun _ e =>
              0 ≤ Balance.PeakEntry.nBuffers e).mpr ⟨le_rfl, fun j _ => h.nonneg j⟩
      | pushed =>
          simp only [scopeStep, hpc] at hs
          cases hs
          rw [hpc] at hinit
          have hstep : Doubles.step cfg u .init =
              some { u with tables := u.tables.initTotal, init := .idle } := by
            rw [Doubles.step, hinit]
            rfl
          refine ⟨_, (Reachable.refl u).next hstep, ?_, h.pc, rfl, h.extras, h.nonneg⟩
          dsimp only
          rw [h.tables, ofShared_initTotal]
  | begin i x =>
      obtain ⟨hpc, hi, rfl⟩ := scopeStep_begin hs
      have hidle : u.pc i = .idle := by
        have hf := h.pc i
        rw [hpc] at hf
        generalize u.pc i = p at hf
        cases hf
        rfl
      -- the thread has its entries on both sides
      have hlt : i < u.tables.nTotal := by
        rw [h.tables]
        exact hi
      have hstep : Doubles.step cfg u (.begin i x) = some
          { u with
            tables := u.tables.countScope i
            pc := Function.update u.pc i (.counted x)
            done := Function.update u.done i (u.done i ++ [x.data]) } := by
        rw [Doubles.step, hidle]
        exact if_pos hlt
      refine ⟨_, (Reachable.refl u).next hstep, ?_, follows_update h.pc (.counted x) i, h.init,
        sleeping_update h.extras (List.nil_subset _) i, h.nonneg⟩
      dsimp only
      rw [h.tables, ofShared_countScope]
  | next i => exact h.next hs
  | period =>
      obtain ⟨hc, -⟩ := Option.ite_none_right_eq_some.mp hs
      cases scopeStep_period hs
      refine ⟨_, (Reachable.refl u).next (a := .period) (if_pos hc), ?_, h.pc, h.init, h.extras,
        nBuffers_period h.nonneg⟩
      dsimp only
      rw [h.tables, ofShared_period]

/-- **The scopes over doubles simulate those over rationals.** -/
theorem scopes_simulated (h : Reachable (scopeStep cfg) {} s) :
    ∃ u, Reachable (step cfg) {} u ∧ Simulates s u := by
  refine h.invariant (I := fun s => ∃ u, Reachable (Doubles.step cfg) {} u ∧ Simulates s u)
    ⟨{}, .refl _, simulates_start⟩ ?_
  rintro s a t ⟨u, hu, hsim⟩ hs
  obtain ⟨v, hv, hsim'⟩ := hsim.step hs
  exact ⟨v, hu.trans hv, hsim'⟩

end Runs

end BulletTime.Balance.Doubles
