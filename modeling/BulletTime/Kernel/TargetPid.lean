import BulletTime.Kernel.SleepDilation
import BulletTime.Lib.Decimal
import BulletTime.Lib.Transition

/-!
# Kernel — TargetPid

The module's two knobs under `/sys/kernel/sleep_dilation`, and what a target pid keeps from the
other processes.

* `dilationFactorStore`, `targetPidStore`: a write, which `kstrtouint` and `kstrtoint` parse.
* `exec_knobs`: after a run of writes and probe hits each knob has the value last written to it.
* `targetPidStore_show`: what is read from `target_pid` can be written back; what is read from
  `dilation_factor` cannot (`dilationFactorStore_show`).
* `target_pid_confines_iff`: other processes are let alone exactly in the runs where no request of
  theirs to `schedule_timeout` would be changed by the factor.

`[about the source]`: `handler_pre_hrtimer_nanosleep` compares `current->tgid` with the target,
`handler_pre_sched_timeout` does not.
-/

namespace BulletTime.Kernel
open Decimal Transition

/-! ### Parsing -/

def einval : Int := -22

def erange : Int := -34

/-- The number after the sign: digits, and behind them nothing or a newline. -/
def kstrtoullDigits (s : List UInt8) : Except Int Nat :=
  let ds := s.takeWhile isDigit
  let rest := s.dropWhile isDigit
  if 2 ^ 64 ≤ value ds then .error erange
  else if ds = [] then .error einval
  else if rest = [] ∨ rest = [10] then .ok (value ds)
  else .error einval

/-- `kstrtoull(s, 10, &res)`, which takes a plus sign. -/
def kstrtoull : List UInt8 → Except Int Nat
  | 43 :: s => kstrtoullDigits s
  | s => kstrtoullDigits s

/-- The string up to its terminating null. -/
def cString (buf : List UInt8) : List UInt8 := buf.takeWhile (· ≠ 0)

/-- `kstrtouint(buf, 10, &val)`. -/
def kstrtouint (buf : List UInt8) : Except Int UInt32 := do
  let v ← kstrtoull (cString buf)
  if v < 2 ^ 32 then return UInt32.ofNat v else throw erange

/-- `kstrtoint(buf, 10, &val)`. -/
def kstrtoint (buf : List UInt8) : Except Int Int32 :=
  match cString buf with
  | 45 :: s => do
      let v ← kstrtoullDigits s
      if v ≤ 2 ^ 31 then return Int32.ofInt (-v) else throw erange
  | s => do
      let v ← kstrtoull s
      if v < 2 ^ 31 then return Int32.ofInt v else throw erange

/-! ### The knobs -/

/-- `dilation_factor_show`. -/
def dilationFactorShow (m : Params) : List UInt8 :=
  render m.dilationFactor.toNat ++ ascii "/" ++ render dilationDenominator.toNat ++ ascii "\n"

/-- `dilation_factor_store`: the knobs after the write, and what it returns. -/
def dilationFactorStore (m : Params) (buf : List UInt8) : Params × Int :=
  match kstrtouint buf with
  | .error res => (m, res)
  | .ok val => ({ m with dilationFactor := val }, buf.length)

/-- `target_pid_show`. -/
def targetPidShow (m : Params) : List UInt8 := renderInt m.targetPid.toInt ++ ascii "\n"

/-- `target_pid_store`. -/
def targetPidStore (m : Params) (buf : List UInt8) : Params × Int :=
  match kstrtoint buf with
  | .error res => (m, res)
  | .ok val => ({ m with targetPid := val }, buf.length)

/-- A write to one of the knobs, or a hit of one of the probes. -/
inductive Op where
  | storeFactor (buf : List UInt8)
  | storeTarget (buf : List UInt8)
  | schedTimeout (curr : Task) (di : UInt64)
  | hrtimerNanosleep (curr : Task) (di : UInt64)
  deriving DecidableEq

/-- A hit leaves the knobs alone. -/
def step (m : Params) : Op → Option Params
  | .storeFactor buf => some (dilationFactorStore m buf).1
  | .storeTarget buf => some (targetPidStore m buf).1
  | .schedTimeout _ _ => some m
  | .hrtimerNanosleep _ _ => some m

/-- The factor an operation sets. -/
def Op.factor : Op → Option UInt32
  | .storeFactor buf => (kstrtouint buf).toOption
  | _ => none

/-- The target an operation sets. -/
def Op.target : Op → Option Int32
  | .storeTarget buf => (kstrtoint buf).toOption
  | _ => none

/-- One step: a knob takes the value of an accepted write to it. -/
theorem step_knobs {m m' : Params} {op : Op} (h : step m op = some m') :
    m'.dilationFactor = op.factor.getD m.dilationFactor ∧
      m'.targetPid = op.target.getD m.targetPid := by
  cases op with
  | storeFactor buf =>
      obtain rfl := Option.some.inj h
      rw [dilationFactorStore, Op.factor]
      cases kstrtouint buf <;> exact ⟨rfl, rfl⟩
  | storeTarget buf =>
      obtain rfl := Option.some.inj h
      rw [targetPidStore, Op.target]
      cases kstrtoint buf <;> exact ⟨rfl, rfl⟩
  | schedTimeout curr di => cases h; exact ⟨rfl, rfl⟩
  | hrtimerNanosleep curr di => cases h; exact ⟨rfl, rfl⟩

/-- **Each knob has the value last written to it**, the one at the start where none was accepted. -/
theorem exec_knobs {m m' : Params} {ops : List Op} (h : exec step m ops = some m') :
    m'.dilationFactor = ((ops.filterMap Op.factor).getLast?).getD m.dilationFactor ∧
      m'.targetPid = ((ops.filterMap Op.target).getLast?).getD m.targetPid := by
  refine exec_induction (P := fun ops m' =>
    m'.dilationFactor = ((ops.filterMap Op.factor).getLast?).getD m.dilationFactor ∧
      m'.targetPid = ((ops.filterMap Op.target).getLast?).getD m.targetPid) ?_ ?_ h
  · exact ⟨rfl, rfl⟩
  · intro ops op s t _ ih ht
    obtain ⟨hf, hp⟩ := step_knobs ht
    rw [hf, hp, ih.1, ih.2, List.filterMap_append, List.filterMap_append]
    constructor
    · cases hop : op.factor <;> simp [hop]
    · cases hop : op.target <;> simp [hop]

/-! ### Reading and writing -/

theorem cString_of_notMem {buf : List UInt8} (h : 0 ∉ buf) : cString buf = buf := by
  rw [cString, List.takeWhile_eq_self_iff]
  intro b hb
  exact decide_eq_true (ne_of_mem_of_not_mem hb h)

theorem zero_notMem_render (n : Nat) : 0 ∉ render n :=
  fun h => absurd (isDigit_of_mem_render h) (by decide)

/-- A numeral begins with a digit, so that no sign is taken off. -/
theorem render_eq_cons (n : Nat) : ∃ b bs, render n = b :: bs ∧ b ≠ 43 ∧ b ≠ 45 := by
  obtain ⟨b, bs, e⟩ := List.exists_cons_of_ne_nil (render_ne_nil n)
  have hb : isDigit b = true := isDigit_of_mem_render (e ▸ List.mem_cons_self)
  refine ⟨b, bs, e, ?_, ?_⟩
  · rintro rfl
    cases hb
  · rintro rfl
    cases hb

theorem kstrtoull_render_append (n : Nat) (rest : List UInt8) :
    kstrtoull (render n ++ rest) = kstrtoullDigits (render n ++ rest) := by
  obtain ⟨b, bs, e, h43, -⟩ := render_eq_cons n
  rw [e, List.cons_append, kstrtoull]
  intro s hs
  exact h43 (List.cons.inj hs).1

/-- The digits of a number, and what stands behind them. -/
theorem kstrtoullDigits_render_append {n : Nat} {b : UInt8} {rest : List UInt8} (hn : n < 2 ^ 64)
    (hb : isDigit b = false) : kstrtoullDigits (render n ++ b :: rest) =
      if b :: rest = [] ∨ b :: rest = [10] then .ok n else .error einval := by
  have hds : ∀ b ∈ render n, isDigit b = true := fun b => isDigit_of_mem_render
  have hrest : ∀ c ∈ (b :: rest).head?, isDigit c = false := by
    intro c hc
    obtain rfl := Option.some.inj hc
    exact hb
  simp only [kstrtoullDigits, takeWhile_append_of_head hds hrest,
    dropWhile_append_of_head hds hrest, value_render]
  rw [if_neg (Nat.not_le.mpr hn), if_neg (render_ne_nil n)]

theorem kstrtoullDigits_render {n : Nat} (hn : n < 2 ^ 64) :
    kstrtoullDigits (render n ++ ascii "\n") = .ok n := by
  exact (kstrtoullDigits_render_append hn rfl).trans (if_pos (.inr rfl))

/-- A shown pid is parsed as itself. -/
theorem kstrtoint_renderInt (i : Int32) : kstrtoint (renderInt i.toInt ++ ascii "\n") = .ok i := by
  have hlt := i.toInt_lt
  have hle := i.le_toInt
  have hback : Int32.ofInt i.toInt = i := Int32.ofInt_toInt i
  cases hi : i.toInt with
  | ofNat n =>
      rw [hi] at hlt hback
      have hn : n < 2 ^ 31 := Int.ofNat_lt.mp hlt
      obtain ⟨b, bs, e, -, h45⟩ := render_eq_cons n
      have hnul : 0 ∉ render n ++ ascii "\n" :=
        List.not_mem_append (zero_notMem_render n) (by decide)
      have hparse : kstrtoull (render n ++ ascii "\n") = .ok n := by
        rw [kstrtoull_render_append, kstrtoullDigits_render (hn.trans (by decide))]
      rw [kstrtoint, renderInt, cString_of_notMem hnul]
      -- no minus sign
      split
      · rename_i s hs
        rw [e] at hs
        exact absurd (List.cons.inj hs).1 h45
      · rw [hparse]
        exact (if_pos hn).trans (congrArg Except.ok hback)
  | negSucc n =>
      rw [hi] at hle hback
      have hn : n + 1 ≤ 2 ^ 31 := by
        have hneg : Int.negSucc n = -((n : Int) + 1) := rfl
        omega
      have hnul : 0 ∉ 45 :: (render (n + 1) ++ ascii "\n") := by
        refine List.not_mem_cons_of_ne_of_not_mem (by decide) ?_
        exact List.not_mem_append (zero_notMem_render _) (by decide)
      rw [kstrtoint, renderInt, List.cons_append, cString_of_notMem hnul]
      split
      · rename_i s hs
        rw [← (List.cons.inj hs).2, kstrtoullDigits_render (lt_of_le_of_lt hn (by decide))]
        exact (if_pos hn).trans (congrArg Except.ok hback)
      · rename_i hne
        exact absurd rfl (hne _)

/-- **What is read from `target_pid` can be written back.** -/
theorem targetPidStore_show (m m' : Params) :
    targetPidStore m (targetPidShow m') =
      ({ m with targetPid := m'.targetPid }, ((targetPidShow m').length : Int)) := by
  rw [targetPidStore, targetPidShow, kstrtoint_renderInt]

/-- What is read from `dilation_factor` is a fraction, which a write does not take. -/
theorem dilationFactorStore_show (m m' : Params) :
    dilationFactorStore m (dilationFactorShow m') = (m, einval) := by
  have hlt : m'.dilationFactor.toNat < 2 ^ 64 :=
    lt_trans m'.dilationFactor.toNat_lt (by decide)
  have hshow : dilationFactorShow m' = render m'.dilationFactor.toNat ++ ascii "/1000\n" := by
    have hthousand : render dilationDenominator.toNat = ascii "1000" := by decide
    rw [dilationFactorShow, hthousand, List.append_assoc, List.append_assoc]
    rfl
  have hnul : 0 ∉ dilationFactorShow m' := by
    rw [hshow]
    exact List.not_mem_append (zero_notMem_render _) (by decide)
  have hslash : ascii "/1000\n" = 47 :: ascii "1000\n" := rfl
  rw [dilationFactorStore, kstrtouint, cString_of_notMem hnul, hshow, kstrtoull_render_append,
    hslash, kstrtoullDigits_render_append hlt rfl]
  rfl

/-! ### The filter -/

/-- A target is set, and the task belongs to another process. -/
def Spared (m : Params) (curr : Task) : Prop := 0 < m.targetPid ∧ curr.tgid ≠ m.targetPid

/-- A handler called for a task that is spared leaves `regs->di` as it was. -/
def Confined (m : Params) : Op → Prop
  | .schedTimeout curr di => Spared m curr → (handlerPreSchedTimeout m curr di).getD di = di
  | .hrtimerNanosleep curr di => Spared m curr → (handlerPreHrtimerNanosleep m curr di).getD di = di
  | _ => True

/-- The factor maps the request to itself: what it adds is less than one tick, but for a multiple
of 2^64 ticks. -/
def FixedByFactor (m : Params) (di : UInt64) : Prop :=
  di.toInt64.toInt * (m.dilationFactor.toNat - 1000) % (1000 * 2 ^ 64) < 1000

/-- A request of a task that is spared to `schedule_timeout` has no end, is not interruptible, is
not positive, is mapped to itself by the factor, or the factor is 1.0. -/
def Unaffected (m : Params) : Op → Prop
  | .schedTimeout curr di => Spared m curr → SchedAdmits m curr di → FixedByFactor m di
  | _ => True

/-- The second handler stores nothing for a task that is spared. -/
theorem handlerPreHrtimerNanosleep_of_spared {m : Params} {curr : Task} (h : Spared m curr)
    (di : UInt64) : handlerPreHrtimerNanosleep m curr di = none := if_pos h

theorem fixedByFactor_iff {m : Params} {di : UInt64} : FixedByFactor m di ↔
    ∃ k : Int, exactProduct m di = 2 ^ 64 * k + di.toInt64.toInt := by
  rw [FixedByFactor, exactProduct]
  generalize di.toInt64.toInt = x
  have hadd : x * (m.dilationFactor.toNat : Int) =
      x * ((m.dilationFactor.toNat : Int) - 1000) + 1000 * x := by
    rw [Int.mul_sub, Int.mul_comm 1000 x, Int.sub_add_cancel]
  rw [hadd]
  generalize x * ((m.dilationFactor.toNat : Int) - 1000) = y
  constructor
  · intro h
    exact ⟨y / 1000 / 2 ^ 64, by omega⟩
  · rintro ⟨k, hk⟩
    omega

/-- The stored value is the request exactly where the factor maps it to itself. -/
theorem multFrac_eq_self_iff {m : Params} {di : UInt64} (hdi : ¬ di.toInt64 ≤ 0) :
    (multFrac di.toInt64 m.dilationFactor dilationDenominator).toUInt64 = di ↔
      FixedByFactor m di := by
  have hlt := di.toInt64.toInt_lt
  have hword : ∀ x : Int64, x.toUInt64 = di ↔ x = di.toInt64 := fun x =>
    ⟨fun h => h ▸ (Int64.toInt64_toUInt64 x).symm, fun h => h ▸ UInt64.toUInt64_toInt64 di⟩
  -- the window of one value
  have hwindow := stored_mem_iff (m := m) hdi (show di.toInt64.toInt + 1 ≤ 2 ^ 63 by omega)
  rw [hword, ← Int64.toInt_inj, fixedByFactor_iff]
  constructor
  · intro h
    obtain ⟨k, hk⟩ := hwindow.mp (by omega)
    exact ⟨k, by omega⟩
  · rintro ⟨k, hk⟩
    have := hwindow.mpr ⟨k, by omega⟩
    omega

/-- The first handler lets a request pass unchanged, whoever it is from. -/
theorem handlerPreSchedTimeout_getD_iff {m : Params} {curr : Task} {di : UInt64} :
    (handlerPreSchedTimeout m curr di).getD di = di ↔
      (SchedAdmits m curr di → FixedByFactor m di) := by
  by_cases ha : SchedAdmits m curr di
  · rw [handlerPreSchedTimeout_eq_some.mpr ⟨ha, rfl⟩, Option.getD_some,
      multFrac_eq_self_iff ha.2.2.2]
    exact ⟨fun h _ => h, fun h => h ha⟩
  · have hnone : handlerPreSchedTimeout m curr di = none :=
      Option.eq_none_iff_forall_ne_some.mpr fun v hv =>
        ha (handlerPreSchedTimeout_eq_some.mp hv).1
    rw [hnone]
    exact iff_of_true rfl fun h => absurd h ha

theorem confined_iff (m : Params) (op : Op) : Confined m op ↔ Unaffected m op := by
  cases op with
  | storeFactor buf => exact Iff.rfl
  | storeTarget buf => exact Iff.rfl
  | schedTimeout curr di => exact forall_congr' fun _ => handlerPreSchedTimeout_getD_iff
  | hrtimerNanosleep curr di =>
      refine iff_of_true (fun h => ?_) trivial
      rw [handlerPreHrtimerNanosleep_of_spared h]
      rfl

/-- **A target pid confines dilation** exactly in the runs where `schedule_timeout` is never asked,
by a task of another process, for a sleep the factor would change. -/
theorem target_pid_confines_iff (m : Params) (ops : List Op) :
    EveryStep step m ops Confined ↔ EveryStep step m ops Unaffected :=
  ⟨fun h => h.mono fun m op => (confined_iff m op).mp,
    fun h => h.mono fun m op => (confined_iff m op).mpr⟩

/-- With a target of 1234 and a factor of 2.0, a wait of 100 ticks in process 77 becomes one of
200. -/
theorem other_process_dilated :
    ¬ EveryStep step {} [.storeTarget (ascii "1234\n"), .storeFactor (ascii "2000\n"),
        .schedTimeout ⟨1, 77⟩ 100] Confined ∧
      handlerPreSchedTimeout ⟨2000, 1234⟩ ⟨1, 77⟩ 100 = some 200 := by
  refine ⟨fun h => ?_, by decide +kernel⟩
  have hdi := h [.storeTarget (ascii "1234\n"), .storeFactor (ascii "2000\n")]
    (.schedTimeout ⟨1, 77⟩ 100) [] ⟨2000, 1234⟩ rfl (by decide +kernel) ⟨by decide, by decide⟩
  revert hdi
  decide +kernel

end BulletTime.Kernel
