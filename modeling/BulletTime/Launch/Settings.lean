import BulletTime.Lib.Options
import BulletTime.Setup.Receiver

/-!
# Launch — Settings

What the consumer's `main` makes of its arguments, before it creates anything: the directory of the
session and the settings that the rest of the program reads.

* `step`: one round of the loop over `argv`, which takes an option together with its value.
* `assign_eq_ok_iff`: which values an option accepts, and what it sets.
* `main_ok_iff`: the arguments accepted, and the settings they make.

`[about the source]`: a value other than 1 turns a feature off, and a number is read as far as it
goes.  `compression_flag_set` is never set where it is looked at, in the first round; the option has
the last word because it comes later.
-/

namespace BulletTime.Launch
open Decimal Options Setup

/-- An argument of a program. -/
abbrev Word := List UInt8

/-- The global variables that the arguments set. -/
structure Settings where
  controlSleepSec : UInt64 := 30
  useDirectIo : Bool := true
  useHugepages : Bool := true
  appDilation : Bool := true
  kernelDilation : Bool := true
  useCompression : Bool := false
  deriving DecidableEq

/-- The options, in the order of the tests. -/
inductive Opt where
  | sleep
  | directIo
  | hugepages
  | appDilation
  | kernelDilation
  | compression
  deriving DecidableEq

namespace Opt

def all : List Opt := [sleep, directIo, hugepages, appDilation, kernelDilation, compression]

def word : Opt → Word
  | sleep => ascii "-s"
  | directIo => ascii "--direct-io"
  | hugepages => ascii "--hugepages"
  | appDilation => ascii "--app-dilation"
  | kernelDilation => ascii "--kernel-dilation"
  | compression => ascii "--compression"

/-- The option that `arg` is. -/
def ofWord (arg : Word) : Option Opt := all.find? fun o => arg = o.word

/-- What is printed where the value is missing. -/
def missing (o : Opt) : Word :=
  ascii "Error: " ++ o.word ++
    if o = sleep then ascii " flag requires a value." else ascii " requires a value (0 or 1)."

end Opt

/-- What `main` gives up on: too few arguments, an option without its value, an exception of `stoi`
or `stoul`, or a kernel module that is not loaded. -/
inductive ArgError where
  | usage
  | requiresValue (o : Opt)
  | parsing (e : Exc)
  | noKnob
  deriving DecidableEq

/-- `stoul(s)`: a minus sign negates the number read, in `unsigned long`. -/
def stoul (s : Word) : Except Exc UInt64 :=
  match strtol s with
  | none => .error .invalidArgument
  | some v => if v.natAbs < 2 ^ 64 then .ok (UInt64.ofInt v) else .error .outOfRange

/-- The assignment of an option. -/
def Settings.assign (s : Settings) : Opt → Word → Except Exc Settings
  | .sleep, v => do return { s with controlSleepSec := ← stoul v }
  | .directIo, v => do return { s with useDirectIo := (← stoi v) == 1 }
  | .hugepages, v => do return { s with useHugepages := (← stoi v) == 1 }
  | .appDilation, v => do return { s with appDilation := (← stoi v) == 1 }
  | .kernelDilation, v => do return { s with kernelDilation := (← stoi v) == 1 }
  | .compression, v => do return { s with useCompression := (← stoi v) == 1 }

/-- The variables of the loop. -/
structure ArgLoop where
  i : ℕ := 2
  settings : Settings := {}
  compressionFlagSet : Bool := false
  deriving DecidableEq

/-- No word stops the loop. -/
def argKind (arg : Word) : Kind Opt :=
  match Opt.ofWord arg with
  | some o => .value o
  | none => .plain

/-- A round of the loop: an option and its value, or the word `arg`, whose first byte is looked at
where it is the first of all. -/
def step (s : ArgLoop) : Item Opt Word → Except ArgError ArgLoop
  | .value o v =>
      match s.settings.assign o v with
      | .error e => .error (.parsing e)
      | .ok settings =>
          .ok ⟨s.i + 2, settings, s.compressionFlagSet || o == .compression⟩
  | .plain arg =>
      if s.i = 2 ∧ arg.head? ≠ some 45 then
        if s.compressionFlagSet then .ok { s with i := s.i + 1 }
        else
          match stoi arg with
          | .error e => .error (.parsing e)
          | .ok n =>
              .ok { s with i := s.i + 1, settings := { s.settings with useCompression := n == 1 } }
      else .ok { s with i := s.i + 1 }

/-- The arguments after the program's name, and whether the module's file can be opened. -/
def main (knobGood : Bool) : List Word → Except ArgError (Word × Settings)
  | [] => .error .usage
  | targetDir :: args =>
      match scan argKind .requiresValue step {} args with
      | .error e => .error e
      | .ok (s, _) =>
          if s.settings.kernelDilation ∧ ¬ knobGood then .error .noKnob
          else .ok (targetDir, s.settings)

/-! ### What an option accepts -/

/-- The value of an option that it accepts. -/
def Opt.Accepts : Opt → Word → Prop
  | .sleep, v => ∃ n : ℤ, Numeral v n ∧ n.natAbs < 2 ^ 64
  | _, v => Readable v

/-- The number read is 1. -/
def isOne (v : Word) : Bool :=
  match stoi v with
  | .ok n => n == 1
  | .error _ => false

/-- The number of seconds read. -/
def seconds (v : Word) : UInt64 :=
  match stoul v with
  | .ok n => n
  | .error _ => 0

/-- What an option sets. -/
def Settings.set (s : Settings) : Opt → Word → Settings
  | .sleep, v => { s with controlSleepSec := seconds v }
  | .directIo, v => { s with useDirectIo := isOne v }
  | .hugepages, v => { s with useHugepages := isOne v }
  | .appDilation, v => { s with appDilation := isOne v }
  | .kernelDilation, v => { s with kernelDilation := isOne v }
  | .compression, v => { s with useCompression := isOne v }

/-- The message of an option without its value names the option. -/
theorem word_infix_missing (o : Opt) : o.word <:+: o.missing :=
  ⟨ascii "Error: ", _, rfl⟩

theorem stoul_ok_iff {v : Word} :
    (∃ n, stoul v = .ok n) ↔ ∃ n : ℤ, Numeral v n ∧ n.natAbs < 2 ^ 64 := by
  simp only [stoul, ← strtol_eq_some_iff]
  cases strtol v with
  | none => simp
  | some n =>
      dsimp only
      split_ifs with hn
      · exact iff_of_true ⟨_, rfl⟩ ⟨n, rfl, hn⟩
      · refine iff_of_false nofun ?_
        rintro ⟨m, hm, hlt⟩
        cases hm
        exact hn hlt

theorem stoul_bind_iff {f : UInt64 → Settings} {v : Word} {t : Settings} :
    (do return f (← stoul v) : Except Exc Settings) = .ok t ↔
      (∃ n : ℤ, Numeral v n ∧ n.natAbs < 2 ^ 64) ∧ t = f (seconds v) := by
  rw [← stoul_ok_iff, seconds]
  cases stoul v with
  | error e => exact iff_of_false nofun (by rintro ⟨⟨n, hn⟩, -⟩; cases hn)
  | ok n =>
      rw [and_iff_right ⟨n, rfl⟩]
      exact ok_eq_ok_iff

/-- The value of a feature: `f` takes whether it is 1. -/
theorem stoi_bind_iff {f : Bool → Settings} {v : Word} {t : Settings} :
    (do return f ((← stoi v) == 1) : Except Exc Settings) = .ok t ↔
      Readable v ∧ t = f (isOne v) := by
  rw [← stoi_ok_iff, isOne]
  cases stoi v with
  | error e => exact iff_of_false nofun (by rintro ⟨⟨n, hn⟩, -⟩; cases hn)
  | ok n =>
      rw [and_iff_right ⟨n, rfl⟩]
      exact ok_eq_ok_iff

/-- **An assignment** goes through exactly on a value the option accepts. -/
theorem assign_eq_ok_iff {s t : Settings} {o : Opt} {v : Word} :
    s.assign o v = .ok t ↔ o.Accepts v ∧ t = s.set o v := by
  cases o with
  | sleep => exact stoul_bind_iff (f := fun n => { s with controlSleepSec := n })
  | directIo => exact stoi_bind_iff (f := fun b => { s with useDirectIo := b })
  | hugepages => exact stoi_bind_iff (f := fun b => { s with useHugepages := b })
  | appDilation => exact stoi_bind_iff (f := fun b => { s with appDilation := b })
  | kernelDilation => exact stoi_bind_iff (f := fun b => { s with kernelDilation := b })
  | compression => exact stoi_bind_iff (f := fun b => { s with useCompression := b })

/-! ### A round of the loop -/

/-- The part is an option with a value that it accepts, or a word by itself. -/
def Accepted : Item Opt Word → Prop
  | .value o v => o.Accepts v
  | .plain _ => True

/-- The first word after the directory, where it is no option and does not begin with a dash. -/
def legacy : List (Item Opt Word) → Option Word
  | .plain arg :: _ => if arg.head? ≠ some 45 then some arg else none
  | _ => none

theorem step_value_iff {s t : ArgLoop} {o : Opt} {v : Word} : step s (.value o v) = .ok t ↔
    o.Accepts v ∧
      t = ⟨s.i + 2, s.settings.set o v, s.compressionFlagSet || o == .compression⟩ := by
  rw [step]
  cases h : s.settings.assign o v with
  | error e =>
      refine iff_of_false nofun fun hv => ?_
      rw [assign_eq_ok_iff.mpr ⟨hv.1, rfl⟩] at h
      cases h
  | ok settings =>
      obtain ⟨hv, rfl⟩ := assign_eq_ok_iff.mp h
      rw [and_iff_right hv]
      exact ok_eq_ok_iff

/-- After the first round a word by itself is passed over. -/
theorem step_plain_later {s : ArgLoop} (h : 2 < s.i) (arg : Word) :
    step s (.plain arg) = .ok { s with i := s.i + 1 } := by
  rw [step, if_neg]
  exact fun hi => absurd hi.1 h.ne'

theorem step_later {s t : ArgLoop} {it : Item Opt Word} (hs : 2 < s.i) (h : step s it = .ok t) :
    2 < t.i := by
  cases it with
  | value o v =>
      obtain ⟨-, rfl⟩ := step_value_iff.mp h
      exact hs.trans_le (Nat.le_add_right _ _)
  | plain arg =>
      rw [step_plain_later hs] at h
      cases h
      exact hs.trans_le (Nat.le_add_right _ _)

/-- **After the first round** the loop goes on exactly as long as the parts are accepted. -/
theorem fold_ok_iff {s : ArgLoop} (hs : 2 < s.i) {its : List (Item Opt Word)} :
    (∃ t, its.foldlM step s = .ok t) ↔ ∀ it ∈ its, Accepted it := by
  refine foldlM_ok_iff (2 < ·.i) (fun hs h => step_later hs h) (fun it hs => ?_) hs
  cases it with
  | value o v =>
      simp only [step_value_iff, Accepted]
      exact ⟨fun ⟨_, hv, _⟩ => hv, fun hv => ⟨_, hv, rfl⟩⟩
  | plain arg =>
      rw [step_plain_later hs]
      exact iff_of_true ⟨_, rfl⟩ trivial

/-- **After the first round** a setting has the value of the last option that sets it. -/
theorem fold_setting {β : Type} {get : Settings → β} {o : Opt} {f : Word → β}
    (hget : ∀ s o' v, get (Settings.set s o' v) = if o' = o then f v else get s)
    {s t : ArgLoop} (hs : 2 < s.i) {its : List (Item Opt Word)}
    (h : its.foldlM step s = .ok t) :
    get t.settings = ((lastValue o its).map f).getD (get s.settings) := by
  have hlast := foldlM_field (2 < ·.i) (fun s => get s.settings)
    (fun it => (valueOf o it).map f) (fun hs h => step_later hs h)
    (fun {s it t} hs h => ?_) hs h
  · rw [hlast, lastValue, lastSet_map]
  · cases it with
    | value o' v =>
        obtain ⟨-, rfl⟩ := step_value_iff.mp h
        dsimp only [valueOf]
        rw [hget]
        split_ifs <;> rfl
    | plain arg =>
        rw [step_plain_later hs] at h
        cases h
        rfl

/-! ### The first round, and the whole loop -/

/-- The settings made by the parts of the arguments. -/
def chosen (its : List (Item Opt Word)) : Settings where
  controlSleepSec := ((lastValue .sleep its).map seconds).getD 30
  useDirectIo := ((lastValue .directIo its).map isOne).getD true
  useHugepages := ((lastValue .hugepages its).map isOne).getD true
  appDilation := ((lastValue .appDilation its).map isOne).getD true
  kernelDilation := ((lastValue .kernelDilation its).map isOne).getD true
  useCompression :=
    ((lastValue .compression its).map isOne).getD (((legacy its).map isOne).getD false)

theorem getD_map_or {α β : Type} (x y : Option α) (f : α → β) (d : β) :
    ((x.or y).map f).getD d = (x.map f).getD ((y.map f).getD d) := by
  cases x with
  | none => rfl
  | some a => rfl

theorem legacy_cons (it : Item Opt Word) (its : List (Item Opt Word)) :
    legacy (it :: its) = legacy [it] := by
  cases it with
  | value o v => rfl
  | plain arg => rfl

/-- One option, from the defaults. -/
theorem chosen_value (o : Opt) (v : Word) : chosen [.value o v] = Settings.set {} o v := by
  cases o <;> rfl

/-- The first word, where it is no option. -/
theorem step_plain_first {arg : Word} {t : ArgLoop} : step {} (.plain arg) = .ok t ↔
    (∀ w ∈ legacy [.plain arg], Readable w) ∧ t = ⟨3, chosen [.plain arg], false⟩ := by
  by_cases harg : arg.head? = some 45
  · have hlegacy : legacy [.plain arg] = none := if_neg (not_not_intro harg)
    have hchosen : chosen [.plain arg] = {} := by rw [chosen, hlegacy]; rfl
    rw [step, if_neg (fun h => h.2 harg), hlegacy, hchosen, ok_eq_ok_iff]
    exact (and_iff_right (by simp)).symm
  · have hlegacy : legacy [.plain arg] = some arg := if_pos harg
    have hchosen : chosen [.plain arg] = { ({} : Settings) with useCompression := isOne arg } := by
      rw [chosen, hlegacy]
      rfl
    have hall : (∀ w ∈ legacy [.plain arg], Readable w) ↔ Readable arg := by
      rw [hlegacy]
      exact ⟨fun h => h arg rfl, fun h w hw => Option.some.inj hw ▸ h⟩
    rw [step, if_pos ⟨rfl, harg⟩, if_neg Bool.false_ne_true, hall, hchosen, ← stoi_ok_iff, isOne]
    cases stoi arg with
    | error e => exact iff_of_false nofun (by rintro ⟨⟨n, hn⟩, -⟩; cases hn)
    | ok n =>
        rw [and_iff_right ⟨n, rfl⟩]
        exact ok_eq_ok_iff

/-- **The first round.** -/
theorem step_first {it : Item Opt Word} :
    ((∃ t, step {} it = .ok t) ↔ Accepted it ∧ ∀ w ∈ legacy [it], Readable w) ∧
      ∀ t, step {} it = .ok t → t.settings = chosen [it] ∧ 2 < t.i := by
  cases it with
  | value o v =>
      simp only [step_value_iff, chosen_value]
      refine ⟨⟨fun ⟨_, hv, _⟩ => ⟨hv, by simp [legacy]⟩, fun h => ⟨_, h.1, rfl⟩⟩, ?_⟩
      rintro t ⟨-, rfl⟩
      exact ⟨rfl, by simp⟩
  | plain arg =>
      simp only [step_plain_first]
      refine ⟨⟨fun ⟨_, hw, _⟩ => ⟨trivial, hw⟩, fun h => ⟨_, h.2, rfl⟩⟩, ?_⟩
      rintro t ⟨-, rfl⟩
      exact ⟨rfl, by simp⟩

/-- The settings after the first round and the rest. -/
theorem settings_eq {it : Item Opt Word} {its : List (Item Opt Word)} {s t : ArgLoop}
    (hi : 2 < s.i) (hs : s.settings = chosen [it]) (h : its.foldlM step s = .ok t) :
    t.settings = chosen (it :: its) := by
  have hfield {β : Type} (get : Settings → β) (o : Opt) (f : Word → β) (d : β)
      (hget : ∀ s o' v, get (Settings.set s o' v) = if o' = o then f v else get s)
      (hd : get (chosen [it]) = ((lastValue o [it]).map f).getD d) :
      get t.settings = ((lastValue o (it :: its)).map f).getD d := by
    rw [fold_setting hget hi h, hs, hd, lastValue_cons o it its, getD_map_or]
  have h₁ := hfield Settings.controlSleepSec .sleep seconds 30
    (fun _ o _ => by cases o <;> rfl) rfl
  have h₂ := hfield Settings.useDirectIo .directIo isOne true
    (fun _ o _ => by cases o <;> rfl) rfl
  have h₃ := hfield Settings.useHugepages .hugepages isOne true
    (fun _ o _ => by cases o <;> rfl) rfl
  have h₄ := hfield Settings.appDilation .appDilation isOne true
    (fun _ o _ => by cases o <;> rfl) rfl
  have h₅ := hfield Settings.kernelDilation .kernelDilation isOne true
    (fun _ o _ => by cases o <;> rfl) rfl
  have h₆ := hfield Settings.useCompression .compression isOne
    (((legacy [it]).map isOne).getD false) (fun _ o _ => by cases o <;> rfl) rfl
  rw [chosen, legacy_cons, ← h₁, ← h₂, ← h₃, ← h₄, ← h₅, ← h₆]

/-- Every word is read. -/
theorem reads_all {args rest : List Word} {its : List (Item Opt Word)}
    (r : Reads argKind args its rest) : rest = [] := by
  cases rest with
  | nil => rfl
  | cons w rest =>
      have hstop := r.head_rest w rfl
      rw [argKind] at hstop
      cases ho : Opt.ofWord w with
      | some o => rw [ho] at hstop; cases hstop
      | none => rw [ho] at hstop; cases hstop

/-- **The parts of the arguments**: which are accepted, and what they make. -/
theorem fold_args_iff {its : List (Item Opt Word)} {s : Settings} :
    (∃ t, its.foldlM step {} = .ok t ∧ t.settings = s) ↔
      (∀ it ∈ its, Accepted it) ∧ (∀ w ∈ legacy its, Readable w) ∧ s = chosen its := by
  cases its with
  | nil =>
      constructor
      · rintro ⟨t, h, rfl⟩
        cases h
        exact ⟨by simp, by simp [legacy], rfl⟩
      · rintro ⟨-, -, rfl⟩
        exact ⟨_, rfl, rfl⟩
  | cons it its =>
      obtain ⟨hok, hfirst⟩ := @step_first it
      rw [List.forall_mem_cons, legacy_cons]
      constructor
      · rintro ⟨t, h, rfl⟩
        obtain ⟨s', hs, h⟩ := foldlM_cons_ok.mp h
        obtain ⟨hset, hi⟩ := hfirst s' hs
        obtain ⟨hit, hlegacy⟩ := hok.mp ⟨s', hs⟩
        exact ⟨⟨hit, (fold_ok_iff hi).mp ⟨t, h⟩⟩, hlegacy, settings_eq hi hset h⟩
      · rintro ⟨⟨hit, hall⟩, hlegacy, rfl⟩
        obtain ⟨s', hs⟩ := hok.mpr ⟨hit, hlegacy⟩
        obtain ⟨hset, hi⟩ := hfirst s' hs
        obtain ⟨t, h⟩ := (fold_ok_iff hi).mpr hall
        exact ⟨t, foldlM_cons_ok.mpr ⟨s', hs, h⟩, settings_eq hi hset h⟩

/-- `main` once the arguments are read. -/
theorem main_cons_iff {knobGood : Bool} {d targetDir : Word} {args : List Word} {s : Settings} :
    main knobGood (targetDir :: args) = .ok (d, s) ↔ d = targetDir ∧
      (∃ t rest, scan argKind .requiresValue step {} args = .ok (t, rest) ∧ t.settings = s) ∧
        (s.kernelDilation = true → knobGood = true) := by
  rw [main]
  cases scan argKind .requiresValue step {} args with
  | error e => exact iff_of_false nofun (by rintro ⟨-, ⟨t, rest, h, -⟩, -⟩; cases h)
  | ok p =>
      obtain ⟨t, rest⟩ := p
      dsimp only
      split_ifs with hk
      · refine iff_of_false nofun ?_
        rintro ⟨-, ⟨_, _, h, rfl⟩, hknob⟩
        cases h
        exact hk.2 (hknob hk.1)
      · constructor
        · intro h
          cases h
          exact ⟨rfl, ⟨t, rest, rfl, rfl⟩, fun hd => not_not.mp fun hn => hk ⟨hd, hn⟩⟩
        · rintro ⟨rfl, ⟨_, _, h, rfl⟩, -⟩
          cases h
          rfl

/-- **The consumer's settings.**  `main` accepts its arguments exactly when there is a directory,
each option has a value that it accepts, and the first word after the directory is a number where
it is no option and begins with no dash; the module must be there where the dilation of the kernel
is asked for.  Each setting is the last value of its option, or its default. -/
theorem main_ok_iff {knobGood : Bool} {argv : List Word} {targetDir : Word} {s : Settings} :
    main knobGood argv = .ok (targetDir, s) ↔ ∃ args its, argv = targetDir :: args ∧
      Reads argKind args its [] ∧ (∀ it ∈ its, Accepted it) ∧
        (∀ w ∈ legacy its, Readable w) ∧ s = chosen its ∧
          (s.kernelDilation = true → knobGood = true) := by
  cases argv with
  | nil => exact iff_of_false nofun (by rintro ⟨_, _, h, -⟩; cases h)
  | cons d args =>
      rw [main_cons_iff]
      constructor
      · rintro ⟨rfl, ⟨t, rest, h, hs⟩, hknob⟩
        obtain ⟨its, r, hfold⟩ := scan_ok_iff.mp h
        obtain rfl := reads_all r
        obtain ⟨hall, hlegacy, hs⟩ := fold_args_iff.mp ⟨t, hfold, hs⟩
        exact ⟨args, its, rfl, r, hall, hlegacy, hs, hknob⟩
      · rintro ⟨_, its, h, r, hall, hlegacy, hs, hknob⟩
        cases h
        obtain ⟨t, h, hs⟩ := fold_args_iff.mpr ⟨hall, hlegacy, hs⟩
        exact ⟨rfl, ⟨t, [], scan_ok_iff.mpr ⟨its, r, h⟩, hs⟩, hknob⟩

example : main true [ascii "/tmp/x", ascii "1", ascii "--app-dilation", ascii "0x", ascii "-s",
    ascii "-1"] = .ok (ascii "/tmp/x", ⟨18446744073709551615, true, true, false, true, true⟩) := by
  decide +kernel

end BulletTime.Launch
