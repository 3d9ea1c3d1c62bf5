import BulletTime.Launch.Settings
import BulletTime.Setup.Session

/-!
# Launch — CollectTrace

`collect_trace.sh`, up to where it starts the consumer and Pin: its own options, what it checks, and
the arguments that it hands to the two programs.

* `scriptStep`: one round of the loop over the arguments.
* `collectTrace_ok_iff`: the arguments accepted, and the two command lines made of them.
* `launched`: the consumer accepts its command line with the settings asked for, and the paths the
  pintool takes from `-outprefix` are in the consumer's directory.

`[about the source]`: the directory is followed by a slash and a name in `-outprefix`, so that the
pintool's searches stop at the same place even where the directory has a backslash in it.
-/

namespace BulletTime.Launch
open Decimal Options Setup

/-! ### The script -/

/-- The options that take a value. -/
inductive ScriptOpt where
  | output
  | fcalls
  | pinRoot
  deriving DecidableEq

/-- The patterns of the script's `case`. -/
def scriptKind (w : Word) : Kind ScriptOpt :=
  if w = ascii "-o" ∨ w = ascii "--output" then .value .output
  else if w = ascii "-f" ∨ w = ascii "--fcalls" then .value .fcalls
  else if w = ascii "--pin-root" then .value .pinRoot
  else if w = ascii "--" then .stop
  else .plain

/-- The script's variables. -/
@[ext] structure Vars where
  pinRoot : Word
  outputDir : Word := []
  fcalls : Word := []
  fcallsExact : Bool := false
  useCompression : Bool := true
  useAppDil : Bool := true
  useKernelDil : Bool := true

/-- Where the script ends before it starts a program; only `help` is no error. -/
inductive ScriptExit where
  | help
  | unknown (w : Word)
  | unbound (o : ScriptOpt)
  | noOutput
  | noCommand
  | noPin
  | noPintool
  | noConsumer
  | noDirectory
  deriving DecidableEq

/-- A round of the loop; an option without its value is an unbound variable. -/
def scriptStep (s : Vars) : Item ScriptOpt Word → Except ScriptExit Vars
  | .value .output v => .ok { s with outputDir := v }
  | .value .fcalls v => .ok { s with fcalls := v }
  | .value .pinRoot v => .ok { s with pinRoot := v }
  | .plain w =>
      if w = ascii "--exact-fcalls" then .ok { s with fcallsExact := true }
      else if w = ascii "--no-compression" then .ok { s with useCompression := false }
      else if w = ascii "--no-app-dilation" then .ok { s with useAppDil := false }
      else if w = ascii "--no-kernel-dilation" then .ok { s with useKernelDil := false }
      else if w = ascii "-h" ∨ w = ascii "--help" then .error .help
      else .error (.unknown w)

/-- The directory of the script, and what it finds in the file system. -/
structure Installation where
  scriptDir : Word
  executable : Word → Bool
  regular : Word → Bool
  mkdir : Word → Bool

namespace Installation
variable (env : Installation)

def pintoolSo : Word := env.scriptDir ++ ascii "/src/pintool/obj-intel64/bullettime.so"

def consumerBin : Word := env.scriptDir ++ ascii "/src/consumer/consumer"

end Installation

/-- The two programs started. -/
structure Programs where
  /-- The arguments of the consumer. -/
  consumerArgs : List Word
  pin : Word
  pinArgs : List Word
  cmd : List Word
  deriving DecidableEq

/-- A variable that is 0 or 1. -/
def bit (b : Bool) : Word := if b then ascii "1" else ascii "0"

namespace Vars
variable (s : Vars)

def consumerFlags : List Word :=
  [ascii "--direct-io", ascii "1", ascii "--hugepages", ascii "1",
    ascii "--compression", bit s.useCompression, ascii "--app-dilation", bit s.useAppDil,
    ascii "--kernel-dilation", bit s.useKernelDil]

def outPrefix : Word := s.outputDir ++ ascii "/trace"

def pinArgs (pintoolSo : Word) : List Word :=
  [ascii "-t", pintoolSo, ascii "-outprefix", s.outPrefix] ++
    if s.fcalls = [] then []
    else [ascii "-fcalls", s.fcalls] ++
      if s.fcallsExact then [ascii "-fcalls_exact", ascii "1"] else []

def launch (env : Installation) (cmd : List Word) : Programs where
  consumerArgs := s.outputDir :: s.consumerFlags
  pin := s.pinRoot ++ ascii "/pin"
  pinArgs := s.pinArgs env.pintoolSo
  cmd := cmd

end Vars

/-- The script from its arguments to where it starts the programs. -/
def collectTrace (env : Installation) (args : List Word) : Except ScriptExit Programs :=
  match scan scriptKind .unbound scriptStep { pinRoot := env.scriptDir ++ ascii "/pin" } args with
  | .error e => .error e
  | .ok (s, rest) =>
      -- `CMD` is what follows the word that stopped the loop
      if s.outputDir = [] then .error .noOutput
      else if rest.tail = [] then .error .noCommand
      else if ¬ env.executable (s.pinRoot ++ ascii "/pin") then .error .noPin
      else if ¬ env.regular env.pintoolSo then .error .noPintool
      else if ¬ env.executable env.consumerBin then .error .noConsumer
      else if ¬ env.mkdir s.outputDir then .error .noDirectory
      else .ok (s.launch env rest.tail)

/-! ### What the script accepts -/

/-- The words that stand for themselves. -/
def scriptFlags : List Word :=
  [ascii "--exact-fcalls", ascii "--no-compression", ascii "--no-app-dilation",
    ascii "--no-kernel-dilation"]

/-- The part is an option with its value, or one of those words. -/
def Known : Item ScriptOpt Word → Prop
  | .value _ _ => True
  | .plain w => w ∈ scriptFlags

/-- What the parts of the arguments ask for. -/
def asked (pinRoot : Word) (its : List (Item ScriptOpt Word)) : Vars where
  pinRoot := (lastValue .pinRoot its).getD pinRoot
  outputDir := (lastValue .output its).getD []
  fcalls := (lastValue .fcalls its).getD []
  fcallsExact := .plain (ascii "--exact-fcalls") ∈ its
  useCompression := .plain (ascii "--no-compression") ∉ its
  useAppDil := .plain (ascii "--no-app-dilation") ∉ its
  useKernelDil := .plain (ascii "--no-kernel-dilation") ∉ its

theorem step_ok_iff {s : Vars} (it : Item ScriptOpt Word) :
    (∃ t, scriptStep s it = .ok t) ↔ Known it := by
  cases it with
  | value o v => cases o <;> exact iff_of_true ⟨_, rfl⟩ trivial
  | plain w =>
      have hknown : Known (.plain w) ↔ w = ascii "--exact-fcalls" ∨ w = ascii "--no-compression" ∨
          w = ascii "--no-app-dilation" ∨ w = ascii "--no-kernel-dilation" := by
        simp [Known, scriptFlags]
      rw [scriptStep, hknown]
      split_ifs with h₁ h₂ h₃ h₄ h₅
      · exact iff_of_true ⟨_, rfl⟩ (.inl h₁)
      · exact iff_of_true ⟨_, rfl⟩ (.inr (.inl h₂))
      · exact iff_of_true ⟨_, rfl⟩ (.inr (.inr (.inl h₃)))
      · exact iff_of_true ⟨_, rfl⟩ (.inr (.inr (.inr h₄)))
      -- help, and what is not known
      · exact iff_of_false nofun (by simp [h₁, h₂, h₃, h₄])
      · exact iff_of_false nofun (by simp [h₁, h₂, h₃, h₄])

/-- What a part sets. -/
def sets (w : Word) (b : Bool) (it : Item ScriptOpt Word) : Option Bool :=
  if it = .plain w then some b else none

/-- The variables after a round. -/
theorem step_eq {s t : Vars} {it : Item ScriptOpt Word} (h : scriptStep s it = .ok t) :
    t = { pinRoot := (valueOf .pinRoot it).getD s.pinRoot
          outputDir := (valueOf .output it).getD s.outputDir
          fcalls := (valueOf .fcalls it).getD s.fcalls
          fcallsExact := (sets (ascii "--exact-fcalls") true it).getD s.fcallsExact
          useCompression := (sets (ascii "--no-compression") false it).getD s.useCompression
          useAppDil := (sets (ascii "--no-app-dilation") false it).getD s.useAppDil
          useKernelDil := (sets (ascii "--no-kernel-dilation") false it).getD s.useKernelDil } := by
  cases it with
  | value o v =>
      cases o with
      | output => cases h; rfl
      | fcalls => cases h; rfl
      | pinRoot => cases h; rfl
  | plain w =>
      rw [scriptStep] at h
      split_ifs at h with h₁ h₂ h₃ h₄
      · cases h; subst h₁; rfl
      · cases h; subst h₂; rfl
      · cases h; subst h₃; rfl
      · cases h; subst h₄; rfl

theorem lastSet_sets (w : Word) (b : Bool) (its : List (Item ScriptOpt Word)) :
    lastSet (sets w b) its = if Item.plain w ∈ its then some b else none :=
  lastSet_const (Item.plain w) b its

theorem set_true (w : Word) (its : List (Item ScriptOpt Word)) :
    (lastSet (sets w true) its).getD false = decide (Item.plain w ∈ its) := by
  rw [lastSet_sets]
  by_cases h : Item.plain w ∈ its <;> simp [h]

theorem set_false (w : Word) (its : List (Item ScriptOpt Word)) :
    (lastSet (sets w false) its).getD true = decide (Item.plain w ∉ its) := by
  rw [lastSet_sets]
  by_cases h : Item.plain w ∈ its <;> simp [h]

/-- The variables after the loop. -/
theorem fold_eq {pinRoot : Word} {its : List (Item ScriptOpt Word)} {t : Vars}
    (h : its.foldlM scriptStep { pinRoot } = .ok t) : t = asked pinRoot its := by
  have hfield {β : Type} (get : Vars → β) (f : Item ScriptOpt Word → Option β)
      (hget : ∀ {s it t}, scriptStep s it = .ok t → get t = (f it).getD (get s)) :
      get t = (lastSet f its).getD (get { pinRoot }) :=
    foldlM_field (fun _ => True) get f (fun _ _ => trivial) (fun _ h => hget h) trivial h
  have h₁ := hfield Vars.pinRoot _ fun h => congrArg Vars.pinRoot (step_eq h)
  have h₂ := hfield Vars.outputDir _ fun h => congrArg Vars.outputDir (step_eq h)
  have h₃ := hfield Vars.fcalls _ fun h => congrArg Vars.fcalls (step_eq h)
  have h₄ := hfield Vars.fcallsExact _ fun h => congrArg Vars.fcallsExact (step_eq h)
  have h₅ := hfield Vars.useCompression _ fun h => congrArg Vars.useCompression (step_eq h)
  have h₆ := hfield Vars.useAppDil _ fun h => congrArg Vars.useAppDil (step_eq h)
  have h₇ := hfield Vars.useKernelDil _ fun h => congrArg Vars.useKernelDil (step_eq h)
  dsimp only at h₄ h₅ h₆ h₇
  rw [set_true] at h₄
  rw [set_false] at h₅ h₆ h₇
  exact Vars.ext h₁ h₂ h₃ h₄ h₅ h₆ h₇

/-- **The loop of the script** accepts the parts it knows. -/
theorem fold_script_iff {pinRoot : Word} {its : List (Item ScriptOpt Word)} {t : Vars} :
    its.foldlM scriptStep { pinRoot } = .ok t ↔ (∀ it ∈ its, Known it) ∧ t = asked pinRoot its := by
  have hok : (∃ t, its.foldlM scriptStep { pinRoot } = .ok t) ↔ ∀ it ∈ its, Known it :=
    foldlM_ok_iff (fun _ => True) (fun _ _ => trivial) (fun it _ => step_ok_iff it) trivial
  constructor
  · intro h
    exact ⟨hok.mp ⟨t, h⟩, fold_eq h⟩
  · rintro ⟨hall, rfl⟩
    obtain ⟨t, h⟩ := hok.mpr hall
    rwa [← fold_eq h]

/-- What the script checks before it starts a program. -/
structure Ready (env : Installation) (s : Vars) (cmd : List Word) : Prop where
  output : s.outputDir ≠ []
  command : cmd ≠ []
  pin : env.executable (s.pinRoot ++ ascii "/pin") = true
  pintool : env.regular env.pintoolSo = true
  consumer : env.executable env.consumerBin = true
  directory : env.mkdir s.outputDir = true

/-- The loop stops at the two dashes. -/
theorem eq_of_stop {w : Word} (h : scriptKind w = .stop) : w = ascii "--" := by
  rw [scriptKind] at h
  split_ifs at h with _ _ _ hw
  exact hw

/-- The script once its arguments are read. -/
theorem checks_iff {env : Installation} {args rest : List Word} {s : Vars} {p : Programs}
    (h : scan scriptKind .unbound scriptStep { pinRoot := env.scriptDir ++ ascii "/pin" } args =
      .ok (s, rest)) :
    collectTrace env args = .ok p ↔ Ready env s rest.tail ∧ p = s.launch env rest.tail := by
  rw [collectTrace, h]
  dsimp only
  split_ifs with h₁ h₂ h₃ h₄ h₅ h₆
  · exact iff_of_false nofun fun hr => hr.1.output h₁
  · exact iff_of_false nofun fun hr => hr.1.command h₂
  · rw [and_iff_right ⟨h₁, h₂, h₃, h₄, h₅, h₆⟩]
    exact ok_eq_ok_iff
  · exact iff_of_false nofun fun hr => h₆ hr.1.directory
  · exact iff_of_false nofun fun hr => h₅ hr.1.consumer
  · exact iff_of_false nofun fun hr => h₄ hr.1.pintool
  · exact iff_of_false nofun fun hr => h₃ hr.1.pin

/-- **What the script accepts**: options it knows, with their values, two dashes and a command,
where all that it looks for is there. -/
theorem collectTrace_ok_iff {env : Installation} {args : List Word} {p : Programs} :
    collectTrace env args = .ok p ↔ ∃ its cmd, Reads scriptKind args its (ascii "--" :: cmd) ∧
      (∀ it ∈ its, Known it) ∧ Ready env (asked (env.scriptDir ++ ascii "/pin") its) cmd ∧
        p = (asked (env.scriptDir ++ ascii "/pin") its).launch env cmd := by
  constructor
  · intro h
    cases hscan : scan scriptKind .unbound scriptStep
        { pinRoot := env.scriptDir ++ ascii "/pin" } args with
    | error e =>
        rw [collectTrace, hscan] at h
        cases h
    | ok r =>
        obtain ⟨s, rest⟩ := r
        obtain ⟨hready, hp⟩ := (checks_iff hscan).mp h
        obtain ⟨its, r, hfold⟩ := scan_ok_iff.mp hscan
        obtain ⟨hknown, rfl⟩ := fold_script_iff.mp hfold
        -- there is a command, so the loop was stopped
        cases rest with
        | nil => exact absurd rfl hready.command
        | cons w cmd =>
            obtain rfl := eq_of_stop (r.head_rest w rfl)
            exact ⟨its, cmd, r, hknown, hready, hp⟩
  · rintro ⟨its, cmd, r, hknown, hready, hp⟩
    exact (checks_iff (scan_ok_iff.mpr ⟨its, r, fold_script_iff.mpr ⟨hknown, rfl⟩⟩)).mpr
      ⟨hready, hp⟩

/-! ### What the two programs make of it -/

/-- The consumer's `pid_dir`. -/
def pidsPath (targetDir : Word) : Word := targetDir ++ ascii "/pids"

/-- All paths that the pintool takes from `-outprefix` are the consumer's. -/
structure OneSession (outPrefix targetDir : Word) : Prop where
  made : mainPids outPrefix = pidsPath targetDir
  files : pidDir outPrefix = pidsPath targetDir ++ ascii "/"
  stop : stopPath outPrefix = pidsPath targetDir ++ ascii "/stop"
  ready (tid : ℕ) : rdyPath outPrefix tid = targetDir ++ ascii "/rdy_" ++ render tid
  size (tid : ℕ) : sizePath outPrefix tid = targetDir ++ ascii "/size_" ++ render tid

/-- The name after the directory has neither a slash nor a backslash in it. -/
theorem oneSession_outPrefix (s : Vars) : OneSession s.outPrefix s.outputDir := by
  have hdir (chars : List UInt8) (hslash : 47 ∈ chars) (hname : ∀ b ∈ ascii "trace", b ∉ chars) :
      parentDir chars s.outPrefix = s.outputDir := parentDir_append_cons hslash hname
  have hslash := hdir (ascii "/") (by decide) (by decide +kernel)
  have hboth := hdir (ascii "/\\") (by decide) (by decide +kernel)
  refine ⟨?_, ?_, ?_, fun tid => ?_, fun tid => ?_⟩
  · rw [mainPids, hboth, pidsPath]
  · rw [pidDir, hslash, pidsPath, List.append_assoc]
    rfl
  · rw [stopPath, hslash, pidsPath, List.append_assoc]
    rfl
  · rw [rdyPath, hslash]
  · rw [sizePath, hslash]

/-- The consumer's loop over the flags. -/
theorem scan_flags (s : Vars) : scan argKind .requiresValue step {} s.consumerFlags =
    .ok (⟨12, ⟨30, true, true, s.useAppDil, s.useKernelDil, s.useCompression⟩, true⟩, []) := by
  have hall : ∀ app kernel compression : Bool,
      scan argKind .requiresValue step {}
          (Vars.consumerFlags ⟨[], [], [], false, compression, app, kernel⟩) =
        .ok (⟨12, ⟨30, true, true, app, kernel, compression⟩, true⟩, []) := by
    decide +kernel
  exact hall s.useAppDil s.useKernelDil s.useCompression

/-- **The consumer reads the flags back.** -/
theorem main_flags (s : Vars) (knobGood : Bool) :
    main knobGood (s.outputDir :: s.consumerFlags) =
      if s.useKernelDil ∧ ¬ knobGood then .error .noKnob
      else .ok (s.outputDir, ⟨30, true, true, s.useAppDil, s.useKernelDil, s.useCompression⟩) := by
  rw [main, scan_flags]

/-- **A session launched.**  However the script is called, when it starts the two programs: its
arguments are options it knows, two dashes and a command, taken apart in one way; the consumer
accepts the arguments it is given unless the module is missing, and runs in the directory that was
named last, with the features on that were not turned off by a word of their own; and the pintool's
paths are the consumer's. -/
theorem launched {env : Installation} {args : List Word} {p : Programs}
    (h : collectTrace env args = .ok p) :
    ∃ its out, Reads scriptKind args its (ascii "--" :: p.cmd) ∧
      (∀ its' rest, Reads scriptKind args its' rest → its' = its ∧ rest = ascii "--" :: p.cmd) ∧
      p.cmd ≠ [] ∧ (∀ it ∈ its, Known it) ∧ lastValue .output its = some out ∧
      (∀ knobGood, main knobGood p.consumerArgs =
        if .plain (ascii "--no-kernel-dilation") ∉ its ∧ ¬ knobGood then .error .noKnob
        else .ok (out,
          { appDilation := .plain (ascii "--no-app-dilation") ∉ its
            kernelDilation := .plain (ascii "--no-kernel-dilation") ∉ its
            useCompression := .plain (ascii "--no-compression") ∉ its })) ∧
      ∃ outPrefix more, OneSession outPrefix out ∧
        p.pinArgs = [ascii "-t", env.pintoolSo, ascii "-outprefix", outPrefix] ++ more := by
  obtain ⟨its, cmd, r, hknown, hready, rfl⟩ := collectTrace_ok_iff.mp h
  obtain ⟨out, hout⟩ := Option.ne_none_iff_exists'.mp fun hnone : lastValue .output its = none =>
    hready.output (by rw [asked, hnone]; rfl)
  have hdir : (asked (env.scriptDir ++ ascii "/pin") its).outputDir = out := by
    rw [asked, hout]
    rfl
  refine ⟨its, out, r, fun its' rest r' => r'.unique r, hready.command, hknown, hout,
    fun knobGood => ?_, _, _, ?_, rfl⟩
  · have hmain := main_flags (asked (env.scriptDir ++ ascii "/pin") its) knobGood
    rw [hdir] at hmain
    rw [Vars.launch, hdir, hmain]
    simp only [asked, decide_eq_true_eq]
  · rw [← hdir]
    exact oneSession_outPrefix _

/-- An installation with all that is looked for. -/
def installed : Installation :=
  ⟨ascii "/opt/bt", fun _ => true, fun _ => true, fun _ => true⟩

/-- A directory with a backslash in it, which `-outprefix` alone could not name. -/
def backslash : List Word :=
  [ascii "-o", ascii "/tmp/x\\y", ascii "--no-compression", ascii "--", ascii "ls"]

theorem launched_backslash : ∃ p, collectTrace installed backslash = .ok p ∧
    main true p.consumerArgs = .ok (ascii "/tmp/x\\y", {}) ∧
    ∃ outPrefix ∈ p.pinArgs, OneSession outPrefix (ascii "/tmp/x\\y") := by
  obtain ⟨p, h⟩ : ∃ p, collectTrace installed backslash = .ok p := ⟨_, rfl⟩
  obtain ⟨its, out, -, hunique, -, -, hout, hmain, outPrefix, more, hone, hpin⟩ := launched h
  have hits : Reads scriptKind backslash
      [.value .output (ascii "/tmp/x\\y"), .plain (ascii "--no-compression")]
      [ascii "--", ascii "ls"] := .value rfl (.plain rfl (.stop rfl))
  obtain ⟨rfl, -⟩ := hunique _ _ hits
  obtain rfl : ascii "/tmp/x\\y" = out := Option.some.inj (hout ▸ by decide)
  refine ⟨p, h, ?_, outPrefix, ?_, hone⟩
  · rw [hmain]
    decide
  · rw [hpin]
    simp

end BulletTime.Launch
