import BulletTime.Lib.Directory
import BulletTime.Lib.Transition
import BulletTime.Setup.Names

/-!
# Setup — SharedFile

Which file the two processes map.  `ReceiverThread` opens, and creates where it is missing, the
file of the thread number in the directory `--hugepages` chooses; it removes the name after
`Listen`.  `ThreadStart` tries the two directories in a fixed order.  The two directories hold
anything at the start.

* A file is a directory and an inode number there: the two directories are two file systems.
* `Agrees`: what has to hold before the pintool's opens.
* `Placed.step`: the pintool's choice still agrees with the receiver's file exactly where the
  step meets that condition.
* `mapped_file_iff`: the pintool maps the receiver's file exactly when all its opens do.
-/

namespace BulletTime.Setup
open Decimal Transition

/-- A thread's number: the `int` the consumer has read, and Pin's. -/
structure ThreadNumber where
  tid : Int32
  threadId : UInt32
  same : (threadId.toNat : Int) = tid.toInt

/-- The name both processes give the file within either directory. -/
def sharedFile (digits : List UInt8) : List UInt8 := ascii "shared_mem_" ++ digits

/-- A file: whether it is in `/dev/hugepages` or in `/dev/shm`, and its inode number. -/
abbrev File := Bool × ℕ

/-- Where `ThreadStart` is: in its connect loop, before the open of the named directory's file, with
the file it has opened, with the file it has mapped, or gone through `exit(-1)`. -/
inductive PinShared where
  | connecting
  | probeHuge
  | probeShm
  | opened (f : File)
  | mapped (f : File)
  | exited
  deriving DecidableEq

/-- Where `ReceiverThread` is: before its open, with its file mapped and up to the end of `Listen`,
or past the removal of the name. -/
inductive RecvShared where
  | starting
  | mapped (f : File)
  | removed (f : File)
  deriving DecidableEq

/-- The file `ReceiverThread` has mapped. -/
def RecvShared.file : RecvShared → Option File
  | .starting => none
  | .mapped f | .removed f => some f

structure SharedSys where
  /-- `/dev/hugepages` and `/dev/shm`. -/
  content : Bool → Directory (List UInt8)
  recv : RecvShared
  pin : PinShared

/-- What Pin's open does with a path that has no file. -/
inductive OnMissing where
  | fails
  | creates
  deriving DecidableEq

/-- A step: the receiver maps its file; both connects have succeeded; the receiver of an earlier
thread of this number removes the name; this receiver does, after `Listen`; the pintool's opens and
its mapping. -/
inductive SharedAction where
  | receiverMaps
  | connect
  | earlierRemoves
  | removes
  | openHuge (missing : OnMissing)
  | openShm (missing : OnMissing)
  | map (ok : Bool)
  deriving DecidableEq

namespace SharedSys

/-- Any content of the two directories. -/
def init (content : Bool → Directory (List UInt8)) : SharedSys where
  content := content
  recv := .starting
  pin := .connecting

/-- The consumer's file name. -/
def name (t : ThreadNumber) : List UInt8 := sharedFile (renderInt t.tid.toInt)

/-- The pintool's file name. -/
def pinName (t : ThreadNumber) : List UInt8 := sharedFile (render t.threadId.toNat)

/-- `remove(file_name)`. -/
def unlink (useHugepages : Bool) (t : ThreadNumber) (s : SharedSys) : SharedSys :=
  { s with
    content := Function.update s.content useHugepages ((s.content useHugepages).remove (name t)) }

/-- `OS_OpenFD` on the file of directory `d`: what is opened, and the directories after it. -/
def openFD (t : ThreadNumber) (s : SharedSys) (d : Bool) (missing : OnMissing) :
    Option (SharedSys × File) :=
  match (s.content d).inode (pinName t), missing with
  | some i, _ => some (s, (d, i))
  | none, .fails => none
  | none, .creates =>
      some ({ s with content := Function.update s.content d ((s.content d).create (pinName t)) },
        (d, (s.content d).next))

def step (useHugepages : Bool) (t : ThreadNumber) (s : SharedSys) :
    SharedAction → Option SharedSys
  | .receiverMaps =>
      match s.recv with
      | .starting =>
          let o := (s.content useHugepages).openCreat (name t)
          some { s with
            content := Function.update s.content useHugepages o.1
            recv := .mapped (useHugepages, o.2) }
      | _ => none
  | .connect =>
      match s.recv, s.pin with
      | .mapped _, .connecting => some { s with pin := .probeHuge }
      | _, _ => none
  | .earlierRemoves => some (unlink useHugepages t s)
  | .removes =>
      match s.recv, s.pin with
      | .mapped _, .connecting => none
      | .mapped f, _ => some { unlink useHugepages t s with recv := .removed f }
      | _, _ => none
  | .openHuge missing =>
      match s.pin with
      | .probeHuge =>
          match openFD t s true missing with
          | some (s, f) => some { s with pin := .opened f }
          | none => some { s with pin := .probeShm }
      | _ => none
  | .openShm missing =>
      match s.pin with
      | .probeShm =>
          match openFD t s false missing with
          | some (s, f) => some { s with pin := .opened f }
          | none => some { s with pin := .exited }
      | _ => none
  | .map ok =>
      match s.pin with
      | .opened f => some { s with pin := if ok then .mapped f else .exited }
      | _ => none

/-- What agreement asks of the pintool's opens.  With huge pages the first finds the receiver's file
under its name; without, it finds no file and makes none, and the second finds the receiver's. -/
def Agrees (useHugepages : Bool) (t : ThreadNumber) (s : SharedSys) : SharedAction → Prop
  | .openHuge missing =>
      if useHugepages then (s.content true).inode (name t) ≠ none
      else (s.content true).inode (name t) = none ∧ missing = .fails
  | .openShm _ => useHugepages = false ∧ (s.content false).inode (name t) ≠ none
  | .receiverMaps | .connect | .earlierRemoves | .removes | .map _ => True

/-- What the receiver has mapped is in the directory of its flag; up to the pintool's choice, its
name stands for nothing else. -/
structure Placed (useHugepages : Bool) (t : ThreadNumber) (s : SharedSys) : Prop where
  flag : ∀ f, s.recv.file = some f → f.1 = useHugepages ∧ f.2 < (s.content useHugepages).next
  connected : s.pin ≠ .connecting → s.recv ≠ .starting
  named : ∀ f i, s.recv.file = some f →
    s.pin = .connecting ∨ s.pin = .probeHuge ∨ s.pin = .probeShm →
    (s.content useHugepages).inode (name t) = some i → f = (useHugepages, i)

/-- What the pintool has chosen so far, or may still choose, is the receiver's file. -/
def Agreeing (useHugepages : Bool) (s : SharedSys) : Prop :=
  match s.pin with
  | .connecting | .probeHuge => True
  | .probeShm => useHugepages = false
  | .opened f | .mapped f => s.recv.file = some f
  | .exited => False

variable {useHugepages : Bool} {t : ThreadNumber} {s s' : SharedSys} {a : SharedAction}

theorem pinName_eq (t : ThreadNumber) : pinName t = name t := by
  rw [pinName, name, ← t.same]
  rfl

theorem content_unlink_self :
    (unlink useHugepages t s).content useHugepages = (s.content useHugepages).remove (name t) :=
  Function.update_self _ _ _

theorem placed_init (content : Bool → Directory (List UInt8)) :
    Placed useHugepages t (init content) where
  flag _ h := by cases h
  connected h := absurd rfl h
  named _ _ h := by cases h

/-- Removing the name keeps the rest in place. -/
theorem Placed.unlink (h : Placed useHugepages t s) :
    Placed useHugepages t (unlink useHugepages t s) where
  flag f hf := by
    rw [content_unlink_self, Directory.next_remove]
    exact h.flag f hf
  connected := h.connected
  named f i hf _ hi := by
    rw [content_unlink_self, Directory.inode_remove_self] at hi
    cases hi

/-- **The pintool's open** of the file in directory `d`: it opens the receiver's file exactly where
`d` is the receiver's directory and the name is still there. -/
theorem openFD_spec (h : Placed useHugepages t s) (hr : s.recv ≠ .starting)
    (hp : s.pin = .probeHuge ∨ s.pin = .probeShm) {d : Bool} {missing : OnMissing} {f : File}
    (ho : openFD t s d missing = some (s', f)) :
    s'.recv = s.recv ∧ s'.pin = s.pin ∧
      (∀ f, s.recv.file = some f → f.2 < (s'.content useHugepages).next) ∧
      (s.recv.file = some f ↔ d = useHugepages ∧ (s.content d).inode (name t) ≠ none) := by
  obtain ⟨g, hg⟩ : ∃ g, s.recv.file = some g := by
    cases hrecv : s.recv with
    | starting => exact absurd hrecv hr
    | mapped g | removed g => exact ⟨g, rfl⟩
  obtain ⟨hflag, hlt⟩ := h.flag g hg
  simp only [openFD, pinName_eq] at ho
  cases hi : (s.content d).inode (name t) with
  | some i =>
      rw [hi] at ho
      obtain ⟨rfl, rfl⟩ := Prod.mk.inj (Option.some.inj ho)
      refine ⟨rfl, rfl, fun f hf => (h.flag f hf).2, ?_⟩
      rw [hg]
      constructor
      · intro e
        obtain rfl := Option.some.inj e
        exact ⟨hflag, by simp⟩
      · rintro ⟨rfl, -⟩
        rw [h.named g i hg (.inr hp) hi]
  | none =>
      rw [hi] at ho
      cases missing with
      | fails => cases ho
      | creates =>
          obtain ⟨rfl, rfl⟩ := Prod.mk.inj (Option.some.inj ho)
          refine ⟨rfl, rfl, fun f hf => ?_, ?_⟩
          · obtain ⟨-, hlt⟩ := h.flag f hf
            by_cases hd : useHugepages = d
            · subst hd
              simp only [Function.update_self, Directory.next_create]
              exact Nat.lt_succ_of_lt hlt
            · simp only [Function.update_of_ne hd]
              exact hlt
          · -- a file Pin creates is not the receiver's
            refine iff_of_false (fun e => ?_) (fun e => e.2 rfl)
            rw [hg] at e
            obtain rfl := Option.some.inj e
            obtain rfl := hflag
            exact lt_irrefl _ hlt

/-- With a file open, the receiver's stays in place. -/
theorem Placed.opened (h : Placed useHugepages t s) (hr : s.recv ≠ .starting)
    (hp : s.pin = .probeHuge ∨ s.pin = .probeShm) {d : Bool} {missing : OnMissing} {f : File}
    (ho : openFD t s d missing = some (s', f)) :
    Placed useHugepages t { s' with pin := .opened f } := by
  obtain ⟨hrecv, -, hlt, -⟩ := openFD_spec h hr hp ho
  refine ⟨fun g hg => ?_, fun _ => hrecv ▸ hr, fun g i _ hg => by simp at hg⟩
  rw [hrecv] at hg
  exact ⟨(h.flag g hg).1, hlt g hg⟩

/-- An open that fails finds no file. -/
theorem openFD_eq_none {d : Bool} {missing : OnMissing} :
    openFD t s d missing = none ↔ (s.content d).inode (name t) = none ∧ missing = .fails := by
  simp only [openFD, pinName_eq]
  cases (s.content d).inode (name t) <;> cases missing <;> simp

/-- What a step keeps: the files stay in place, and the choice still agrees exactly where it did and
the step meets the condition. -/
structure Chooses (useHugepages : Bool) (t : ThreadNumber) (s : SharedSys) (a : SharedAction)
    (s' : SharedSys) : Prop where
  placed : Placed useHugepages t s'
  exited : s.pin = .exited → s'.pin = .exited
  agreeing : s'.pin ≠ .exited →
    (Agreeing useHugepages s' ↔ Agreeing useHugepages s ∧ Agrees useHugepages t s a)

/-- The receiver's open: the pintool has not chosen yet. -/
theorem Placed.receiverMaps (h : Placed useHugepages t s)
    (hs : step useHugepages t s .receiverMaps = some s') :
    Chooses useHugepages t s .receiverMaps s' := by
  simp only [SharedSys.step] at hs
  split at hs
  · rename_i hrecv
    obtain rfl := Option.some.inj hs
    have hpin : s.pin = .connecting := by
      by_contra hpin
      exact h.connected hpin hrecv
    refine ⟨⟨?_, fun _ => by simp, ?_⟩, id, fun _ => ?_⟩
    · rintro f ⟨⟩
      refine ⟨rfl, ?_⟩
      simp only [Function.update_self]
      exact Directory.openCreat_lt
    · rintro f i ⟨⟩ - hi
      simp only [Function.update_self, Directory.inode_openCreat_self] at hi
      rw [Option.some.inj hi]
    · simp [Agreeing, hpin, Agrees]
  · cases hs

theorem Placed.connect (h : Placed useHugepages t s)
    (hs : step useHugepages t s .connect = some s') : Chooses useHugepages t s .connect s' := by
  simp only [SharedSys.step] at hs
  split at hs
  · rename_i f hrecv hpin
    obtain rfl := Option.some.inj hs
    refine ⟨⟨h.flag, fun _ => by simp [hrecv],
      fun f i hf _ hi => h.named f i hf (.inl hpin) hi⟩, by simp [hpin], fun _ => ?_⟩
    simp [Agreeing, hpin, Agrees]
  · cases hs

/-- The receiver's `remove`: it keeps the file it has mapped. -/
theorem Placed.removes (h : Placed useHugepages t s)
    (hs : step useHugepages t s .removes = some s') : Chooses useHugepages t s .removes s' := by
  simp only [SharedSys.step] at hs
  split at hs
  · cases hs
  · rename_i f hrecv hpin
    obtain rfl := Option.some.inj hs
    have hfile : (RecvShared.removed f).file = s.recv.file := by rw [hrecv]; rfl
    have hu := h.unlink
    refine ⟨⟨fun g hg => hu.flag g (hfile ▸ hg), fun _ => by simp,
      fun g i hg hp hi => hu.named g i (hfile ▸ hg) hp hi⟩, id, fun _ => ?_⟩
    simp only [Agreeing, hfile, Agrees, and_true]
    rfl
  · cases hs

/-- The open under `/dev/hugepages`. -/
theorem Placed.openHuge (h : Placed useHugepages t s) {missing : OnMissing}
    (hs : step useHugepages t s (.openHuge missing) = some s') :
    Chooses useHugepages t s (.openHuge missing) s' := by
  simp only [SharedSys.step] at hs
  split at hs
  · rename_i hpin
    have hr := h.connected (by simp [hpin])
    cases ho : openFD t s true missing with
    | some p =>
        obtain ⟨s₁, f⟩ := p
        rw [ho] at hs
        obtain rfl := Option.some.inj hs
        obtain ⟨hrecv, -, -, hfile⟩ := openFD_spec h hr (.inl hpin) ho
        refine ⟨h.opened hr (.inl hpin) ho, by simp [hpin], fun _ => ?_⟩
        have hnone := openFD_eq_none.not.mp (by rw [ho]; simp)
        simp only [Agreeing, hrecv, hpin, hfile, Agrees, true_and]
        cases useHugepages with
        | true => simp
        | false => simpa using hnone
    | none =>
        rw [ho] at hs
        obtain rfl := Option.some.inj hs
        obtain ⟨hmissing, hfails⟩ := openFD_eq_none.mp ho
        refine ⟨⟨h.flag, fun _ => hr, fun f i hf _ hi => h.named f i hf (.inr (.inl hpin)) hi⟩,
          by simp [hpin], fun _ => ?_⟩
        cases useHugepages <;> simp [Agreeing, hpin, Agrees, hmissing, hfails]
  · cases hs

/-- The open under `/dev/shm`, after which there is no other. -/
theorem Placed.openShm (h : Placed useHugepages t s) {missing : OnMissing}
    (hs : step useHugepages t s (.openShm missing) = some s') :
    Chooses useHugepages t s (.openShm missing) s' := by
  simp only [SharedSys.step] at hs
  split at hs
  · rename_i hpin
    have hr := h.connected (by simp [hpin])
    cases ho : openFD t s false missing with
    | some p =>
        obtain ⟨s₁, f⟩ := p
        rw [ho] at hs
        obtain rfl := Option.some.inj hs
        obtain ⟨hrecv, -, -, hfile⟩ := openFD_spec h hr (.inr hpin) ho
        refine ⟨h.opened hr (.inr hpin) ho, by simp [hpin], fun _ => ?_⟩
        simp only [Agreeing, hrecv, hpin, hfile, Agrees]
        cases useHugepages <;> simp
    | none =>
        rw [ho] at hs
        obtain rfl := Option.some.inj hs
        exact ⟨⟨h.flag, fun _ => hr, fun f i _ hp => by simp at hp⟩, by simp [hpin],
          fun hne => absurd rfl hne⟩
  · cases hs

/-- The pintool's mapping is of the file it opened. -/
theorem Placed.map (h : Placed useHugepages t s) {ok : Bool}
    (hs : step useHugepages t s (.map ok) = some s') : Chooses useHugepages t s (.map ok) s' := by
  simp only [SharedSys.step] at hs
  split at hs
  · rename_i f hpin
    obtain rfl := Option.some.inj hs
    refine ⟨⟨h.flag, fun _ => h.connected (by simp [hpin]), fun g i _ hg => ?_⟩, by simp [hpin],
      fun hne => ?_⟩
    · cases ok <;> simp at hg
    · cases ok
      · exact absurd rfl hne
      · simp [Agreeing, hpin, Agrees]
  · cases hs

/-- **One step.** -/
theorem Placed.step (h : Placed useHugepages t s) (hs : step useHugepages t s a = some s') :
    Chooses useHugepages t s a s' := by
  cases a with
  | receiverMaps => exact h.receiverMaps hs
  | connect => exact h.connect hs
  | earlierRemoves =>
      obtain rfl := Option.some.inj hs
      exact ⟨h.unlink, id, fun _ => (and_iff_left trivial).symm⟩
  | removes => exact h.removes hs
  | openHuge missing => exact h.openHuge hs
  | openShm missing => exact h.openShm hs
  | map ok => exact h.map hs

/-- **A run**: as long as the pintool has not given up, its choice agrees exactly where every step
has met the condition. -/
theorem agreeing_iff {content : Bool → Directory (List UInt8)} {as : List SharedAction}
    (h : exec (SharedSys.step useHugepages t) (init content) as = some s) (hne : s.pin ≠ .exited) :
    Agreeing useHugepages s ↔
      EveryStep (SharedSys.step useHugepages t) (init content) as (Agrees useHugepages t) := by
  refine (exec_induction (P := fun as s => Placed useHugepages t s ∧ (s.pin ≠ .exited →
    (Agreeing useHugepages s ↔
      EveryStep (SharedSys.step useHugepages t) (init content) as (Agrees useHugepages t))))
    ⟨placed_init content, fun _ => iff_of_true trivial everyStep_nil⟩
    (fun as a s s' hs ih ht => ?_) h).2 hne
  obtain ⟨hplaced, hexit, hiff⟩ := ih.1.step ht
  refine ⟨hplaced, fun hne => ?_⟩
  rw [hiff hne, everyStep_snoc hs, ih.2 fun he => hne (hexit he)]

/-- **Both sides map the same file** exactly when the pintool's opens find what they should: the
receiver's file under its name and, where huge pages are off, no other one before it. -/
theorem mapped_file_iff {content : Bool → Directory (List UInt8)} {as : List SharedAction}
    {f : File} (h : exec (SharedSys.step useHugepages t) (init content) as = some s)
    (hp : s.pin = .mapped f) :
    s.recv.file = some f ↔
      EveryStep (SharedSys.step useHugepages t) (init content) as (Agrees useHugepages t) := by
  rw [← agreeing_iff h (by simp [hp]), Agreeing, hp]

/-- A file left in `/dev/hugepages` under the name of thread 0. -/
def leftover (d : Bool) : Directory (List UInt8) where
  inode n := if d = true ∧ n = sharedFile (ascii "0") then some 0 else none
  next := 1
  below n i h := by
    split at h
    · obtain rfl := Option.some.inj h
      exact Nat.one_pos
    · cases h

theorem mapped_file_iff_hugepages :
    ∃ s, exec (SharedSys.step true ⟨0, 0, rfl⟩) (init leftover)
        [.receiverMaps, .connect, .openHuge .fails, .map true] = some s ∧
      s.pin = .mapped (true, 0) ∧
      (s.recv.file = some (true, 0) ↔
        EveryStep (SharedSys.step true ⟨0, 0, rfl⟩) (init leftover)
          [.receiverMaps, .connect, .openHuge .fails, .map true] (Agrees true ⟨0, 0, rfl⟩)) :=
  ⟨_, rfl, rfl, mapped_file_iff rfl rfl⟩

/-- Huge pages off, and a file left under `/dev/hugepages`: the pintool maps that one. -/
theorem leftover_mapped :
    ∃ s, exec (SharedSys.step false ⟨0, 0, rfl⟩) (init leftover)
        [.receiverMaps, .connect, .openHuge .fails, .map true] = some s ∧
      s.pin = .mapped (true, 0) ∧ s.recv.file ≠ some (true, 0) :=
  ⟨_, rfl, rfl, by decide⟩

end SharedSys

end BulletTime.Setup
