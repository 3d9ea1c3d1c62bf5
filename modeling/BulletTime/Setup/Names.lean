import BulletTime.Lib.Decimal
import BulletTime.Lib.LastOf

/-!
# Setup — Names

The names the two processes make for what they share of a thread: the ready socket, the size
socket and the file of the shared memory.  Each process makes them by itself, the consumer from the
`int` it has read out of the thread file's name, the pintool from Pin's thread number.

* A socket's name is what `strncpy` leaves of the path in `sun_path` (`sunPath`).
* `path_injective`: before that cut, a path tells directory, role and thread.
* `names_apart_iff`: two names are distinct unless they are shared-memory files of one thread
  number, whose directory is not that of the session, or sockets whose paths are cut alike.
* `sameNames`: the pintool makes the consumer's names.
-/

namespace BulletTime.Setup
open Decimal LastOf

/-- What a name is made for. -/
inductive Role where
  | ready
  | size
  | shared
  deriving DecidableEq

/-- An output directory: bytes, as an argument of a program holds them. -/
structure Dir where
  bytes : List UInt8
  noNul : 0 ∉ bytes
  deriving DecidableEq

/-- `sizeof(sun_path) - 1`. -/
def sunPathMax : Nat := 107

/-- What `strncpy` copies of a string, at most `n` bytes. -/
def strncpy (s : List UInt8) (n : Nat) : List UInt8 := (s.takeWhile (· != 0)).take n

/-- The path of a socket as `sun_path` holds it. -/
def sunPath (name : List UInt8) : List UInt8 := strncpy name sunPathMax

/-- `base_dir`, which `--hugepages` chooses. -/
def baseDir (useHugepages : Bool) : List UInt8 :=
  if useHugepages then ascii "/dev/hugepages/" else ascii "/dev/shm/"

/-- The names `ReceiverThread` makes, from the directory of the session and the number parsed. -/
def consumerName (useHugepages : Bool) (targetDir : Dir) (tid : Int32) : Role → List UInt8
  | .ready => sunPath (targetDir.bytes ++ ascii "/rdy_" ++ renderInt tid.toInt)
  | .size => sunPath (targetDir.bytes ++ ascii "/size_" ++ renderInt tid.toInt)
  | .shared => baseDir useHugepages ++ ascii "shared_mem_" ++ renderInt tid.toInt

/-- The names `ThreadStart` makes; it tries two files for the shared memory, in this order. -/
def pintoolNames (dir : Dir) (tid : UInt32) : Role → List (List UInt8)
  | .ready => [sunPath (dir.bytes ++ ascii "/rdy_" ++ render tid.toNat)]
  | .size => [sunPath (dir.bytes ++ ascii "/size_" ++ render tid.toNat)]
  | .shared =>
      [ascii "/dev/hugepages/shared_mem_" ++ render tid.toNat,
        ascii "/dev/shm/shared_mem_" ++ render tid.toNat]

/-! ### Paths before the cut -/

/-- The beginning of a role's file name. -/
def Role.stem : Role → List UInt8
  | .ready => ascii "rdy_"
  | .size => ascii "size_"
  | .shared => ascii "shared_mem_"

/-- The directory a role's file stands in. -/
def Role.parent (useHugepages : Bool) (dir : Dir) : Role → List UInt8
  | .ready | .size => dir.bytes
  | .shared => if useHugepages then ascii "/dev/hugepages" else ascii "/dev/shm"

/-- The file name without its directory. -/
def fileName (tid : Int32) (role : Role) : List UInt8 := role.stem ++ renderInt tid.toInt

/-- The whole path: directory, slash, file name. -/
def path (useHugepages : Bool) (dir : Dir) (tid : Int32) (role : Role) : List UInt8 :=
  role.parent useHugepages dir ++ 47 :: fileName tid role

section Bytes
variable {h h₁ h₂ : Bool} {d d₁ d₂ : Dir} {t t₁ t₂ : Int32} {r r₁ r₂ : Role}

theorem mem_fileName {b : UInt8} (hb : b ∈ fileName t r) :
    b ∈ r.stem ∨ isDigit b = true ∨ b = 45 := by
  rcases List.mem_append.mp hb with hb | hb
  · exact .inl hb
  · exact .inr (mem_renderInt hb)

theorem slash_notMem_fileName (t : Int32) (r : Role) : 47 ∉ fileName t r := by
  intro hb
  rcases mem_fileName hb with hb | hb | hb
  · cases r <;> exact absurd hb (by decide)
  · exact absurd hb (by decide)
  · exact absurd hb (by decide)

theorem nul_notMem_path (h : Bool) (d : Dir) (t : Int32) (r : Role) : 0 ∉ path h d t r := by
  have hshared : ∀ h : Bool, 0 ∉ if h then ascii "/dev/hugepages" else ascii "/dev/shm" := by decide
  intro hb
  rcases List.mem_append.mp hb with hb | hb
  · cases r with
    | ready | size => exact d.noNul hb
    | shared => exact hshared h hb
  · rcases List.mem_cons.mp hb with hb | hb
    · exact absurd hb (by decide)
    · rcases mem_fileName hb with hb | hb | hb
      · cases r <;> exact absurd hb (by decide)
      · exact absurd hb (by decide)
      · exact absurd hb (by decide)

theorem take_fileName (t : Int32) (r : Role) : (fileName t r).take 2 = r.stem.take 2 := by
  cases r <;> rfl

/-- The stems differ within their first two bytes, so a file name tells role and thread. -/
theorem fileName_injective (e : fileName t₁ r₁ = fileName t₂ r₂) : t₁ = t₂ ∧ r₁ = r₂ := by
  have hstem : ∀ r₁ r₂ : Role, r₁.stem.take 2 = r₂.stem.take 2 → r₁ = r₂ := by
    intro r₁ r₂
    cases r₁ <;> cases r₂ <;> decide
  have he := congrArg (List.take 2) e
  rw [take_fileName, take_fileName] at he
  obtain rfl := hstem _ _ he
  exact ⟨Int32.toInt_inj.mp (renderInt_injective (List.append_cancel_left e)), rfl⟩

/-- **A whole path tells directory, role and thread.** -/
theorem path_injective (e : path h₁ d₁ t₁ r₁ = path h₂ d₂ t₂ r₂) :
    r₁.parent h₁ d₁ = r₂.parent h₂ d₂ ∧ t₁ = t₂ ∧ r₁ = r₂ := by
  obtain ⟨hp, hf⟩ := (append_cons_inj (slash_notMem_fileName t₁ r₁)
    (slash_notMem_fileName t₂ r₂)).mp e
  exact ⟨hp, fileName_injective hf⟩

theorem length_renderInt_le (t : Int32) : (renderInt t.toInt).length ≤ 11 := by
  have hlt := t.toInt_lt
  have hle := t.le_toInt
  cases hi : t.toInt with
  | ofNat n =>
      have hn : n < 10 ^ 11 := by rw [hi, Int.ofNat_eq_natCast] at hlt; omega
      exact (length_render_le_iff (by decide)).mpr hn
  | negSucc n =>
      have hn : n + 1 < 10 ^ 10 := by rw [hi] at hle; omega
      exact Nat.succ_le_succ ((length_render_le_iff (by decide)).mpr hn)

theorem length_path (h : Bool) (d : Dir) (t : Int32) (r : Role) :
    (path h d t r).length =
      (r.parent h d).length + 1 + r.stem.length + (renderInt t.toInt).length := by
  simp only [path, fileName, List.length_append, List.length_cons]
  omega

/-! ### The names -/

theorem strncpy_of_noNul {s : List UInt8} (h : 0 ∉ s) (n : Nat) : strncpy s n = s.take n := by
  have hs : s.takeWhile (· != 0) = s :=
    List.takeWhile_eq_self_iff.mpr fun b hb => bne_iff_ne.mpr (ne_of_mem_of_not_mem hb h)
  rw [strncpy, hs]

/-- **The consumer's names**: a socket's path is cut, the shared memory's is not. -/
theorem consumerName_eq (h : Bool) (d : Dir) (t : Int32) (r : Role) :
    consumerName h d t r =
      if r = .shared then path h d t r else (path h d t r).take sunPathMax := by
  have hcut := strncpy_of_noNul (nul_notMem_path h d t r) sunPathMax
  cases r with
  | ready | size =>
      rw [if_neg (by decide), ← hcut, consumerName, sunPath, List.append_assoc]
      rfl
  | shared =>
      rw [if_pos rfl]
      cases h <;> rfl

end Bytes

/-- The pintool's names are the consumer's: of the two files it tries for the shared memory, the
first is the consumer's with huge pages, the second the consumer's without. -/
def SameNames (h : Bool) (d : Dir) (t : Int32) (r : Role) : Prop :=
  ∀ u : UInt32, (u.toNat : Int) = t.toInt →
    pintoolNames d u r =
      if r = .shared then [consumerName true d t r, consumerName false d t r]
      else [consumerName h d t r]

theorem sameNames (h : Bool) (d : Dir) (t : Int32) (r : Role) : SameNames h d t r := by
  intro u hu
  have hr : render u.toNat = renderInt t.toInt := by rw [← hu]; rfl
  cases r with
  | ready | size =>
      rw [if_neg (by decide), pintoolNames, hr]
      rfl
  | shared =>
      rw [if_pos rfl, pintoolNames, hr]
      rfl

/-- Both names are of the shared memory of one thread number, in the same of the two directories:
that of the session is no part of them. -/
def SharedAlike (h₁ h₂ : Bool) (t₁ t₂ : Int32) (r₁ r₂ : Role) : Prop :=
  r₁ = .shared ∧ r₂ = .shared ∧ h₁ = h₂ ∧ t₁ = t₂

/-- Both names are of sockets, whose paths fill `sun_path` and agree as far as it goes. -/
def CutAlike (d₁ d₂ : Dir) (t₁ t₂ : Int32) (r₁ r₂ : Role) : Prop :=
  r₁ ≠ .shared ∧ r₂ ≠ .shared ∧
    sunPathMax ≤ (path false d₁ t₁ r₁).length ∧ sunPathMax ≤ (path false d₂ t₂ r₂).length ∧
    (path false d₁ t₁ r₁).take sunPathMax = (path false d₂ t₂ r₂).take sunPathMax

section Apart
variable {h h₁ h₂ : Bool} {d d₁ d₂ : Dir} {t t₁ t₂ : Int32} {r r₁ r₂ : Role}

/-- Two lists cut alike are one list, unless both reach the cut. -/
theorem take_eq_take_iff {α : Type*} {p q : List α} {n : Nat} :
    p.take n = q.take n ↔ p = q ∨ n ≤ p.length ∧ n ≤ q.length ∧ p.take n = q.take n := by
  constructor
  · intro e
    have hlen := congrArg List.length e
    rw [List.length_take, List.length_take] at hlen
    by_cases hn : n ≤ p.length ∧ n ≤ q.length
    · exact .inr ⟨hn.1, hn.2, e⟩
    · refine .inl ?_
      rwa [List.take_of_length_le (by omega), List.take_of_length_le (by omega)] at e
  · rintro (rfl | ⟨-, -, e⟩)
    · rfl
    · exact e

/-- A shared-memory file and a socket have distinct names. -/
theorem shared_ne_socket (hr : r ≠ .shared) :
    consumerName h₁ d₁ t₁ .shared ≠ consumerName h₂ d₂ t₂ r := by
  rw [consumerName_eq, consumerName_eq, if_pos rfl, if_neg hr]
  intro e
  have hparent : ∀ h : Bool,
      (if h then ascii "/dev/hugepages" else ascii "/dev/shm").length ≤ 14 := by decide
  have hlen : (path h₁ d₁ t₁ .shared).length < sunPathMax := by
    have hstem : Role.shared.stem.length = 11 := rfl
    have hmax : sunPathMax = 107 := rfl
    have := length_renderInt_le t₁
    have : (Role.shared.parent h₁ d₁).length ≤ 14 := hparent h₁
    rw [length_path]
    omega
  rw [← List.take_of_length_le (le_of_lt hlen)] at e
  rcases take_eq_take_iff.mp e with e | ⟨hle, -, -⟩
  · exact hr (path_injective e).2.2.symm
  · exact absurd hle (not_le.mpr hlen)

/-- Shared-memory files: the number and the directory for such files tell them apart. -/
theorem shared_eq_iff :
    consumerName h₁ d₁ t₁ .shared = consumerName h₂ d₂ t₂ .shared ↔ h₁ = h₂ ∧ t₁ = t₂ := by
  rw [consumerName_eq, consumerName_eq, if_pos rfl, if_pos rfl]
  constructor
  · intro e
    obtain ⟨hp, ht, -⟩ := path_injective e
    have hbase : ∀ h₁ h₂ : Bool, (if h₁ then ascii "/dev/hugepages" else ascii "/dev/shm") =
        (if h₂ then ascii "/dev/hugepages" else ascii "/dev/shm") → h₁ = h₂ := by decide
    exact ⟨hbase h₁ h₂ hp, ht⟩
  · rintro ⟨rfl, rfl⟩
    rfl

/-- Sockets: their paths tell them apart, up to the cut. -/
theorem socket_eq_iff (hr₁ : r₁ ≠ .shared) (hr₂ : r₂ ≠ .shared) :
    consumerName h₁ d₁ t₁ r₁ = consumerName h₂ d₂ t₂ r₂ ↔
      (d₁ = d₂ ∧ t₁ = t₂ ∧ r₁ = r₂) ∨ CutAlike d₁ d₂ t₁ t₂ r₁ r₂ := by
  have hsock : ∀ (h : Bool) (d : Dir) (t : Int32) (r : Role), r ≠ .shared →
      r.parent h d = d.bytes ∧ path h d t r = path false d t r := by
    intro h d t r hr
    cases r with
    | ready | size => exact ⟨rfl, rfl⟩
    | shared => exact absurd rfl hr
  rw [consumerName_eq, consumerName_eq, if_neg hr₁, if_neg hr₂, (hsock h₁ d₁ t₁ r₁ hr₁).2,
    (hsock h₂ d₂ t₂ r₂ hr₂).2, take_eq_take_iff]
  refine or_congr ⟨fun e => ?_, ?_⟩ ⟨fun e => ⟨hr₁, hr₂, e⟩, fun e => e.2.2⟩
  · obtain ⟨hp, ht, hr⟩ := path_injective e
    rw [(hsock false d₁ t₁ r₁ hr₁).1, (hsock false d₂ t₂ r₂ hr₂).1] at hp
    refine ⟨?_, ht, hr⟩
    cases d₁
    cases d₂
    simpa using hp
  · rintro ⟨rfl, rfl, rfl⟩
    rfl

/-- **Names of distinct things are distinct**, and the same in both processes, exactly when they
are not of shared memory of one thread number and not of sockets cut alike. -/
theorem names_apart_iff (hne : (d₁, t₁, r₁) ≠ (d₂, t₂, r₂)) :
    (consumerName h₁ d₁ t₁ r₁ ≠ consumerName h₂ d₂ t₂ r₂ ∧
        SameNames h₁ d₁ t₁ r₁ ∧ SameNames h₂ d₂ t₂ r₂) ↔
      ¬ SharedAlike h₁ h₂ t₁ t₂ r₁ r₂ ∧ ¬ CutAlike d₁ d₂ t₁ t₂ r₁ r₂ := by
  rw [and_iff_left ⟨sameNames h₁ d₁ t₁ r₁, sameNames h₂ d₂ t₂ r₂⟩, ← not_or, ne_eq, not_iff_not]
  by_cases hr₁ : r₁ = .shared
  · subst hr₁
    have hcut : ¬ CutAlike d₁ d₂ t₁ t₂ .shared r₂ := fun hc => hc.1 rfl
    by_cases hr₂ : r₂ = .shared
    · subst hr₂
      rw [shared_eq_iff, or_iff_left hcut]
      exact ⟨fun e => ⟨rfl, rfl, e⟩, fun e => e.2.2⟩
    · refine iff_of_false (shared_ne_socket hr₂) ?_
      rintro (e | e)
      · exact hr₂ e.2.1
      · exact hcut e
  · have hshared : ¬ SharedAlike h₁ h₂ t₁ t₂ r₁ r₂ := fun hs => hr₁ hs.1
    rw [or_iff_right hshared]
    by_cases hr₂ : r₂ = .shared
    · subst hr₂
      exact iff_of_false (shared_ne_socket hr₁).symm fun hc => hc.2.1 rfl
    · rw [socket_eq_iff hr₁ hr₂, or_iff_right]
      rintro ⟨rfl, rfl, rfl⟩
      exact hne rfl

theorem names_apart_iff_readySize :
    ((⟨ascii "/tmp/a", by decide⟩, 7, .ready) : Dir × Int32 × Role) ≠
        (⟨ascii "/tmp/a", by decide⟩, 7, .size) ∧
      ((consumerName true ⟨ascii "/tmp/a", by decide⟩ 7 .ready ≠
            consumerName true ⟨ascii "/tmp/a", by decide⟩ 7 .size ∧
          SameNames true ⟨ascii "/tmp/a", by decide⟩ 7 .ready ∧
          SameNames true ⟨ascii "/tmp/a", by decide⟩ 7 .size) ↔
        ¬ SharedAlike true true 7 7 .ready .size ∧
          ¬ CutAlike ⟨ascii "/tmp/a", by decide⟩ ⟨ascii "/tmp/a", by decide⟩ 7 7 .ready .size) :=
  ⟨by decide, names_apart_iff (by decide)⟩

/-- Two sessions in distinct directories, and a thread of number 0 in each: one shared buffer. -/
theorem shared_name_collision :
    (⟨ascii "/tmp/a", by decide⟩ : Dir) ≠ ⟨ascii "/tmp/b", by decide⟩ ∧
      consumerName true ⟨ascii "/tmp/a", by decide⟩ 0 .shared =
        consumerName true ⟨ascii "/tmp/b", by decide⟩ 0 .shared := by
  decide

/-! ### Where the cut does not matter -/

/-- A directory of at most 89 bytes leaves every path whole. -/
theorem not_cutAlike (hd : d₁.bytes.length ≤ 89) : ¬ CutAlike d₁ d₂ t₁ t₂ r₁ r₂ := by
  rintro ⟨hr, -, hle, -, -⟩
  have hmax : sunPathMax = 107 := rfl
  have := length_renderInt_le t₁
  rw [length_path, hmax] at hle
  cases r₁ with
  | ready =>
      have : Role.ready.stem.length = 4 := rfl
      simp only [Role.parent] at hle
      omega
  | size =>
      have : Role.size.stem.length = 5 := rfl
      simp only [Role.parent] at hle
      omega
  | shared => exact hr rfl

/-- **Within one session** whose directory has at most 89 bytes, no two threads share a name. -/
theorem session_names_injective (hd : d.bytes.length ≤ 89)
    (e : consumerName h d t₁ r₁ = consumerName h d t₂ r₂) : t₁ = t₂ ∧ r₁ = r₂ := by
  by_cases hr₁ : r₁ = .shared
  · subst hr₁
    by_cases hr₂ : r₂ = .shared
    · subst hr₂
      exact ⟨(shared_eq_iff.mp e).2, rfl⟩
    · exact absurd e (shared_ne_socket hr₂)
  · by_cases hr₂ : r₂ = .shared
    · subst hr₂
      exact absurd e.symm (shared_ne_socket hr₁)
    · rcases (socket_eq_iff hr₁ hr₂).mp e with e | hc
      · exact e.2
      · exact absurd hc (not_cutAlike hd)

/-- **Within one session**, the ready socket of a thread and the size socket of any thread are cut
alike exactly from 106 bytes of directory on. -/
theorem cutAlike_ready_size_iff :
    CutAlike d d t₁ t₂ .ready .size ↔ 106 ≤ d.bytes.length := by
  have hmax : sunPathMax = 107 := rfl
  have hpath : ∀ (t : Int32) (r : Role), r ≠ .shared →
      path false d t r = (d.bytes ++ [47]) ++ fileName t r := by
    intro t r hr
    rw [List.append_assoc, path]
    cases r with
    | ready | size => rfl
    | shared => exact absurd rfl hr
  have hlen : (d.bytes ++ [47]).length = d.bytes.length + 1 := List.length_append
  constructor
  · rintro ⟨-, -, -, -, e⟩
    by_contra hlt
    have hget := congrArg (fun l => l[d.bytes.length + 1]?) e
    simp only [hmax, List.getElem?_take_of_lt (by omega : d.bytes.length + 1 < 107)] at hget
    rw [hpath t₁ .ready (by decide), hpath t₂ .size (by decide), ← hlen,
      List.getElem?_append_right (le_refl _), List.getElem?_append_right (le_refl _),
      Nat.sub_self] at hget
    have hr : (fileName t₁ .ready)[0]? = some 114 := rfl
    have hs : (fileName t₂ .size)[0]? = some 115 := rfl
    rw [hr, hs] at hget
    exact absurd hget (by decide)
  · intro hd
    have htake : ∀ (t : Int32) (r : Role), r ≠ .shared →
        (path false d t r).take 107 = (d.bytes ++ [47]).take 107 := by
      intro t r hr
      rw [hpath t r hr, List.take_append_of_le_length (by omega)]
    have hle : ∀ (t : Int32) (r : Role), r ≠ .shared → 107 ≤ (path false d t r).length := by
      intro t r hr
      rw [hpath t r hr, List.length_append]
      omega
    exact ⟨by decide, by decide, hle _ _ (by decide), hle _ _ (by decide),
      by rw [hmax, htake _ _ (by decide), htake _ _ (by decide)]⟩

end Apart

end BulletTime.Setup
