import Mathlib.Data.List.Basic
import Mathlib.Logic.Function.Basic

/-!
# Lib — Directory

A directory as the files its names stand for.  A file is its inode number; creating a file takes
the next unused one, so a file that has lost its name is never mistaken for a later one.

* `openCreat`: what `open` with `O_CREAT` does to a name.
* `remove` and `rename`: the file stays, its name goes.
* `Unaliased`: no file has two names; opening and renaming keep it.
-/

/-- The names of a directory. -/
structure Directory (ν : Type*) where
  inode : ν → Option ℕ
  next : ℕ
  below : ∀ n i, inode n = some i → i < next

namespace Directory

variable {ν : Type*} [DecidableEq ν]

/-- No name at all. -/
def empty : Directory ν where
  inode _ := none
  next := 0
  below _ _ h := by cases h

/-- A new file under the name `n`. -/
def create (d : Directory ν) (n : ν) : Directory ν where
  inode := Function.update d.inode n (some d.next)
  next := d.next + 1
  below m i h := by
    by_cases hm : m = n
    · subst hm
      rw [Function.update_self] at h
      obtain rfl := Option.some.inj h
      exact Nat.lt_succ_self _
    · rw [Function.update_of_ne hm] at h
      exact Nat.lt_succ_of_lt (d.below m i h)

/-- `open(n, O_CREAT)`: the directory after it and the file opened. -/
def openCreat (d : Directory ν) (n : ν) : Directory ν × ℕ :=
  match d.inode n with
  | some i => (d, i)
  | none => (d.create n, d.next)

/-- The name `n` goes. -/
def remove (d : Directory ν) (n : ν) : Directory ν where
  inode := Function.update d.inode n none
  next := d.next
  below m i h := by
    by_cases hm : m = n
    · subst hm
      rw [Function.update_self] at h
      cases h
    · rw [Function.update_of_ne hm] at h
      exact d.below m i h

/-- The file of the name `n` gets the name `m`, in the place of the one that had it; `none` where
there is no such file. -/
def rename (d : Directory ν) (n m : ν) : Option (Directory ν) :=
  match h : d.inode n with
  | none => none
  | some i => some {
      inode := Function.update (Function.update d.inode n none) m (some i)
      next := d.next
      below := by
        intro k j hk
        by_cases hm : k = m
        · subst hm
          rw [Function.update_self] at hk
          obtain rfl := Option.some.inj hk
          exact d.below n i h
        · rw [Function.update_of_ne hm] at hk
          by_cases hn : k = n
          · subst hn
            rw [Function.update_self] at hk
            cases hk
          · rw [Function.update_of_ne hn] at hk
            exact d.below k j hk }

section Lemmas
variable {d e : Directory ν} {n m : ν} {i : ℕ}

@[simp] theorem inode_create_self : (d.create n).inode n = some d.next := Function.update_self _ _ _

theorem inode_create_of_ne (h : m ≠ n) : (d.create n).inode m = d.inode m :=
  Function.update_of_ne h _ _

@[simp] theorem next_create : (d.create n).next = d.next + 1 := rfl

@[simp] theorem inode_remove_self : (d.remove n).inode n = none := Function.update_self _ _ _

@[simp] theorem next_remove : (d.remove n).next = d.next := rfl

/-- A name that is there is opened as it is. -/
theorem openCreat_of_some (h : d.inode n = some i) : d.openCreat n = (d, i) := by
  simp only [openCreat, h]

theorem openCreat_of_none (h : d.inode n = none) : d.openCreat n = (d.create n, d.next) := by
  simp only [openCreat, h]

/-- What has been opened is what the name stands for. -/
theorem inode_openCreat_self : (d.openCreat n).1.inode n = some (d.openCreat n).2 := by
  cases h : d.inode n with
  | some i => rw [openCreat_of_some h]; exact h
  | none => rw [openCreat_of_none h]; exact inode_create_self

/-- What has been opened was there, or is new. -/
theorem openCreat_eq (d : Directory ν) (n : ν) :
    d.inode n = some (d.openCreat n).2 ∨ (d.openCreat n).2 = d.next := by
  cases h : d.inode n with
  | some i => rw [openCreat_of_some h]; exact .inl rfl
  | none => rw [openCreat_of_none h]; exact .inr rfl

theorem next_le_openCreat : d.next ≤ (d.openCreat n).1.next := by
  cases h : d.inode n with
  | some i => exact Nat.le_of_eq (by rw [openCreat_of_some h])
  | none => rw [openCreat_of_none h]; exact Nat.le_succ _

theorem openCreat_lt : (d.openCreat n).2 < (d.openCreat n).1.next :=
  (d.openCreat n).1.below n _ inode_openCreat_self

/-- **After a rename** the new name stands for the file, the old one for none, the others for what
they did. -/
theorem rename_spec (h : d.rename n m = some e) (hne : n ≠ m) :
    (∃ i, d.inode n = some i ∧ e.inode m = some i) ∧ e.inode n = none ∧ e.next = d.next ∧
      ∀ k, k ≠ n → k ≠ m → e.inode k = d.inode k := by
  unfold rename at h
  split at h
  · cases h
  · rename_i i hi
    obtain rfl := Option.some.inj h
    refine ⟨⟨i, hi, Function.update_self _ _ _⟩, ?_, rfl, fun k hn hm => ?_⟩
    · simp only [Function.update_of_ne hne, Function.update_self]
    · simp only [Function.update_of_ne hm, Function.update_of_ne hn]

/-! ### One name a file -/

/-- No file has two names. -/
def Unaliased (d : Directory ν) : Prop :=
  ∀ n m i, d.inode n = some i → d.inode m = some i → n = m

/-- What a name stands for after an open, it stood for before or it is what was opened. -/
theorem inode_openCreat (h : (d.openCreat n).1.inode m = some i) :
    d.inode m = some i ∨ m = n ∧ i = (d.openCreat n).2 := by
  by_cases hm : m = n
  · subst hm
    rw [inode_openCreat_self] at h
    exact .inr ⟨rfl, (Option.some.inj h).symm⟩
  · left
    cases ho : d.inode n with
    | some j => rwa [openCreat_of_some ho] at h
    | none => rwa [openCreat_of_none ho, inode_create_of_ne hm] at h

/-- An open names no other file than before with a name it does not open. -/
theorem Unaliased.name_of_openCreat (hd : d.Unaliased) (h : d.inode m = some (d.openCreat n).2) :
    m = n := by
  cases ho : d.inode n with
  | some j =>
      rw [openCreat_of_some ho] at h
      exact hd m n j h ho
  | none =>
      rw [openCreat_of_none ho] at h
      exact absurd (d.below m _ h) (Nat.lt_irrefl _)

theorem Unaliased.openCreat (hd : d.Unaliased) : (d.openCreat n).1.Unaliased := by
  intro k m i hk hm
  rcases inode_openCreat hk with hk' | ⟨rfl, hi⟩
  · rcases inode_openCreat hm with hm' | ⟨rfl, hi⟩
    · exact hd k m i hk' hm'
    · rw [hi] at hk'
      exact hd.name_of_openCreat hk'
  · rcases inode_openCreat hm with hm' | ⟨rfl, -⟩
    · rw [hi] at hm'
      exact (hd.name_of_openCreat hm').symm
    · rfl

/-- What a name stands for after a rename, it or the old name stood for. -/
theorem inode_rename (h : d.rename n m = some e) (hne : n ≠ m) {k : ν} (hk : e.inode k = some i) :
    k ≠ n ∧ (k ≠ m ∧ d.inode k = some i ∨ k = m ∧ d.inode n = some i) := by
  obtain ⟨⟨j, hj, hm⟩, hn, -, hother⟩ := rename_spec h hne
  have hkn : k ≠ n := by
    rintro rfl
    rw [hn] at hk
    cases hk
  refine ⟨hkn, ?_⟩
  by_cases hkm : k = m
  · subst hkm
    rw [hm] at hk
    obtain rfl := Option.some.inj hk
    exact .inr ⟨rfl, hj⟩
  · rw [hother k hkn hkm] at hk
    exact .inl ⟨hkm, hk⟩

theorem Unaliased.rename (hd : d.Unaliased) (h : d.rename n m = some e) (hne : n ≠ m) :
    e.Unaliased := by
  intro k l i hk hl
  obtain ⟨hkn, hk⟩ := inode_rename h hne hk
  obtain ⟨hln, hl⟩ := inode_rename h hne hl
  rcases hk with ⟨hkm, hk⟩ | ⟨rfl, hk⟩ <;> rcases hl with ⟨hlm, hl⟩ | ⟨rfl, hl⟩
  · exact hd k l i hk hl
  · exact absurd (hd k n i hk hl) hkn
  · exact absurd (hd l n i hl hk) hln
  · rfl

end Lemmas

end Directory
