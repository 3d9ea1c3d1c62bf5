import BulletTime.Lib.PosixPath
import BulletTime.Setup.Receiver

/-!
# Setup — Session

What the pintool makes of `-outprefix`: the directory of the session, which `main`, `ThreadStart`
and `Fini` each take from it anew, and the name of a thread's file.

* `readName_threadName`: the consumer reads the two numbers back out of the name.
* `parentDir_append_cons` and `parentDir_of_forall_notMem`: where a search splits the string.
* `one_directory_iff`: the three directories are the same one unless a backslash stands behind the
  last slash, with a name between them.

`[about the source]`: `main` searches for a slash or a backslash, the other two for a slash.
-/

namespace BulletTime.Setup
open Decimal LastOf PosixPath

/-- The value of `-outprefix`, which is not empty: a `std::string`, whose length `npos` is not. -/
structure OutPrefix where
  bytes : List UInt8
  ne_nil : bytes ≠ []
  short : bytes.length < npos

/-- `s.find_last_of(chars)`. -/
def findLastOf (chars s : List UInt8) : Nat := (lastWith (fun b => decide (b ∈ chars)) s).getD npos

/-- `substr(0, found)` of the value, `found` its last of `chars`. -/
def parentDir (chars s : List UInt8) : List UInt8 := s.take (findLastOf chars s)

/-- `substr(found + 1)` of the value, `found` its last slash. -/
def filePrefix (s : List UInt8) : List UInt8 :=
  s.drop ((findLastOf (ascii "/") s + 1) % 2 ^ 64)

/-- The directory `main` creates. -/
def mainPids (s : List UInt8) : List UInt8 := parentDir (ascii "/\\") s ++ ascii "/pids"

/-- `pid_dir` of `ThreadStart`. -/
def pidDir (s : List UInt8) : List UInt8 := parentDir (ascii "/") s ++ ascii "/pids/"

/-- `prefix` of `ThreadStart`, which it also writes into the file. -/
def threadName (s : List UInt8) (nativeTid tid : Nat) : List UInt8 :=
  threadFile (filePrefix s) nativeTid tid

/-- `fname` of `ThreadStart`. -/
def threadPath (s : List UInt8) (nativeTid tid : Nat) : List UInt8 :=
  pidDir s ++ threadName s nativeTid tid

/-- `rdy_name` of `ThreadStart`. -/
def rdyPath (s : List UInt8) (tid : Nat) : List UInt8 :=
  parentDir (ascii "/") s ++ ascii "/rdy_" ++ render tid

/-- `size_name` of `ThreadStart`. -/
def sizePath (s : List UInt8) (tid : Nat) : List UInt8 :=
  parentDir (ascii "/") s ++ ascii "/size_" ++ render tid

/-- `stop` of `Fini`. -/
def stopPath (s : List UInt8) : List UInt8 := parentDir (ascii "/") s ++ ascii "/pids/stop"

/-! ### The thread's name -/

/-- **A thread's name is read back**, for every output prefix. -/
theorem readName_threadName (s : List UInt8) {nativeTid tid : Nat} (hn : nativeTid < 2 ^ 31)
    (ht : tid < 2 ^ 31) : readName (threadName s nativeTid tid) = .ok (some (nativeTid, tid)) :=
  readName_threadFile _ hn ht

theorem readName_threadName_dots :
    readName (threadName (ascii "/tmp/run-1.2/a-3.4") 41 0) = .ok (some (41, 0)) :=
  readName_threadName _ (by decide) (by decide)

/-! ### The two parts

No `substr` throws: its first argument is at most the length. -/

theorem findLastOf_lt_or_eq (chars s : List UInt8) :
    findLastOf chars s < s.length ∨ findLastOf chars s = npos := by
  rw [findLastOf]
  cases h : lastWith (fun b => decide (b ∈ chars)) s with
  | none => exact .inr rfl
  | some i => exact .inl (lastWith_lt h)

theorem substr_parentDir (chars s : List UInt8) :
    substr s 0 (findLastOf chars s) = .ok (parentDir chars s) :=
  substr_of_le (Nat.zero_le _)

theorem substr_filePrefix (s : OutPrefix) :
    substr s.bytes ((findLastOf (ascii "/") s.bytes + 1) % 2 ^ 64) npos =
      .ok (filePrefix s.bytes) := by
  have hshort := s.short
  have hle : (findLastOf (ascii "/") s.bytes + 1) % 2 ^ 64 ≤ s.bytes.length := by
    rcases findLastOf_lt_or_eq (ascii "/") s.bytes with h | h
    · exact (Nat.mod_le _ _).trans h
    · rw [h]
      exact Nat.zero_le _
  rw [substr_of_le hle, filePrefix, List.take_of_length_le]
  rw [List.length_drop]
  exact (Nat.sub_le _ _).trans hshort.le

/-! ### The directory -/

/-- The directory `main` creates, that of the thread files and that of the stop file are the same;
the sockets stand in the directory above. -/
def OneDirectory (s : List UInt8) (nativeTid tid : Nat) : Prop :=
  Same (mainPids s) (parent (threadPath s nativeTid tid)) ∧
    Same (parent (stopPath s)) (parent (threadPath s nativeTid tid)) ∧
    parent (rdyPath s tid) = parent (parent (threadPath s nativeTid tid)) ∧
    parent (sizePath s tid) = parent (parent (threadPath s nativeTid tid))

/-- Where there is a backslash there is a slash too, and from the last slash to the last backslash
nothing stands, or a period. -/
def NoBackslashName (s : List UInt8) : Prop :=
  ∀ b, lastOf 92 s = some b → ∃ f, lastOf 47 s = some f ∧
    ((s.take b).drop (f + 1) = [] ∨ (s.take b).drop (f + 1) = [46])

section Splits
variable {chars a q s : List UInt8} {c : UInt8}

/-- A search splits the string at the last of its characters. -/
theorem parentDir_append_cons (hc : c ∈ chars) (hq : ∀ b ∈ q, b ∉ chars) :
    parentDir chars (a ++ c :: q) = a := by
  have hlast := lastWith_append_cons (p := fun b => decide (b ∈ chars)) a (decide_eq_true hc)
    fun b hb => decide_eq_false (hq b hb)
  rw [parentDir, findLastOf, hlast]
  exact List.take_left

/-- Without one of them the directory is the whole string. -/
theorem parentDir_of_forall_notMem (hs : ∀ b ∈ s, b ∉ chars) (hlen : s.length < npos) :
    parentDir chars s = s := by
  rw [parentDir, findLastOf, lastWith_eq_none fun b hb => decide_eq_false (hs b hb)]
  exact List.take_of_length_le hlen.le

/-- The three places split the string alike at its last slash. -/
theorem slash_split (s : OutPrefix) :
    (∃ a q, s.bytes = a ++ 47 :: q ∧ 47 ∉ q ∧ parentDir (ascii "/") s.bytes = a ∧
      filePrefix s.bytes = q) ∨
    (47 ∉ s.bytes ∧ parentDir (ascii "/") s.bytes = s.bytes ∧ filePrefix s.bytes = s.bytes) := by
  have hslash : ∀ l : List UInt8, 47 ∉ l → ∀ b ∈ l, b ∉ ascii "/" := by
    intro l hl b hb hmem
    obtain rfl := List.mem_singleton.mp hmem
    exact hl hb
  have hshort := s.short
  by_cases h : 47 ∈ s.bytes
  · left
    obtain ⟨a, q, e, hq⟩ := exists_split_of_mem h
    have hlast := lastWith_append_cons (p := fun b => decide (b ∈ ascii "/")) (c := 47) a
      (by decide) fun b hb => decide_eq_false (hslash q hq b hb)
    -- `found + 1` does not wrap
    have hlen : a.length + 1 < 2 ^ 64 := by
      have hnpos : npos = 2 ^ 64 - 1 := rfl
      rw [e, List.length_append, List.length_cons] at hshort
      omega
    refine ⟨a, q, e, hq, ?_, ?_⟩
    · rw [e]
      exact parentDir_append_cons (by decide) (hslash q hq)
    · rw [e, filePrefix, findLastOf, hlast, Option.getD_some, Nat.mod_eq_of_lt hlen]
      simp
  · right
    have hnone := lastWith_eq_none (p := fun b => decide (b ∈ ascii "/"))
      fun b hb => decide_eq_false (hslash _ h b hb)
    refine ⟨h, parentDir_of_forall_notMem (hslash _ h) hshort, ?_⟩
    rw [filePrefix, findLastOf, hnone]
    rfl

end Splits

/-! ### The paths -/

theorem slash_notMem_render (n : Nat) : 47 ∉ render n :=
  fun h => absurd (isDigit_of_mem_render h) (by decide)

/-- The name of a file has no slash. -/
theorem slash_notMem_threadName (s : OutPrefix) (nativeTid tid : Nat) :
    47 ∉ threadName s.bytes nativeTid tid := by
  have hprefix : 47 ∉ filePrefix s.bytes := by
    rcases slash_split s with ⟨a, q, -, hq, -, h⟩ | ⟨hs, -, h⟩
    · rwa [h]
    · rwa [h]
  intro h
  simp only [threadName, threadFile, List.mem_append] at h
  rcases h with (((h | h) | h) | h) | h
  · exact hprefix h
  · exact absurd h (by decide)
  · exact slash_notMem_render _ h
  · exact absurd h (by decide)
  · exact slash_notMem_render _ h

theorem parent_threadPath (s : OutPrefix) (nativeTid tid : Nat) :
    parent (threadPath s.bytes nativeTid tid) = parentDir (ascii "/") s.bytes ++ ascii "/pids" := by
  have hsplit : ascii "/pids/" = ascii "/pids" ++ [47] := by decide
  rw [threadPath, pidDir, hsplit, ← List.append_assoc, List.append_assoc _ [47]]
  exact parent_append_slash _ (slash_notMem_threadName s nativeTid tid)

theorem parent_stopPath (s : List UInt8) :
    parent (stopPath s) = parentDir (ascii "/") s ++ ascii "/pids" := by
  have hsplit : ascii "/pids/stop" = ascii "/pids" ++ 47 :: ascii "stop" := by decide
  rw [stopPath, hsplit, ← List.append_assoc]
  exact parent_append_slash _ (by decide)

/-- A file beside the directory of the thread files. -/
theorem parent_beside {name : List UInt8} (s : List UInt8) (tid : Nat) (h : 47 ∉ name) :
    parent (parentDir (ascii "/") s ++ 47 :: name ++ render tid) = parentDir (ascii "/") s := by
  rw [List.append_assoc]
  refine parent_append_slash _ ?_
  exact List.not_mem_append h (slash_notMem_render tid)

/-- Neither of the characters `main` searches for. -/
theorem notMem_both {l : List UInt8} (h47 : 47 ∉ l) (h92 : 92 ∉ l) :
    ∀ b ∈ l, b ∉ ascii "/\\" := by
  intro b hb hmem
  rcases List.mem_pair.mp hmem with rfl | rfl
  · exact h47 hb
  · exact h92 hb

/-- No backslash behind the last slash. -/
theorem noBackslashName_of_notMem {a q : List UInt8} (h47 : 47 ∉ q) (h92 : 92 ∉ q) :
    NoBackslashName (a ++ 47 :: q) := by
  intro b hb
  refine ⟨a.length, lastOf_append_cons a h47, .inl ?_⟩
  obtain ⟨p, r, e, rfl, -⟩ := lastOf_eq_some_iff.mp hb
  refine List.drop_eq_nil_of_le ((List.length_take_le _ _).trans ?_)
  rcases List.append_eq_append_iff.mp e with ⟨l, rfl, hl⟩ | ⟨l, rfl, -⟩
  · -- the backslash would stand behind the slash
    cases l with
    | nil => cases hl
    | cons _ l => exact absurd ((List.cons.inj hl).2 ▸ List.mem_append_cons_self) h92
  · rw [List.length_append, Nat.add_assoc]
    exact Nat.le_add_right _ _

/-- A backslash behind the last slash. -/
theorem noBackslashName_append_iff {a m r : List UInt8} (hm : 47 ∉ m) (h47 : 47 ∉ r)
    (h92 : 92 ∉ r) : NoBackslashName (a ++ 47 :: m ++ 92 :: r) ↔ m = [] ∨ m = [46] := by
  have hslash : lastOf 47 (a ++ 47 :: m ++ 92 :: r) = some a.length := by
    rw [List.append_assoc]
    refine lastOf_append_cons a ?_
    exact List.not_mem_append hm (List.not_mem_cons_of_ne_of_not_mem (by decide) h47)
  have hdrop : (a ++ 47 :: m).drop (a.length + 1) = m := by
    simp
  rw [NoBackslashName, lastOf_append_cons _ h92, hslash]
  simp only [Option.some.injEq, forall_eq', exists_eq_left', List.take_left, hdrop]

/-- Without a slash `main` takes the name before the backslash, the others the whole string. -/
theorem not_same_of_no_slash {s r : List UInt8} (h47 : 47 ∉ s) (h92 : 92 ∈ s) :
    ¬ Same (parentDir (ascii "/\\") s ++ 47 :: r) (s ++ 47 :: r) := by
  obtain ⟨m, q, e, hq⟩ := exists_split_of_mem h92
  have hmq : 47 ∉ m ∧ 47 ∉ q := by
    rw [e, List.mem_append, List.mem_cons, not_or, not_or] at h47
    exact ⟨h47.1, h47.2.2⟩
  have hname : ¬ (s = [] ∨ s = [46]) := by
    rintro (rfl | rfl)
    · exact absurd h92 (by decide)
    · exact absurd h92 (by decide)
  intro hsame
  have hcomp := hsame.components_eq
  -- one name each, and the shorter one has no backslash
  rw [e, parentDir_append_cons (by decide) (notMem_both hmq.2 hq), ← e, components_of_notMem h47,
    if_neg hname, components_of_notMem hmq.1] at hcomp
  split_ifs at hcomp
  exact absurd ((List.cons.inj hcomp).1.trans e) (by simp)

theorem not_noBackslashName_of_no_slash {s : List UInt8} (h47 : 47 ∉ s) (h92 : 92 ∈ s) :
    ¬ NoBackslashName s := by
  intro h
  obtain ⟨b, hb⟩ := Option.ne_none_iff_exists'.mp fun hnone => lastOf_eq_none_iff.mp hnone h92
  obtain ⟨f, hf, -⟩ := h b hb
  rw [lastOf_eq_none_iff.mpr h47] at hf
  cases hf

/-- The directory of `main` is the one the others take exactly where its search stops at the same
slash, or at a backslash that adds no name. -/
theorem same_mainPids_iff (s : OutPrefix) :
    Same (mainPids s.bytes) (parentDir (ascii "/") s.bytes ++ ascii "/pids") ↔
      NoBackslashName s.bytes := by
  have hpids : ascii "/pids" = 47 :: ascii "pids" := rfl
  rw [mainPids, hpids]
  rcases slash_split s with ⟨a, q, e, h47, hdir, -⟩ | ⟨h47, hdir, -⟩
  · rw [hdir, e]
    by_cases h92 : 92 ∈ q
    · -- `main` stops at the backslash, and goes by way of `m`
      obtain ⟨m, r, rfl, hr⟩ := exists_split_of_mem h92
      rw [List.mem_append, List.mem_cons, not_or, not_or] at h47
      obtain ⟨hm, -, h47⟩ := h47
      rw [← List.cons_append, ← List.append_assoc,
        parentDir_append_cons (by decide) (notMem_both h47 hr), same_detour_iff hm,
        noBackslashName_append_iff hm h47 hr]
    · rw [parentDir_append_cons (by decide) (notMem_both h47 h92)]
      exact iff_of_true (Same.refl _) (noBackslashName_of_notMem h47 h92)
  · rw [hdir]
    by_cases h92 : 92 ∈ s.bytes
    · exact iff_of_false (not_same_of_no_slash h47 h92) (not_noBackslashName_of_no_slash h47 h92)
    · rw [parentDir_of_forall_notMem (notMem_both h47 h92) s.short]
      refine iff_of_true (Same.refl _) fun b hb => ?_
      rw [lastOf_eq_none_iff.mpr h92] at hb
      cases hb

/-- **One session directory** exactly when no name stands between the last slash and a later
backslash, and without a slash there is no backslash. -/
theorem one_directory_iff (s : OutPrefix) (nativeTid tid : Nat) :
    OneDirectory s.bytes nativeTid tid ↔ NoBackslashName s.bytes := by
  have hpids := parent_threadPath s nativeTid tid
  have hdir : parent (parent (threadPath s.bytes nativeTid tid)) =
      parentDir (ascii "/") s.bytes := by
    rw [hpids]
    exact parent_append_slash _ (by decide)
  rw [OneDirectory, hdir, hpids, parent_stopPath, same_mainPids_iff]
  refine and_iff_left ⟨Same.refl _, ?_, ?_⟩
  · exact parent_beside _ _ (by decide)
  · exact parent_beside _ _ (by decide)

/-- Of `/tmp/x\y`: `main` creates `/tmp/x/pids`, the others write into `/tmp/pids`. -/
theorem two_directories :
    ∃ s : OutPrefix, s.bytes = ascii "/tmp/x\\y" ∧ ¬ OneDirectory s.bytes 41 0 ∧
      mainPids s.bytes = ascii "/tmp/x/pids" ∧
      threadPath s.bytes 41 0 = ascii "/tmp/pids/x\\y-41.0" ∧
      stopPath s.bytes = ascii "/tmp/pids/stop" := by
  refine ⟨⟨ascii "/tmp/x\\y", by decide, by decide⟩, rfl, ?_, by decide, by decide, by decide⟩
  intro h
  exact absurd h.1 (by decide)

end BulletTime.Setup
