import BulletTime.Lib.Decimal
import BulletTime.Lib.LastOf

/-!
# Setup — Receiver

`ReceiverThread` up to the loop of `Listen`: it reads process and thread number out of the thread
file's name, sets up what it shares with the pintool, and opens the counters of the thread.
Nothing on this path catches an exception, and one that leaves the thread function ends the
consumer.

* `readName`: the name between its last dash and its last period, and after the period.
* `stoi_ok_iff`: what `stoi` reads without an exception.
* `receiverThread_ok_iff`: the thread function returns exactly when both numbers are read, or a
  separator is missing, and the counters open unless the set-up has failed before.
* `readName_threadFile`: the names the pintool writes are read back.
-/

namespace BulletTime.Setup
open Decimal LastOf

/-- The exceptions thrown on the way. -/
inductive Exc where
  | invalidArgument
  | outOfRange
  | runtimeError
  deriving DecidableEq

/-- The name of a directory entry. -/
structure FileName where
  bytes : List UInt8
  /-- `NAME_MAX`. -/
  short : bytes.length ≤ 255
  noNul : 0 ∉ bytes
  noSlash : 47 ∉ bytes

/-! ### Reading the name -/

/-- `string::npos`, the largest `size_t`. -/
def npos : Nat := 2 ^ 64 - 1

/-- `a - b` on `size_t`. -/
def subSize (a b : Nat) : Nat := (a + 2 ^ 64 - b) % 2 ^ 64

/-- `s.substr(pos, n)`. -/
def substr (s : List UInt8) (pos n : Nat) : Except Exc (List UInt8) :=
  if pos > s.length then .error .outOfRange else .ok ((s.drop pos).take n)

/-- `stoi(s)`. -/
def stoi (s : List UInt8) : Except Exc Int :=
  match strtol s with
  | none => .error .invalidArgument
  | some v => if -2 ^ 31 ≤ v ∧ v < 2 ^ 31 then .ok v else .error .outOfRange

/-- The process and the thread number of a name `<prefix>-<pid>.<tid>`; `none` where a separator is
missing. -/
def readName (name : List UInt8) : Except Exc (Option (Int × Int)) :=
  match lastOf 46 name, lastOf 45 name with
  | some lastPeriod, some lastDash => do
      let pid ← stoi (← substr name (lastDash + 1) (subSize (subSize lastPeriod lastDash) 1))
      let tid ← stoi (← substr name (lastPeriod + 1) npos)
      return some (pid, tid)
  | _, _ => return none

/-! ### The thread function -/

/-- Which calls of the set-up succeed. -/
structure SetupResults where
  openOutput : Bool
  openShared : Bool
  ftruncate : Bool
  mmapShared : Bool
  mmapOut : Bool
  socketRdy : Bool
  socketSize : Bool
  bindRdy : Bool
  bindSize : Bool
  listenRdy : Bool
  listenSize : Bool
  acceptRdy : Bool
  acceptSize : Bool
  deriving DecidableEq

/-- The error branches, each of which returns. -/
inductive ErrorBranch where
  | parseName
  | openOutput
  | openShared
  | ftruncate
  | mmapShared
  | mmapOut
  | socket
  | bind
  | listen
  | accept
  deriving DecidableEq

/-- The first call of the set-up that fails. -/
def setUp (useCompression : Bool) (r : SetupResults) : Option ErrorBranch :=
  if ¬ r.openOutput then some .openOutput
  else if ¬ r.openShared then some .openShared
  else if ¬ r.ftruncate then some .ftruncate
  else if ¬ r.mmapShared then some .mmapShared
  else if useCompression ∧ ¬ r.mmapOut then some .mmapOut
  else if ¬ r.socketRdy ∨ ¬ r.socketSize then some .socket
  else if ¬ r.bindRdy ∨ ¬ r.bindSize then some .bind
  else if ¬ r.listenRdy ∨ ¬ r.listenSize then some .listen
  else if ¬ r.acceptRdy ∨ ¬ r.acceptSize then some .accept
  else none

/-- Which of the four counters `perf_event_open` opens. -/
structure CounterResults where
  userInstr : Bool
  kernelInstr : Bool
  userCycles : Bool
  kernelCycles : Bool
  deriving DecidableEq

def setupCounter (opened : Bool) : Except Exc Unit :=
  if opened then .ok () else .error .runtimeError

/-- `CPU_Monitor::CPU_Monitor`; its handler closes what was opened and throws again. -/
def cpuMonitor (c : CounterResults) : Except Exc Unit :=
  tryCatch (do
    setupCounter c.userInstr
    setupCounter c.kernelInstr
    setupCounter c.userCycles
    setupCounter c.kernelCycles) fun e => throw e

/-- How the thread function ends without an exception. -/
inductive Outcome where
  | served (pid tid : Int)
  | failed (branch : ErrorBranch)
  deriving DecidableEq

/-- The set-up, and `Listen`, which opens the counters before its loop. -/
def setUpAndListen (useCompression : Bool) (r : SetupResults) (c : CounterResults)
    (pid tid : Int) : Except Exc Outcome :=
  match setUp useCompression r with
  | some e => return .failed e
  | none => do
      cpuMonitor c
      return .served pid tid

/-- `ReceiverThread`. -/
def receiverThread (useCompression : Bool) (threadName : FileName) (r : SetupResults)
    (c : CounterResults) : Except Exc Outcome := do
  match ← readName threadName.bytes with
  | none => return .failed .parseName
  | some (pid, tid) => setUpAndListen useCompression r c pid tid

/-! ### What is read without an exception -/

/-- A numeral whose value is an `int`. -/
def Readable (s : List UInt8) : Prop := ∃ v, Numeral s v ∧ -2 ^ 31 ≤ v ∧ v < 2 ^ 31

/-- What stands between the last dash and the last period; all that follows the dash where the
period is before it. -/
def pidField (name : List UInt8) (lastPeriod lastDash : Nat) : List UInt8 :=
  if lastDash < lastPeriod then (name.take lastPeriod).drop (lastDash + 1)
  else name.drop (lastDash + 1)

/-- What follows the last period. -/
def tidField (name : List UInt8) (lastPeriod : Nat) : List UInt8 := name.drop (lastPeriod + 1)

theorem stoi_ok_iff {s : List UInt8} : (∃ v, stoi s = .ok v) ↔ Readable s := by
  simp only [stoi, Readable, ← strtol_eq_some_iff]
  cases strtol s with
  | none => simp
  | some v =>
      dsimp only
      split_ifs with hv
      · exact iff_of_true ⟨v, rfl⟩ ⟨v, rfl, hv⟩
      · refine iff_of_false ?_ ?_
        · rintro ⟨w, hw⟩
          cases hw
        · rintro ⟨w, e, hw⟩
          obtain rfl := Option.some.inj e
          exact hv hw

/-- The numbers of a written name come back. -/
theorem stoi_render {n : Nat} (hn : n < 2 ^ 31) : stoi (render n) = .ok n := by
  have h := strtol_renderInt n [] (by simp)
  rw [List.append_nil] at h
  have hrange : -2 ^ 31 ≤ (n : Int) ∧ (n : Int) < 2 ^ 31 := by omega
  rw [stoi, show render n = renderInt n from rfl, h]
  exact if_pos hrange

theorem cpuMonitor_ok_iff (c : CounterResults) :
    (∃ u, cpuMonitor c = .ok u) ↔ c = ⟨true, true, true, true⟩ := by
  have key : ∀ a b d e, cpuMonitor ⟨a, b, d, e⟩ = .ok () ↔ a ∧ b ∧ d ∧ e := by decide
  obtain ⟨a, b, d, e⟩ := c
  rw [CounterResults.mk.injEq, ← key]
  exact ⟨fun ⟨_, h⟩ => h, fun h => ⟨(), h⟩⟩

/-- A bind succeeds where both parts do. -/
theorem bind_ok_iff {ε α β : Type} {x : Except ε α} {f : α → Except ε β} :
    (∃ b, (x >>= f) = .ok b) ↔ ∃ a, x = .ok a ∧ ∃ b, f a = .ok b := by
  cases x with
  | error e => exact iff_of_false (fun ⟨_, h⟩ => by cases h) fun ⟨_, h, _⟩ => by cases h
  | ok a => exact ⟨fun h => ⟨a, rfl, h⟩, fun ⟨_, h, hb⟩ => by cases h; exact hb⟩

section Fields
variable {name : List UInt8} {p d : Nat}

theorem substr_of_le {pos n : Nat} (h : pos ≤ name.length) :
    substr name pos n = .ok ((name.drop pos).take n) := if_neg (not_lt.mpr h)

/-- **The process number's field**: where the period is before the dash, the difference of the two
places wraps around and nothing is cut off. -/
theorem substr_pid (hlen : name.length < 2 ^ 63) (hp : p < name.length) (hd : d < name.length) :
    substr name (d + 1) (subSize (subSize p d) 1) = .ok (pidField name p d) := by
  rw [substr_of_le hd, pidField]
  split_ifs with h
  · have hsub : subSize (subSize p d) 1 = p - (d + 1) := by
      simp only [subSize]
      omega
    rw [hsub, List.drop_take]
  · have hsub : name.length ≤ subSize (subSize p d) 1 := by
      simp only [subSize]
      omega
    rw [List.take_of_length_le]
    rw [List.length_drop]
    omega

theorem substr_tid (hlen : name.length < 2 ^ 63) (hp : p < name.length) :
    substr name (p + 1) npos = .ok (tidField name p) := by
  have hn : npos = 2 ^ 64 - 1 := rfl
  rw [substr_of_le hp, tidField, List.take_of_length_le]
  rw [List.length_drop]
  omega

theorem lt_of_lastOf {c : UInt8} {i : Nat} (h : lastOf c name = some i) : i < name.length := by
  obtain ⟨a, b, rfl, rfl, -⟩ := lastOf_eq_some_iff.mp h
  simp

theorem readName_of_lastOf (hlen : name.length < 2 ^ 63) (hp : lastOf 46 name = some p)
    (hd : lastOf 45 name = some d) :
    readName name = (do
      let pid ← stoi (pidField name p d)
      let tid ← stoi (tidField name p)
      return some (pid, tid)) := by
  have hlp := lt_of_lastOf hp
  rw [readName, hp, hd]
  dsimp only
  rw [substr_pid hlen hlp (lt_of_lastOf hd), substr_tid hlen hlp]
  rfl

theorem readName_of_missing (h : lastOf 46 name = none ∨ lastOf 45 name = none) :
    readName name = .ok none := by
  rw [readName]
  rcases h with h | h
  · rw [h]
    rfl
  · rw [h]
    cases lastOf 46 name <;> rfl

end Fields

/-! ### The thread function -/

theorem setUpAndListen_ok_iff {useCompression : Bool} {r : SetupResults} {c : CounterResults}
    {pid tid : Int} : (∃ out, setUpAndListen useCompression r c pid tid = .ok out) ↔
      (setUp useCompression r = none → c = ⟨true, true, true, true⟩) := by
  rw [setUpAndListen, ← cpuMonitor_ok_iff]
  cases setUp useCompression r with
  | some e => exact iff_of_true ⟨_, rfl⟩ fun h => by cases h
  | none =>
      dsimp only
      rw [bind_ok_iff]
      exact ⟨fun ⟨u, hu, _⟩ _ => ⟨u, hu⟩, fun h => ⟨(), (h rfl).choose_spec, _, rfl⟩⟩

/-- **No exception escapes** exactly when, of a name with both separators, both numbers are read
and, where the set-up succeeds, all four counters open.  There is a guard for the separators
only. -/
theorem receiverThread_ok_iff (useCompression : Bool) (name : FileName) (r : SetupResults)
    (c : CounterResults) :
    (∃ out, receiverThread useCompression name r c = .ok out) ↔
      ∀ p d, lastOf 46 name.bytes = some p → lastOf 45 name.bytes = some d →
        Readable (pidField name.bytes p d) ∧ Readable (tidField name.bytes p) ∧
          (setUp useCompression r = none → c = ⟨true, true, true, true⟩) := by
  have hlen : name.bytes.length < 2 ^ 63 := lt_of_le_of_lt name.short (by decide)
  cases hp : lastOf 46 name.bytes with
  | none =>
      refine iff_of_true ⟨.failed .parseName, ?_⟩ fun p d h => by cases h
      rw [receiverThread, readName_of_missing (.inl hp)]
      rfl
  | some p =>
      cases hd : lastOf 45 name.bytes with
      | none =>
          refine iff_of_true ⟨.failed .parseName, ?_⟩ fun p d _ h => by cases h
          rw [receiverThread, readName_of_missing (.inr hd)]
          rfl
      | some d =>
          rw [receiverThread, readName_of_lastOf hlen hp hd]
          simp only [bind_assoc, pure_bind, bind_ok_iff, setUpAndListen_ok_iff]
          constructor
          · rintro ⟨pid, hpid, tid, htid, hserve⟩ _ _ ⟨⟩ ⟨⟩
            exact ⟨stoi_ok_iff.mp ⟨pid, hpid⟩, stoi_ok_iff.mp ⟨tid, htid⟩, hserve⟩
          · intro h
            obtain ⟨hpid, htid, hserve⟩ := h p d rfl rfl
            obtain ⟨pid, hpid⟩ := stoi_ok_iff.mpr hpid
            obtain ⟨tid, htid⟩ := stoi_ok_iff.mpr htid
            exact ⟨pid, hpid, tid, htid, hserve⟩

/-- A stray file `a-b.c`: its numbers are not read, whatever the rest would do. -/
theorem receiverThread_throws :
    receiverThread false ⟨ascii "a-b.c", by decide, by decide, by decide⟩
        ⟨true, true, true, true, true, true, true, true, true, true, true, true, true⟩
        ⟨true, true, true, true⟩ = .error .invalidArgument := by
  decide

/-! ### The names the pintool writes -/

/-- The name `ThreadStart` gives the file of a thread. -/
def threadFile (stem : List UInt8) (nativeTid tid : Nat) : List UInt8 :=
  stem ++ ascii "-" ++ render nativeTid ++ ascii "." ++ render tid

/-- The places of the separators in such a name: no digit is one. -/
theorem lastOf_threadFile (stem : List UInt8) (nativeTid tid : Nat) :
    lastOf 46 (threadFile stem nativeTid tid) = some (stem ++ 45 :: render nativeTid).length ∧
      lastOf 45 (threadFile stem nativeTid tid) = some stem.length := by
  have hsep : ∀ n, 46 ∉ render n ∧ 45 ∉ render n := fun n =>
    ⟨fun h => absurd (isDigit_of_mem_render h) (by decide),
      fun h => absurd (isDigit_of_mem_render h) (by decide)⟩
  have hname : threadFile stem nativeTid tid =
      (stem ++ 45 :: render nativeTid) ++ 46 :: render tid := by
    rw [threadFile, List.append_assoc _ (ascii "."), List.append_assoc stem]
    rfl
  rw [hname]
  refine ⟨lastOf_append_cons _ (hsep tid).1, ?_⟩
  rw [List.append_assoc]
  refine lastOf_append_cons _ ?_
  intro h
  rcases List.mem_append.mp h with h | h
  · exact (hsep nativeTid).2 h
  · rcases List.mem_cons.mp h with h | h
    · exact absurd h (by decide)
    · exact (hsep tid).2 h

/-- **A name the pintool writes is read back**, whatever dashes and periods its prefix has and
however long it is: the places differ by the length of a numeral. -/
theorem readName_threadFile (stem : List UInt8) {nativeTid tid : Nat} (hn : nativeTid < 2 ^ 31)
    (ht : tid < 2 ^ 31) :
    readName (threadFile stem nativeTid tid) = .ok (some (nativeTid, tid)) := by
  obtain ⟨hp, hd⟩ := lastOf_threadFile stem nativeTid tid
  have hname : threadFile stem nativeTid tid =
      (stem ++ [45]) ++ (render nativeTid ++ 46 :: render tid) := by
    simp only [threadFile, ascii, List.append_assoc]
    rfl
  have hdash : stem.length + 1 = (stem ++ [45]).length := by simp
  have hperiod : (stem ++ 45 :: render nativeTid).length + 1 =
      (stem ++ [45] ++ render nativeTid ++ [46]).length := by
    simp [Nat.add_assoc]
  have hten : ∀ {n}, n < 2 ^ 31 → (render n).length ≤ 10 := fun h =>
    (length_render_le_iff (by decide)).mpr (by omega)
  have hcount : subSize (subSize (stem ++ 45 :: render nativeTid).length stem.length) 1 =
      (render nativeTid).length := by
    have := hten hn
    simp only [subSize, List.length_append, List.length_cons]
    omega
  have hpid : substr (threadFile stem nativeTid tid) (stem.length + 1)
      (render nativeTid).length = .ok (render nativeTid) := by
    rw [hname, hdash, substr_of_le (by simp), List.drop_left, List.take_left]
  have htid : substr (threadFile stem nativeTid tid)
      ((stem ++ 45 :: render nativeTid).length + 1) npos = .ok (render tid) := by
    have hsplit : threadFile stem nativeTid tid =
        (stem ++ [45] ++ render nativeTid ++ [46]) ++ render tid := by
      rw [hname]
      simp
    rw [hsplit, hperiod, substr_of_le (by simp), List.drop_left, List.take_of_length_le]
    exact (hten ht).trans (by decide)
  rw [readName, hp, hd]
  dsimp only
  rw [hcount, hpid, htid]
  dsimp only [bind, Except.bind]
  rw [stoi_render hn, stoi_render ht]
  rfl

end BulletTime.Setup
