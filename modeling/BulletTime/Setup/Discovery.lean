import Mathlib.Data.List.Nodup
import BulletTime.Lib.Transition
import BulletTime.Setup.Receiver

/-!
# Setup — Discovery

How the consumer's `main` finds the traced threads: it waits for `pids/`, watches it with inotify,
and reads the directory after each batch of events.  The pintool makes the directory and one file
for each thread.  The two start independently; a step is one call of either.

* An entry of `pids/` is a name and a file (`ino`); `given` is the history of the files handed to a
  `ReceiverThread`.
* `Ordered`: names and files are distinct, and a file has been given exactly if its name is in
  `seen`, which holds the names whose removal failed.
* `Announced`: a file without a receiver is in the scan still, or an event is queued.
* `discovery_iff`: in every state of a run each file is given at most once and no file waits while
  the consumer is blocked, exactly when the watch is added before the first thread file is there.
-/

namespace BulletTime.Setup
open Decimal Transition

/-- The file that ends the session. -/
def stopName : List UInt8 := ascii "stop"

/-- An entry of `pids/`; `.` and `..`, which the scan passes over, are left out. -/
structure Entry where
  name : List UInt8
  ino : ℕ
  deriving DecidableEq

/-- The next call of `main`; `scan` carries the names `readdir` has yet to return of those that were
there at `opendir`. -/
inductive MainPc where
  | stat
  | addWatch
  | read
  | opendir
  | scan (todo : List (List UInt8))
  | stopped
  deriving DecidableEq

/-- The watch has been added. -/
def MainPc.watching : MainPc → Bool
  | .stat | .addWatch => false
  | .read | .opendir | .scan _ | .stopped => true

structure MainSys where
  dirExists : Bool := false
  present : List Entry := []
  nextIno : ℕ := 0
  /-- Names of the queued `IN_CREATE` events. -/
  queue : List (List UInt8) := []
  pc : MainPc := .stat
  seen : List (List UInt8) := []
  /-- Threads that have made, or found, their file. -/
  started : ℕ := 0
  given : List ℕ := []
  deriving DecidableEq

inductive MainAction where
  | mkDir
  | createThread (stem : List UInt8) (nativeTid tid : ℕ)
  | createStop
  | stat
  | addWatch
  | read (n : ℕ)
  | opendir
  | readdir (name : List UInt8) (removeOk : Bool)
  | endScan
  deriving DecidableEq

namespace MainSys

def start : MainSys := {}

/-- A file written under `name`: a new entry with its event, or the one that is there.  An event
like the last one queued is merged with it. -/
def writeFile (s : MainSys) (name : List UInt8) : MainSys :=
  if name ∈ s.present.map Entry.name then s
  else
    { s with
      present := s.present ++ [⟨name, s.nextIno⟩]
      nextIno := s.nextIno + 1
      queue :=
        if s.pc.watching ∧ s.queue.getLast? ≠ some name then s.queue ++ [name] else s.queue }

/-- `remove` of the entry `name`. -/
def removeEntry (s : MainSys) (name : List UInt8) : MainSys :=
  { s with present := s.present.filter (·.name ≠ name) }

/-- What the scan does with an entry `readdir` has returned. -/
def visit (s : MainSys) (todo : List (List UInt8)) (e : Entry) (removeOk : Bool) : MainSys :=
  if e.name ∈ s.seen then { s with pc := .scan (todo.filter (· ≠ e.name)) }
  else if e.name = stopName then
    { (if removeOk then s.removeEntry e.name else s) with pc := .stopped }
  else if removeOk then
    { s.removeEntry e.name with
      given := s.given ++ [e.ino]
      pc := .scan (todo.filter (· ≠ e.name)) }
  else
    { s with
      given := s.given ++ [e.ino]
      pc := .scan (todo.filter (· ≠ e.name))
      seen := e.name :: s.seen }

/-- A thread can be started: it is the program's first, or another goes on, having its receiver. -/
def canStart (s : MainSys) : Bool := s.started = 0 ∨ s.given ≠ []

def step (s : MainSys) : MainAction → Option MainSys
  | .mkDir => if s.dirExists then none else some { s with dirExists := true }
  | .createThread stem nativeTid tid =>
      if s.dirExists ∧ s.canStart then
        some { s.writeFile (threadFile stem nativeTid tid) with started := s.started + 1 }
      else none
  | .createStop => if s.dirExists then some (s.writeFile stopName) else none
  | .stat => if s.pc = .stat ∧ s.dirExists then some { s with pc := .addWatch } else none
  | .addWatch => if s.pc = .addWatch then some { s with pc := .read } else none
  | .read n =>
      if s.pc = .read ∧ s.queue ≠ [] then
        some { s with queue := s.queue.drop (n + 1), pc := .opendir }
      else none
  | .opendir =>
      if s.pc = .opendir then some { s with pc := .scan (s.present.map Entry.name) } else none
  | .readdir name removeOk =>
      match s.pc, s.present.find? (·.name = name) with
      | .scan todo, some e => some (s.visit todo e removeOk)
      | _, _ => none
  | .endScan => if s.pc = .scan [] then some { s with pc := .read } else none

/-- The consumer waits in `read` for an event, with a thread's file there that no receiver has. -/
def Stuck (s : MainSys) : Prop :=
  s.pc = .read ∧ s.queue = [] ∧ ∃ e ∈ s.present, e.name ≠ stopName ∧ e.ino ∉ s.given

/-- The watch is added while no thread's file is there. -/
def WatchFirst (s : MainSys) (a : MainAction) : Prop :=
  a = .addWatch → ∀ e ∈ s.present, e.name = stopName

/-- Names and files are distinct; the files given are those whose name is in `seen`, as far as they
are still there; before the watch nothing is queued or given. -/
structure Ordered (s : MainSys) : Prop where
  names : (s.present.map Entry.name).Nodup
  inos : (s.present.map Entry.ino).Nodup
  fresh : ∀ e ∈ s.present, e.ino < s.nextIno
  givenFresh : ∀ i ∈ s.given, i < s.nextIno
  given : s.given.Nodup
  seen : ∀ e ∈ s.present, e.ino ∈ s.given ↔ e.name ∈ s.seen
  there : ∀ n ∈ s.seen, n ∈ s.present.map Entry.name
  quiet : s.pc.watching = false → s.queue = [] ∧ s.given = [] ∧ s.seen = []

/-- `main` will come to the entry `name`: it is in the scan, or an event is queued. -/
def Announces (pc : MainPc) (queue : List (List UInt8)) (name : List UInt8) : Prop :=
  match pc with
  | .read => queue ≠ []
  | .scan todo => queue ≠ [] ∨ name ∈ todo
  | .stat | .addWatch | .opendir | .stopped => True

/-- A file without a receiver is announced. -/
def Announced (s : MainSys) : Prop :=
  ∀ e ∈ s.present, e.name ≠ stopName → e.ino ∉ s.given → Announces s.pc s.queue e.name

variable {s t : MainSys} {a : MainAction}

theorem ordered_start : Ordered start where
  names := List.nodup_nil
  inos := List.nodup_nil
  fresh _ h := by cases h
  givenFresh _ h := by cases h
  given := List.nodup_nil
  seen _ h := by cases h
  there _ h := by cases h
  quiet _ := ⟨rfl, rfl, rfl⟩

theorem announces_of_queue {pc : MainPc} {queue : List (List UInt8)} {name : List UInt8}
    (h : pc.watching = true → queue ≠ []) : Announces pc queue name := by
  cases pc with
  | read => exact h rfl
  | scan todo => exact .inl (h rfl)
  | stat | addWatch | opendir | stopped => trivial

/-- Only the next call changes. -/
theorem Ordered.setPc (h : Ordered s) (pc : MainPc)
    (hpc : pc.watching = false → s.pc.watching = false) : Ordered { s with pc := pc } where
  __ := h
  quiet hq := h.quiet (hpc hq)

/-- A new file is under a new name. -/
theorem Ordered.writeFile (h : Ordered s) (name : List UInt8) : Ordered (s.writeFile name) := by
  by_cases hname : name ∈ s.present.map Entry.name
  · rw [MainSys.writeFile, if_pos hname]
    exact h
  · rw [MainSys.writeFile, if_neg hname]
    -- a new file has the next inode
    have hino : s.nextIno ∉ s.given := fun hg => lt_irrefl _ (h.givenFresh _ hg)
    constructor
    · rw [List.map_append, List.map_singleton]
      exact h.names.append (List.nodup_singleton _) (by simpa using hname)
    · rw [List.map_append, List.map_singleton]
      refine h.inos.append (List.nodup_singleton _) ?_
      rw [List.disjoint_singleton]
      intro hm
      obtain ⟨e, he, hi⟩ := List.mem_map.mp hm
      exact absurd (h.fresh e he) (by rw [hi]; exact lt_irrefl _)
    · intro e he
      rcases List.mem_append.mp he with he | he
      · exact Nat.lt_succ_of_lt (h.fresh e he)
      · obtain rfl := List.mem_singleton.mp he
        exact Nat.lt_succ_self _
    · exact fun i hi => Nat.lt_succ_of_lt (h.givenFresh i hi)
    · exact h.given
    · intro e he
      rcases List.mem_append.mp he with he | he
      · exact h.seen e he
      · obtain rfl := List.mem_singleton.mp he
        exact iff_of_false hino fun hs => hname (h.there _ hs)
    · intro n hn
      rw [List.map_append]
      exact List.mem_append_left _ (h.there n hn)
    · intro hq
      obtain ⟨hqueue, hgiven, hseen⟩ := h.quiet hq
      refine ⟨?_, hgiven, hseen⟩
      rw [if_neg fun hw => absurd (hq.symm.trans hw.1) (by decide)]
      exact hqueue

/-- A name that is not in `seen` can go. -/
theorem Ordered.removeEntry (h : Ordered s) {name : List UInt8} (hn : name ∉ s.seen) :
    Ordered (s.removeEntry name) where
  names := h.names.sublist (List.filter_sublist.map _)
  inos := h.inos.sublist (List.filter_sublist.map _)
  fresh e he := h.fresh e (List.mem_of_mem_filter he)
  givenFresh := h.givenFresh
  given := h.given
  seen e he := h.seen e (List.mem_of_mem_filter he)
  there n hs := by
    obtain ⟨e, he, rfl⟩ := List.mem_map.mp (h.there n hs)
    refine List.mem_map.mpr ⟨e, List.mem_filter.mpr ⟨he, ?_⟩, rfl⟩
    simp only [ne_eq, decide_not, Bool.not_eq_eq_eq_not, Bool.not_true, decide_eq_false_iff_not]
    rintro rfl
    exact hn hs
  quiet := h.quiet

/-- Within the directory, a name tells the file and a file its name. -/
theorem Ordered.ino_eq_iff (h : Ordered s) {e e' : Entry} (he : e ∈ s.present)
    (he' : e' ∈ s.present) : e'.ino = e.ino ↔ e'.name = e.name :=
  ⟨fun hi => congrArg _ (List.inj_on_of_nodup_map h.inos he' he hi),
    fun hn => congrArg _ (List.inj_on_of_nodup_map h.names he' he hn)⟩

theorem mem_present_removeEntry {name : List UInt8} {e : Entry} :
    e ∈ (s.removeEntry name).present ↔ e ∈ s.present ∧ e.name ≠ name := by
  simp [removeEntry]

/-- **A visited entry** that is not in `seen` is given for the first time. -/
theorem Ordered.visit (h : Ordered s) {e : Entry} (he : e ∈ s.present) (todo : List (List UInt8))
    (removeOk : Bool) : Ordered (s.visit todo e removeOk) := by
  have hfresh : ∀ i ∈ s.given ++ [e.ino], i < s.nextIno := by
    intro i hi
    rcases List.mem_append.mp hi with hi | hi
    · exact h.givenFresh i hi
    · rw [List.mem_singleton.mp hi]
      exact h.fresh e he
  unfold MainSys.visit
  split_ifs with hseen hstop hremove
  · exact h.setPc _ fun hq => by cases hq
  · exact (h.removeEntry hseen).setPc _ fun hq => by cases hq
  · exact h.setPc _ fun hq => by cases hq
  · have hino : e.ino ∉ s.given := fun hg => hseen ((h.seen e he).mp hg)
    have hr := h.removeEntry hseen
    refine ⟨hr.names, hr.inos, hr.fresh, hfresh, ?_, ?_, hr.there, fun hq => by cases hq⟩
    · exact h.given.append (List.nodup_singleton _) (List.disjoint_singleton.mpr hino)
    · intro e' he'
      obtain ⟨hmem, hne⟩ := mem_present_removeEntry.mp he'
      have hne' := (h.ino_eq_iff he hmem).not.mpr hne
      rw [List.mem_append, List.mem_singleton, or_iff_left hne']
      exact h.seen e' hmem
  · have hino : e.ino ∉ s.given := fun hg => hseen ((h.seen e he).mp hg)
    refine ⟨h.names, h.inos, h.fresh, hfresh, ?_, ?_, ?_, fun hq => by cases hq⟩
    · exact h.given.append (List.nodup_singleton _) (List.disjoint_singleton.mpr hino)
    · intro e' he'
      show e'.ino ∈ s.given ++ [e.ino] ↔ e'.name ∈ e.name :: s.seen
      rw [List.mem_append, List.mem_singleton, List.mem_cons, h.seen e' he', h.ino_eq_iff he he',
        or_comm]
    · intro n hn
      rcases List.mem_cons.mp hn with rfl | hn
      · exact List.mem_map_of_mem he
      · exact h.there n hn

/-- A visit leaves the other entries announced. -/
theorem Announced.visit (h : Ordered s) (ha : Announced s) {todo : List (List UInt8)} {e : Entry}
    (he : e ∈ s.present) (hpc : s.pc = .scan todo) (removeOk : Bool) :
    Announced (s.visit todo e removeOk) := by
  -- what is announced by the scan stays in it, unless it is the entry visited
  have hscan : ∀ e' ∈ s.present, e'.name ≠ stopName → e'.ino ∉ s.given → e'.name ≠ e.name →
      s.queue ≠ [] ∨ e'.name ∈ todo.filter (· ≠ e.name) := by
    intro e' he' hn hg hne
    have := ha e' he' hn hg
    rw [hpc] at this
    rcases this with hq | ht
    · exact .inl hq
    · exact .inr (List.mem_filter.mpr ⟨ht, by simpa using hne⟩)
  have hgiven : ∀ e' : Entry, e' ∈ s.present → e'.ino ∉ s.given ++ [e.ino] →
      e'.ino ∉ s.given ∧ e'.name ≠ e.name := by
    intro e' he' hg
    rw [List.mem_append, List.mem_singleton, not_or, h.ino_eq_iff he he'] at hg
    exact hg
  unfold MainSys.visit
  split_ifs with hseen hstop hremove
  · intro e' he' hn hg
    refine hscan e' he' hn hg fun hne => hg ?_
    exact (h.seen e' he').mpr (hne ▸ hseen)
  · exact fun _ _ _ _ => trivial
  · exact fun _ _ _ _ => trivial
  · intro e' he' hn hg
    have hmem := (mem_present_removeEntry.mp he').1
    obtain ⟨hg, hne⟩ := hgiven e' hmem hg
    exact hscan e' hmem hn hg hne
  · intro e' he' hn hg
    obtain ⟨hg, hne⟩ := hgiven e' he' hg
    exact hscan e' he' hn hg hne

/-- A new file queues an event, once the watch is there. -/
theorem Announced.writeFile (ha : Announced s) (name : List UInt8) :
    Announced (s.writeFile name) := by
  by_cases hname : name ∈ s.present.map Entry.name
  · rw [MainSys.writeFile, if_pos hname]
    exact ha
  · rw [MainSys.writeFile, if_neg hname]
    refine fun e _ _ _ => announces_of_queue fun hw => ?_
    dsimp only
    split_ifs with hlast
    · simp
    · intro hq
      exact hlast ⟨hw, by simp [hq]⟩

/-! ### One call -/

/-- What a call can do: write a file, visit an entry of the scan, or move on. -/
inductive Calls (s : MainSys) : MainAction → MainSys → Prop where
  | mkDir : Calls s .mkDir { s with dirExists := true }
  | createThread (stem : List UInt8) (nativeTid tid : ℕ) :
      Calls s (.createThread stem nativeTid tid)
        { s.writeFile (threadFile stem nativeTid tid) with started := s.started + 1 }
  | createStop : Calls s .createStop (s.writeFile stopName)
  | stat (h : s.pc = .stat) : Calls s .stat { s with pc := .addWatch }
  | addWatch (h : s.pc = .addWatch) : Calls s .addWatch { s with pc := .read }
  | read (n : ℕ) (h : s.pc = .read) :
      Calls s (.read n) { s with queue := s.queue.drop (n + 1), pc := .opendir }
  | opendir (h : s.pc = .opendir) :
      Calls s .opendir { s with pc := .scan (s.present.map Entry.name) }
  | readdir (todo : List (List UInt8)) (e : Entry) (removeOk : Bool) (h : s.pc = .scan todo)
      (he : e ∈ s.present) : Calls s (.readdir e.name removeOk) (s.visit todo e removeOk)
  | endScan (h : s.pc = .scan []) : Calls s .endScan { s with pc := .read }

theorem calls_of_step (h : step s a = some t) : Calls s a t := by
  cases a with
  | mkDir =>
      obtain ⟨-, ⟨⟩⟩ := Option.ite_none_left_eq_some.mp h
      exact .mkDir
  | createThread stem nativeTid tid =>
      obtain ⟨-, ⟨⟩⟩ := Option.ite_none_right_eq_some.mp h
      exact .createThread stem nativeTid tid
  | createStop =>
      obtain ⟨-, ⟨⟩⟩ := Option.ite_none_right_eq_some.mp h
      exact .createStop
  | stat =>
      obtain ⟨hpc, ⟨⟩⟩ := Option.ite_none_right_eq_some.mp h
      exact .stat hpc.1
  | addWatch =>
      obtain ⟨hpc, ⟨⟩⟩ := Option.ite_none_right_eq_some.mp h
      exact .addWatch hpc
  | read n =>
      obtain ⟨hpc, ⟨⟩⟩ := Option.ite_none_right_eq_some.mp h
      exact .read n hpc.1
  | opendir =>
      obtain ⟨hpc, ⟨⟩⟩ := Option.ite_none_right_eq_some.mp h
      exact .opendir hpc
  | readdir name removeOk =>
      simp only [MainSys.step] at h
      split at h
      · rename_i todo e hpc hfind
        obtain rfl := Option.some.inj h
        obtain rfl : e.name = name := by simpa using List.find?_some hfind
        exact .readdir todo e removeOk hpc (List.mem_of_find?_eq_some hfind)
      · cases h
  | endScan =>
      obtain ⟨hpc, ⟨⟩⟩ := Option.ite_none_right_eq_some.mp h
      exact .endScan hpc

theorem Ordered.step (h : Ordered s) (hs : step s a = some t) : Ordered t := by
  cases calls_of_step hs with
  | mkDir => exact { h with }
  | createThread stem nativeTid tid => exact { h.writeFile (threadFile stem nativeTid tid) with }
  | createStop => exact h.writeFile stopName
  | stat hpc => exact h.setPc _ fun _ => by rw [hpc]; rfl
  | addWatch hpc => exact h.setPc _ fun hq => by cases hq
  | read n hpc => exact { h with quiet := fun hq => by cases hq }
  | opendir hpc => exact h.setPc _ fun hq => by cases hq
  | readdir todo e removeOk hpc he => exact h.visit he todo removeOk
  | endScan hpc => exact h.setPc _ fun hq => by cases hq

/-- **A call that meets the condition** leaves no file unannounced. -/
theorem Announced.step (h : Ordered s) (ha : Announced s) (hc : WatchFirst s a)
    (hs : step s a = some t) : Announced t := by
  cases calls_of_step hs with
  | mkDir => exact ha
  | createThread stem nativeTid tid => exact ha.writeFile (threadFile stem nativeTid tid)
  | createStop => exact ha.writeFile stopName
  | stat hpc => exact fun _ _ _ _ => trivial
  | addWatch hpc => exact fun e he hn _ => absurd (hc rfl e he) hn
  | read n hpc => exact fun _ _ _ _ => trivial
  | opendir hpc => exact fun e he _ _ => .inr (List.mem_map_of_mem he)
  | readdir todo e removeOk hpc he => exact ha.visit h he hpc removeOk
  | endScan hpc =>
      intro e he hn hg
      have hscan := ha e he hn hg
      rw [hpc] at hscan
      exact hscan.resolve_right (by simp)

/-- Adding the watch too late leaves `main` blocked. -/
theorem watchFirst_of_not_stuck (h : Ordered s) (hs : step s a = some t) (ht : ¬ Stuck t) :
    WatchFirst s a := by
  rintro rfl
  cases calls_of_step hs with
  | addWatch hpc =>
      intro e he
      obtain ⟨hqueue, hgiven, -⟩ := h.quiet (by rw [hpc]; rfl)
      by_contra hn
      refine ht ⟨rfl, hqueue, e, he, hn, ?_⟩
      rw [show s.given = [] from hgiven]
      simp

/-! ### Any interleaving -/

/-- **Every traced thread is discovered once**, in every state of a run, exactly when the watch is
added before the first thread's file is there: inotify tells nothing of what is there already. -/
theorem discovery_iff {as : List MainAction} (h : exec MainSys.step start as = some s) :
    (EveryState MainSys.step start as fun s => s.given.Nodup ∧ ¬ Stuck s) ↔
      EveryStep MainSys.step start as WatchFirst := by
  constructor
  · intro hP
    exact hP.everyStep ordered_start (fun _ _ _ hi hs => hi.step hs)
      (fun _ _ _ hi hs ht => watchFirst_of_not_stuck hi hs ht.2) h
  · intro hC
    refine hC.everyState (I := fun s => Ordered s ∧ Announced s)
      ⟨ordered_start, fun _ he => by cases he⟩
      (fun _ _ _ hi hc hs => ⟨hi.1.step hs, hi.2.step hi.1 hc hs⟩) fun s hi => ⟨hi.1.given, ?_⟩
    rintro ⟨hpc, hqueue, e, he, hn, hg⟩
    have hann := hi.2 e he hn hg
    rw [hpc] at hann
    exact hann hqueue

theorem discovery_iff_watched :
    ∃ s, exec MainSys.step start
        [.mkDir, .stat, .addWatch, .createThread (ascii "trace") 41 0, .read 0, .opendir,
          .readdir (threadFile (ascii "trace") 41 0) true] = some s ∧
      ((EveryState MainSys.step start
          [.mkDir, .stat, .addWatch, .createThread (ascii "trace") 41 0, .read 0, .opendir,
            .readdir (threadFile (ascii "trace") 41 0) true]
          fun s => s.given.Nodup ∧ ¬ Stuck s) ↔
        EveryStep MainSys.step start
          [.mkDir, .stat, .addWatch, .createThread (ascii "trace") 41 0, .read 0, .opendir,
            .readdir (threadFile (ascii "trace") 41 0) true] WatchFirst) :=
  ⟨_, rfl, discovery_iff rfl⟩

/-- The first thread's file is made between the consumer's `stat` and its watch: both wait. -/
theorem discovery_stuck :
    ∃ s, exec MainSys.step start
        [.mkDir, .stat, .createThread (ascii "trace") 41 0, .addWatch] = some s ∧ Stuck s :=
  ⟨_, rfl, rfl, rfl, ⟨threadFile (ascii "trace") 41 0, 0⟩, List.mem_singleton.mpr rfl, by decide,
    by decide⟩

end MainSys

end BulletTime.Setup
