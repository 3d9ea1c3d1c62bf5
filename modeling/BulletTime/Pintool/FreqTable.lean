import BulletTime.Pintool.Figures
import BulletTime.Pintool.PrettyTable

/-!
# Pintool — FreqTable

The instruction distribution that `Fini` writes: the merged frequencies, sorted, cut off and printed
as a table.

* `FreqVec`: the frequencies as `std::sort` may leave them, which is any order among equal ones.
* `listed`: the loop over them, up to the first pc of frequency 1 or 10000 rows.
* `frequency_file_read`: the printed table is read back as one row for each pc listed.
* `insFreqs_overall`: once every thread has exited, a frequency is how often memory instructions at
  the pc were executed, by all threads.
* `table_lists_hottest`: so the table lists the most frequent of them, with their counts.

`[about the source]`: `hexstr` is Pin's, and how a `double` is printed does not matter here; both
are parameters.
-/

namespace BulletTime.Pintool
open Transition Accounts Decimal PrettyTable
open AppThreadStatistics (Call ofCount)

/-! ### The table -/

/-- `freq_vec` after the sort. -/
structure FreqVec (freq : Std.ExtTreeMap UInt64 UInt64) where
  entries : List (UInt64 × UInt64)
  perm : entries.Perm freq.toList
  sorted : entries.Pairwise fun a b => b.2 ≤ a.2

/-- One order that the sort may leave. -/
def FreqVec.sort (freq : Std.ExtTreeMap UInt64 UInt64) : FreqVec freq where
  entries := freq.toList.mergeSort fun a b => b.2 ≤ a.2
  perm := List.mergeSort_perm _ _
  sorted := by
    refine (List.pairwise_mergeSort (fun a b c hab hbc => ?_) (fun a b => ?_) freq.toList).imp
      of_decide_eq_true
    · exact decide_eq_true (UInt64.le_trans (of_decide_eq_true hbc) (of_decide_eq_true hab))
    · rw [Bool.or_eq_true, decide_eq_true_iff, decide_eq_true_iff]
      exact UInt64.le_total b.2 a.2

/-- The entries that get a row, after `printed` of them. -/
def listed (printed : ℕ) : List (UInt64 × UInt64) → List (UInt64 × UInt64)
  | [] => []
  | p :: rest => if p.2 = 1 ∨ printed = 10000 then [] else p :: listed (printed + 1) rest

/-- The function name, cut to `max_len`. -/
def capName (fname : List UInt8) : List UInt8 :=
  if fname.length > 50 then fname.take 50 ++ ascii "..." else fname

section Table
variable (hexstr : UInt64 → List UInt8) (fixed : Double → List UInt8) (g : Maps)

/-- The row of a pc. -/
def freqRow (p : UInt64 × UInt64) : Row :=
  [hexstr p.1, render p.2.toNat, capName (ascii ((g.pcInsFunction[p.1]?).getD "")),
    fixed ((g.pcInsRatio[p.1]?).getD (.fin 0)), ascii ((g.pcInsString[p.1]?).getD "")]

/-- The headers of the table. -/
def freqHeaders : Row :=
  [ascii "PC", ascii "Frequency", ascii "Function", ascii "Bbl Ratio", ascii "Instruction"]

/-- The table of `Fini`. -/
def freqTable (entries : List (UInt64 × UInt64)) : PrettyTable :=
  (listed 0 entries).foldl (fun t p => t.addRow (freqRow hexstr fixed g p)) (.new freqHeaders)

theorem headers_rows_foldl (ps : List (UInt64 × UInt64)) (t : PrettyTable) :
    (ps.foldl (fun t p => t.addRow (freqRow hexstr fixed g p)) t).headers = t.headers ∧
      (ps.foldl (fun t p => t.addRow (freqRow hexstr fixed g p)) t).rows =
        t.rows ++ ps.map (freqRow hexstr fixed g) := by
  induction ps generalizing t with
  | nil => exact ⟨rfl, (List.append_nil _).symm⟩
  | cons p ps ih =>
      obtain ⟨hheaders, hrows⟩ := ih (t.addRow (freqRow hexstr fixed g p))
      exact ⟨hheaders, hrows.trans (List.append_assoc ..)⟩

theorem rows_freqTable (entries : List (UInt64 × UInt64)) :
    (freqTable hexstr fixed g entries).rows =
      (listed 0 entries).map (freqRow hexstr fixed g) :=
  (headers_rows_foldl hexstr fixed g (listed 0 entries) (.new freqHeaders)).2

theorem headers_freqTable (entries : List (UInt64 × UInt64)) :
    (freqTable hexstr fixed g entries).headers = freqHeaders :=
  (headers_rows_foldl hexstr fixed g (listed 0 entries) (.new freqHeaders)).1

theorem newline_notMem_capName {fname : List UInt8} (h : 10 ∉ fname) : 10 ∉ capName fname := by
  unfold capName
  split_ifs
  · exact List.not_mem_append (fun hm => h (List.mem_of_mem_take hm)) (by decide)
  · exact h

/-- **The file is read back**: the headers, and a row for each pc listed, whatever its names are as
long as they are of one line. -/
theorem frequency_file_read (hhex : ∀ pc, 10 ∉ hexstr pc) (hfixed : ∀ r, 10 ∉ fixed r)
    (hnames : ∀ pc : UInt64, 10 ∉ ascii ((g.pcInsFunction[pc]?).getD "") ∧
      10 ∉ ascii ((g.pcInsString[pc]?).getD "")) (entries : List (UInt64 × UInt64)) :
    read (freqTable hexstr fixed g entries).print = some (freqHeaders,
      (listed 0 entries).map fun p => (freqRow hexstr fixed g p).map trimEnd) := by
  have hrow : ∀ p, ∀ c ∈ freqRow hexstr fixed g p, 10 ∉ c := by
    intro p c hc
    simp only [freqRow, List.mem_cons, List.not_mem_nil, or_false] at hc
    rcases hc with rfl | rfl | rfl | rfl | rfl
    · exact hhex p.1
    · exact fun hm => absurd (isDigit_of_mem_render hm) (by decide)
    · exact newline_notMem_capName (hnames p.1).1
    · exact hfixed _
    · exact (hnames p.1).2
  have hread := read_print (freqTable hexstr fixed g entries) ?_ ?_
  · rw [hread, headers_freqTable, rows_freqTable, List.map_map]
    rfl
  · rw [headers_freqTable, rows_freqTable]
    rintro row hr
    obtain ⟨p, -, rfl⟩ := List.mem_map.mp hr
    rfl
  · rw [headers_freqTable, rows_freqTable]
    rintro row hr
    rcases List.mem_cons.mp hr with rfl | hr
    · decide
    · obtain ⟨p, -, rfl⟩ := List.mem_map.mp hr
      exact hrow p

end Table

/-! ### The entries listed -/

/-- The loop stops at the end, at a count of 1 or after 10000 rows. -/
theorem listed_append (n : ℕ) (l : List (UInt64 × UInt64)) (hn : n ≤ 10000) :
    ∃ rest, l = listed n l ++ rest ∧ n + (listed n l).length ≤ 10000 ∧
      (rest = [] ∨ (∃ p ∈ rest.head?, p.2 = 1) ∨ n + (listed n l).length = 10000) := by
  induction l generalizing n with
  | nil => exact ⟨[], rfl, hn, .inl rfl⟩
  | cons p l ih =>
      rw [listed]
      split_ifs with hstop
      · refine ⟨p :: l, rfl, hn, .inr ?_⟩
        rcases hstop with h | h
        · exact .inl ⟨p, rfl, h⟩
        · exact .inr h
      · obtain ⟨-, hlt⟩ := not_or.mp hstop
        obtain ⟨rest, heq, hle, hend⟩ := ih (n + 1) (by omega)
        refine ⟨rest, congrArg (p :: ·) heq, ?_, ?_⟩
        · rw [List.length_cons]
          omega
        · rw [List.length_cons, Nat.add_comm _ 1, ← Nat.add_assoc]
          exact hend

theorem ne_one_of_mem_listed {n : ℕ} {l : List (UInt64 × UInt64)} {p : UInt64 × UInt64}
    (h : p ∈ listed n l) : p.2 ≠ 1 := by
  induction l generalizing n with
  | nil => cases h
  | cons q l ih =>
      rw [listed] at h
      split_ifs at h with hstop
      · cases h
      · rcases List.mem_cons.mp h with rfl | h
        · exact (not_or.mp hstop).1
        · exact ih h

section Listed
variable {freq : Std.ExtTreeMap UInt64 UInt64} (v : FreqVec freq)

/-- Each entry listed is one of the map. -/
theorem FreqVec.getElem?_of_mem {p : UInt64 × UInt64} (h : p ∈ v.entries) :
    freq[p.1]? = some p.2 :=
  Std.ExtTreeMap.mem_toList_iff_getElem?_eq_some.mp (v.perm.mem_iff.mp h)

theorem FreqVec.mem_of_getElem? {pc n : UInt64} (h : freq[pc]? = some n) :
    (pc, n) ∈ v.entries :=
  v.perm.mem_iff.mpr (Std.ExtTreeMap.mem_toList_iff_getElem?_eq_some.mpr h)

theorem FreqVec.nodup : (v.entries.map Prod.fst).Nodup := by
  refine (v.perm.map Prod.fst).nodup_iff.mpr ?_
  rw [Std.ExtTreeMap.map_fst_toList_eq_keys]
  exact Std.ExtTreeMap.nodup_keys

/-- **What is not listed is no more frequent**, and where the table is not full, of frequency 1. -/
theorem FreqVec.not_listed {pc n : UInt64} (hn : freq[pc]? = some n)
    (hpc : pc ∉ (listed 0 v.entries).map Prod.fst) :
    (∀ p ∈ listed 0 v.entries, n ≤ p.2) ∧ ((listed 0 v.entries).length < 10000 → n ≤ 1) := by
  obtain ⟨rest, heq, -, hend⟩ := listed_append 0 v.entries (Nat.zero_le _)
  have hrest : (pc, n) ∈ rest := by
    have hmem := v.mem_of_getElem? hn
    rw [heq] at hmem
    rcases List.mem_append.mp hmem with h | h
    · exact absurd (List.mem_map_of_mem (f := Prod.fst) h) hpc
    · exact h
  have hsorted := v.sorted
  rw [heq] at hsorted
  obtain ⟨-, htail, hcross⟩ := List.pairwise_append.mp hsorted
  refine ⟨fun p hp => hcross p hp _ hrest, fun hlt => ?_⟩
  rcases hend with rfl | ⟨p, hp, hone⟩ | hfull
  · cases hrest
  · cases rest with
    | nil => cases hp
    | cons q rest =>
        cases hp
        rw [← hone]
        rcases List.mem_cons.mp hrest with h | h
        · rw [← h]
          exact UInt64.le_refl _
        · exact List.rel_of_pairwise_cons htail h
  · omega

end Listed

/-! ### The frequencies of a run -/

/-- The calls on their way to the frequency of `pc`. -/
def pendingFreq (pc : UInt64) (l : List (Executed × List InsCall)) : ℕ :=
  (l.map fun p => (p.2.filterMap p.1.statCall).count (.incrementInsFreq pc)).sum

/-- The instruction accesses memory and is at `pc`. -/
def Executed.accessesAt (pc : UInt64) (e : Executed) : Bool :=
  e.ins.isMemory && e.ins.address == pc

/-- The executions of memory instructions at `pc` that a step begins. -/
def RunAct.executions {ι : Type*} (pc : UInt64) : RunAct ι → ℕ
  | .enterBbl _ r => r.instrs.countP (Executed.accessesAt pc)
  | .nextIns _ | .bufferFull _ | .threadFini _ => 0

/-- The calls of an executed instruction add 1 to the frequency of its own pc. -/
theorem count_statCall {k : Knobs} (hk : k.recording = true) (pc : UInt64) (e : Executed) :
    ((insCalls k e.ins).filterMap e.statCall).count (.incrementInsFreq pc) =
      if e.accessesAt pc then 1 else 0 := by
  have hread : e.statCall fillRead = none := rfl
  have hwrite : e.statCall fillWrite = none := rfl
  have hpause : e.statCall .threadPause = some .incPauseInstructions := rfl
  have hfreq : e.statCall (.recordFrequency .instPtr) = some (.incrementInsFreq e.ins.address) :=
    rfl
  simp only [insCalls, List.filterMap_append, filterMap_insertIf, hread, hwrite, hpause, hfreq, hk,
    Bool.and_true, Option.toList_none, Option.toList_some, ite_self, List.append_nil,
    List.count_append]
  have hpauses : (if (k.profSync == 1 && e.ins.isPause) = true then [Call.incPauseInstructions]
      else []).count (.incrementInsFreq pc) = 0 := by
    split_ifs <;> rfl
  rw [hpauses, Nat.add_zero, Executed.accessesAt]
  by_cases hm : e.ins.isMemory = true
  · rw [if_pos hm, hm, Bool.true_and, List.count_singleton]
    simp only [beq_iff_eq, Call.incrementInsFreq.injEq]
  · rw [if_neg hm, (Bool.not_eq_true _).mp hm]
    rfl

/-- The calls of a block that is executed to its end. -/
theorem pendingFreq_block {k : Knobs} (hk : k.recording = true) (pc : UInt64) (r : WholeRun) :
    pendingFreq pc (r.instrs.zip (r.inserted k).calls) =
      r.instrs.countP (Executed.accessesAt pc) := by
  have hcalls : (r.inserted k).calls = (r.instrs.map fun e => insCalls k e.ins) ++ [] := by
    rw [r.inserted_eq, blockOf, ← r.map_ins, List.map_map, List.append_nil]
    rfl
  rw [hcalls, zip_map_append, pendingFreq, List.map_map]
  induction r.instrs with
  | nil => rfl
  | cons e es ih =>
      rw [List.map_cons, List.sum_cons, ih, List.countP_cons, Nat.add_comm]
      exact congrArg _ (count_statCall hk pc e)

/-- Calls made one after the other, at one key. -/
theorem insFreqs_foldl (cs : List Call) {t : AppThreadStatistics} {pc : UInt64} {m : ℕ}
    (h : t.insFreqs[pc]? = ofCount m) :
    (cs.foldl AppThreadStatistics.apply t).insFreqs[pc]? =
      ofCount (m + cs.count (.incrementInsFreq pc)) := by
  induction cs generalizing t m with
  | nil => exact h
  | cons c cs ih =>
      have hc : (t.apply c).insFreqs[pc]? =
          ofCount (m + if c = .incrementInsFreq pc then 1 else 0) := by
        rw [AppThreadStatistics.insFreqs_apply, h, AppThreadStatistics.plus_ofCount]
      rw [List.foldl_cons, ih hc, List.count_cons, Nat.add_assoc, Nat.add_comm (List.count _ _)]
      simp only [beq_iff_eq]

section Run
variable {ι : Type*} [DecidableEq ι] [Fintype ι] {k : Knobs} {pc : UInt64} {s u : RunState ι}

/-- What a thread with `m` calls at `pc` has still to give to the frequencies. -/
def due (pc : UInt64) (x : ThreadRun × ℕ) : ℕ :=
  if x.1.exited then 0 else x.2 + pendingFreq pc x.1.pending

/-- The frequency of `pc` in the totals and in the threads, with the calls still to come, is `n`. -/
def Counted (pc : UInt64) (s : RunState ι) (n : ℕ) : Prop :=
  ∃ (total : ℕ) (m : ι → ℕ), s.overall.insFreqs[pc]? = ofCount total ∧
    (∀ t, (s.threads t).statistics.insFreqs[pc]? = ofCount (m t)) ∧
      total + ∑ t, due pc (s.threads t, m t) = n

omit [DecidableEq ι] in
theorem counted_start (n : UInt64) (f p : UInt32) (now : UInt64) :
    Counted pc (.start n f p now : RunState ι) 0 := by
  refine ⟨0, fun _ => 0, Std.ExtTreeMap.getElem?_empty, fun _ => Std.ExtTreeMap.getElem?_empty, ?_⟩
  simp [due, RunState.start, pendingFreq]

/-- One thread changes, and with it the totals. -/
theorem counted_update {t : ι} {x : ThreadRun} {o : OverallStatistics} {n a total b : ℕ}
    {m : ι → ℕ} {j : ℕ}
    (hm : ∀ t, (s.threads t).statistics.insFreqs[pc]? = ofCount (m t))
    (hsum : total + ∑ t, due pc (s.threads t, m t) = n)
    (hx : x.statistics.insFreqs[pc]? = ofCount j) (ho : o.insFreqs[pc]? = ofCount b)
    (hdue : b + due pc (x, j) = total + due pc (s.threads t, m t) + a) :
    Counted pc { threads := Function.update s.threads t x, overall := o } (n + a) := by
  refine ⟨b, Function.update m t j, ho, fun t' => ?_, ?_⟩
  · dsimp only
    by_cases ht : t' = t
    · subst ht
      rw [Function.update_self, Function.update_self, hx]
    · rw [Function.update_of_ne ht, Function.update_of_ne ht, hm]
  · have hpairs : (fun t' => due pc (Function.update s.threads t x t', Function.update m t j t')) =
        fun t' => due pc (Function.update (fun t' => (s.threads t', m t')) t (x, j) t') := by
      funext t'
      by_cases ht : t' = t
      · subst ht
        simp only [Function.update_self]
      · simp only [Function.update_of_ne ht]
    have hupdate := sum_update (due pc) (fun t' => (s.threads t', m t')) t (x, j)
    dsimp only at hupdate ⊢
    rw [hpairs]
    omega

/-- A buffer that is handed over counts at no pc. -/
theorem insFreqs_bufferFull {x : ThreadRun} {m : ℕ}
    (h : x.statistics.insFreqs[pc]? = ofCount m) :
    x.bufferFull.statistics.insFreqs[pc]? = ofCount m :=
  h

theorem due_of_live {x : ThreadRun} (hx : x.exited = false) (m : ℕ) :
    due pc (x, m) = m + pendingFreq pc x.pending :=
  if_neg fun h => Bool.false_ne_true (hx.symm.trans h)

/-- **A step** begins the executions of the block it enters. -/
theorem Counted.step (hk : k.recording = true) {a : RunAct ι} {n : ℕ} (hc : Counted pc s n)
    (h : s.step k a = some u) : Counted pc u (n + a.executions pc) := by
  obtain ⟨total, m, ho, hm, hsum⟩ := hc
  cases a with
  | enterBbl t r =>
      obtain ⟨x, hx, rfl⟩ := Option.map_eq_some_iff.mp h
      obtain ⟨hlive, hpending, hy⟩ := enter_cases hx
      have hylive : x.exited = false := by rw [hy, hlive]
      refine counted_update (j := m t) hm hsum ?_ ho ?_
      · have hone := AppThreadStatistics.insFreqs_apply (s.threads t).statistics
          (.incrementInsExecuted (r.inserted k).numIns (r.inserted k).numMemIns) pc
        rw [hm, if_neg (by nofun), AppThreadStatistics.plus_ofCount] at hone
        rw [hy]
        exact hone
      · have hblock : pendingFreq pc x.pending = r.instrs.countP (Executed.accessesAt pc) := by
          rw [hy, pendingFreq_block hk]
        have hempty : pendingFreq pc (s.threads t).pending = 0 := by
          rw [hpending]
          rfl
        rw [due_of_live hylive, due_of_live hlive, hblock, hempty, RunAct.executions, Nat.add_zero,
          Nat.add_assoc]
  | nextIns t =>
      obtain ⟨x, hx, rfl⟩ := Option.map_eq_some_iff.mp h
      obtain ⟨e, calls, pending, hlive, hpending, hy⟩ := next_cases hx
      have hylive : x.exited = false := by rw [hy, hlive]
      have hypending : x.pending = pending := by rw [hy]
      refine counted_update hm hsum
        (j := m t + (calls.filterMap e.statCall).count (.incrementInsFreq pc)) ?_ ho ?_
      · rw [hy]
        exact insFreqs_foldl _ (hm t)
      · rw [due_of_live hylive, due_of_live hlive, hypending, hpending, pendingFreq, pendingFreq,
          List.map_cons, List.sum_cons, RunAct.executions, Nat.add_zero, Nat.add_assoc (m t)]
  | bufferFull t =>
      rw [RunState.step] at h
      split at h
      · cases h
      · cases h
        exact counted_update hm hsum (insFreqs_bufferFull (hm t)) ho rfl
  | threadFini t =>
      rw [RunState.step] at h
      split at h
      · cases h
      · rename_i hx
        simp only [not_or, Bool.not_eq_true, ne_eq, not_not] at hx
        cases h
        refine counted_update (j := m t) (b := total + m t) hm hsum
          (insFreqs_bufferFull (hm t)) ?_ ?_
        · rw [OverallStatistics.insFreqs_accumulate, Tally.getElem?_merge, ho,
            insFreqs_bufferFull (hm t), AppThreadStatistics.plus_ofCount]
        · rw [due_of_live hx.1, hx.2]
          rfl

theorem Counted.exec (hk : k.recording = true) {as : List (RunAct ι)} {n : ℕ}
    (hc : Counted pc s n) (h : Transition.exec (RunState.step k) s as = some u) :
    Counted pc u (n + (as.map (RunAct.executions pc)).sum) := by
  induction as generalizing s n with
  | nil =>
      cases h
      exact hc
  | cons a as ih =>
      obtain ⟨t, ht, h⟩ := Option.bind_eq_some_iff.mp h
      rw [List.map_cons, List.sum_cons, ← Nat.add_assoc]
      exact ih (hc.step hk ht) h

/-- How often memory instructions at `pc` were executed, by all threads. -/
def executions (pc : UInt64) (as : List (RunAct ι)) : ℕ := (as.map (RunAct.executions pc)).sum

/-- **The merged frequencies** once every thread has exited. -/
theorem insFreqs_overall (hk : k.recording = true) {n : UInt64} {f p : UInt32} {now : UInt64}
    {as : List (RunAct ι)} (h : Transition.exec (RunState.step k) (.start n f p now) as = some s)
    (hexit : ∀ t, (s.threads t).exited = true) (pc : UInt64) :
    s.overall.insFreqs[pc]? = ofCount (executions pc as) := by
  have hstart : Counted pc (.start n f p now : RunState ι) 0 := counted_start n f p now
  obtain ⟨total, m, ho, -, hsum⟩ := hstart.exec hk h
  have hdue : ∑ t, due pc (s.threads t, m t) = 0 :=
    Finset.sum_eq_zero fun t _ => if_pos (hexit t)
  rw [hdue, Nat.add_zero, Nat.zero_add] at hsum
  rw [ho, hsum, executions]

/-- **The table lists the hottest pcs**: each with the number of its executions, none executed only
once, and no pc left out that was executed more often than one that is listed, or more than once
while there was room. -/
theorem table_lists_hottest (hk : k.recording = true) {n : UInt64} {f p : UInt32} {now : UInt64}
    {as : List (RunAct ι)} (h : Transition.exec (RunState.step k) (.start n f p now) as = some s)
    (hexit : ∀ t, (s.threads t).exited = true) (hlt : ∀ pc, executions pc as < 2 ^ 64)
    (v : FreqVec s.overall.insFreqs) :
    ((listed 0 v.entries).map Prod.fst).Nodup ∧ (listed 0 v.entries).length ≤ 10000 ∧
      (∀ e ∈ listed 0 v.entries, e.2.toNat = executions e.1 as ∧ 2 ≤ executions e.1 as) ∧
      ∀ pc ∉ (listed 0 v.entries).map Prod.fst,
        (∀ e ∈ listed 0 v.entries, executions pc as ≤ executions e.1 as) ∧
          ((listed 0 v.entries).length < 10000 → executions pc as ≤ 1) := by
  obtain ⟨rest, heq, hle, -⟩ := listed_append 0 v.entries (Nat.zero_le _)
  have hpre : listed 0 v.entries <+: v.entries := ⟨rest, heq.symm⟩
  have hfreq := insFreqs_overall hk h hexit
  -- a frequency that is there is the number of executions, which is not zero
  have hcount : ∀ pc c, s.overall.insFreqs[pc]? = some c →
      c.toNat = executions pc as ∧ executions pc as ≠ 0 := by
    intro pc c hc
    rw [hfreq, ofCount] at hc
    split_ifs at hc with hzero
    cases hc
    exact ⟨UInt64.toNat_ofNat_of_lt' (hlt pc), hzero⟩
  have hlisted : ∀ e ∈ listed 0 v.entries, e.2.toNat = executions e.1 as ∧
      executions e.1 as ≠ 0 := fun e he =>
    hcount e.1 e.2 (v.getElem?_of_mem (hpre.subset he))
  refine ⟨v.nodup.sublist (hpre.sublist.map _), by omega, fun e he => ?_, fun pc hpc => ?_⟩
  · obtain ⟨hc, hzero⟩ := hlisted e he
    have hone : e.2.toNat ≠ 1 := fun h1 => ne_one_of_mem_listed he (UInt64.toNat_inj.mp h1)
    exact ⟨hc, by omega⟩
  · by_cases hzero : executions pc as = 0
    · rw [hzero]
      exact ⟨fun _ _ => Nat.zero_le _, fun _ => Nat.zero_le _⟩
    · have hc : s.overall.insFreqs[pc]? = some (.ofNat (executions pc as)) := by
        rw [hfreq, ofCount, if_neg hzero]
      obtain ⟨hmore, hroom⟩ := v.not_listed hc hpc
      have hval := (hcount pc _ hc).1
      refine ⟨fun e he => ?_, fun hshort => ?_⟩
      · rw [← hval, ← (hlisted e he).1]
        exact UInt64.le_iff_toNat_le.mp (hmore e he)
      · rw [← hval]
        exact UInt64.le_iff_toNat_le.mp (hroom hshort)

end Run

/-- One thread that executes a memory instruction twice and exits. -/
def twice : List (RunAct (Fin 1)) := (oneIns incMem).dropLast ++ oneIns incMem

/-- `executions` at every pc, in the run of one block. -/
theorem executions_twice (pc : UInt64) : executions pc twice =
    if incMem.ins.address = pc then 2 else 0 := by
  by_cases h : incMem.ins.address = pc
  · subst h
    decide
  · have haccess : incMem.accessesAt pc = false := by
      rw [Executed.accessesAt, beq_eq_false_iff_ne.mpr h, Bool.and_false]
    simp [executions, twice, oneIns, RunAct.executions, alone, haccess, h]

theorem table_lists_hottest_twice :
    ∃ s, Transition.exec (RunState.step { recordFreq := "freq" }) (.start 0 0 0 1) twice = some s ∧
      ∀ e ∈ listed 0 (FreqVec.sort s.overall.insFreqs).entries, e = (0x401000, 2) := by
  have hrun : ∃ s : RunState (Fin 1),
      Transition.exec (RunState.step { recordFreq := "freq" }) (.start 0 0 0 1) twice = some s ∧
        (s.threads 0).exited = true := ⟨_, rfl, rfl⟩
  obtain ⟨s, hs, hexit⟩ := hrun
  have hlt : ∀ pc, executions pc twice < 2 ^ 64 := by
    intro pc
    rw [executions_twice]
    split_ifs <;> decide
  obtain ⟨-, -, hlisted, -⟩ := table_lists_hottest (by decide) hs (exited_zero hexit) hlt
    (FreqVec.sort s.overall.insFreqs)
  refine ⟨s, hs, fun e he => ?_⟩
  obtain ⟨hcount, htwo⟩ := hlisted e he
  rw [executions_twice] at hcount htwo
  split_ifs at hcount htwo with hpc
  · exact Prod.ext hpc.symm (UInt64.toNat_inj.mp hcount)
  · omega

/-- A pc in a function whose name is longer than the table shows. -/
def longName : Maps where
  pcInsFunction := (∅ : Std.ExtTreeMap UInt64 String).insert 0x401000
    "std::__cxx11::basic_string<char>::_M_replace_aux(unsigned)"

/-- How Pin and `std::fixed` print the two numbers of its row. -/
def hexOne (_ : UInt64) : List UInt8 := ascii "0x401000"

def fixedOne (_ : Double) : List UInt8 := ascii "1.000"

theorem frequency_file_read_longName :
    read (freqTable hexOne fixedOne longName [(0x401000, 2), (0x401008, 1)]).print =
      some (freqHeaders, (listed 0 [(0x401000, 2), (0x401008, 1)]).map fun p =>
        (freqRow hexOne fixedOne longName p).map trimEnd) := by
  refine frequency_file_read hexOne fixedOne longName
    (fun _ => (by decide : 10 ∉ ascii "0x401000")) (fun _ => (by decide : 10 ∉ ascii "1.000"))
    (fun pc => ?_) [(0x401000, 2), (0x401008, 1)]
  have hnone : (longName.pcInsString[pc]?).getD "" = "" := by
    rw [longName, Std.ExtTreeMap.getElem?_empty, Option.getD_none]
  rw [hnone, longName, Std.ExtTreeMap.getElem?_insert]
  split_ifs
  · decide
  · rw [Std.ExtTreeMap.getElem?_empty]
    decide

end BulletTime.Pintool
