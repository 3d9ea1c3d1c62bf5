import BulletTime.Common
import BulletTime.Lib.Transition

/-!
# Consumer — CpuMonitor

`CPU_Monitor::get_deltas`: four reads of the performance counters into local records, and what each
counter has advanced since the last call.  The locals are not initialised, so what they hold before
the reads is an argument of the call.

* `getDeltas_of_noThread` and `getDeltas_of_thread`: the two ways a call ends.
* `fromDelivered_iff`: a call reports and keeps only what its reads delivered exactly when one of
  them found the thread gone, or all four delivered.
* `returned_congr`: two runs with the same reads, all of them such, return the same counts.

`[about the source]`: a read of 24 bytes fills all of a record but `id`, which no code reads.
-/

namespace BulletTime.Consumer
open Transition

/-- The 24 bytes of a counter: no `PERF_FORMAT_ID` is asked for. -/
@[ext]
structure Reading where
  value : UInt64 := 0
  timeEnabled : UInt64 := 0
  timeRunning : UInt64 := 0
  deriving DecidableEq

/-- `perf_read_format`. -/
structure PerfReadFormat extends Reading where
  id : UInt64 := 0
  deriving DecidableEq

/-- The four counters, in the order of their reads. -/
inductive Counter where
  | userInstr
  | kernelInstr
  | userCycles
  | kernelCycles
  deriving DecidableEq

/-- What `read` on a counter comes back with: 24 bytes, 0, or -1 and `errno`. -/
inductive ReadResult where
  | delivered (r : Reading)
  | endOfFile
  | failed (errno : ℕ)
  deriving DecidableEq

/-- `ESRCH`. -/
def esrch : ℕ := 3

namespace ReadResult

/-- The record after the read. -/
def into : ReadResult → PerfReadFormat → PerfReadFormat
  | delivered r, p => { p with toReading := r }
  | endOfFile, p | failed _, p => p

/-- The one outcome `get_deltas` tests for. -/
def noThread (r : ReadResult) : Prop := r = failed esrch

instance : DecidablePred noThread := fun r => inferInstanceAs (Decidable (r = failed esrch))

end ReadResult

/-- The `last_*` records of `CPU_Monitor`. -/
structure CPUMonitor where
  last : Counter → PerfReadFormat := fun _ => {}

/-- The difference of two words as `long long`. -/
def longDelta (current last : UInt64) : ℤ := (current - last).toInt64.toInt

/-- `calculate_scaled_delta`, the count and whether it is a scaled one.  `scale` is the arithmetic
on `double`s, `value_delta * (time_enabled_delta / time_running_delta)` converted back. -/
def calculateScaledDelta (scale : ℤ → ℤ → ℤ → ℤ) (current last : Reading) : ℤ × Bool :=
  let valueDelta := longDelta current.value last.value
  let timeEnabledDelta := longDelta current.timeEnabled last.timeEnabled
  let timeRunningDelta := longDelta current.timeRunning last.timeRunning
  if 0 < timeRunningDelta ∧ timeRunningDelta < timeEnabledDelta then
    (scale valueDelta timeEnabledDelta timeRunningDelta, true)
  else (valueDelta, false)

/-- `CPU_Counts counts`, filled counter by counter. -/
def countsOf (delta : Counter → ℤ × Bool) : CPUCounts where
  userInstructions := (delta .userInstr).1
  kernelInstructions := (delta .kernelInstr).1
  userCycles := (delta .userCycles).1
  kernelCycles := (delta .kernelCycles).1
  multiplexingDetected := (delta .userInstr).2 || (delta .kernelInstr).2 ||
    (delta .userCycles).2 || (delta .kernelCycles).2

/-- `get_deltas`, with what the locals hold before the reads. -/
def getDeltas (scale : ℤ → ℤ → ℤ → ℤ) (m : CPUMonitor) (locals : Counter → PerfReadFormat)
    (reads : Counter → ReadResult) : Option CPUCounts × CPUMonitor :=
  if (reads .userInstr).noThread then (none, m)
  else if (reads .kernelInstr).noThread then (none, m)
  else if (reads .userCycles).noThread then (none, m)
  else if (reads .kernelCycles).noThread then (none, m)
  else
    let current := fun k => (reads k).into (locals k)
    (some (countsOf fun k => calculateScaledDelta scale (current k).toReading
      (m.last k).toReading), ⟨current⟩)

/-! ### The two ways a call ends -/

variable {scale : ℤ → ℤ → ℤ → ℤ} {m : CPUMonitor} {locals : Counter → PerfReadFormat}
  {reads : Counter → ReadResult}

theorem getDeltas_of_noThread {k : Counter} (h : (reads k).noThread) :
    getDeltas scale m locals reads = (none, m) := by
  unfold getDeltas
  cases k <;> simp only [h, if_true, ite_self]

theorem getDeltas_of_thread (h : ∀ k, ¬ (reads k).noThread) :
    getDeltas scale m locals reads =
      (some (countsOf fun k => calculateScaledDelta scale ((reads k).into (locals k)).toReading
        (m.last k).toReading), ⟨fun k => (reads k).into (locals k)⟩) := by
  rw [getDeltas, if_neg (h _), if_neg (h _), if_neg (h _), if_neg (h _)]

theorem into_endOfFile_or_failed {r : ReadResult} (h : ∀ d, r ≠ .delivered d)
    (p : PerfReadFormat) : r.into p = p := by
  cases r with
  | delivered d => exact absurd rfl (h d)
  | endOfFile | failed => rfl

/-! ### What a call reports and keeps -/

/-- A call with these reads reports that the thread is gone and leaves the records as they are, or
else the counts it reports and the readings it keeps are the same whatever its locals held. -/
def FromDelivered (scale : ℤ → ℤ → ℤ → ℤ) (m : CPUMonitor) (reads : Counter → ReadResult) :
    Prop :=
  (∀ locals, getDeltas scale m locals reads = (none, m)) ∨
    ∃ (counts : CPUCounts) (kept : Counter → Reading), ∀ locals,
      (getDeltas scale m locals reads).1 = some counts ∧
        ∀ k, ((getDeltas scale m locals reads).2.last k).toReading = kept k

/-- A read found the thread gone, or every read delivered. -/
def Readable (reads : Counter → ReadResult) : Prop :=
  (∃ k, (reads k).noThread) ∨ ∀ k, ∃ r, reads k = .delivered r

theorem getDeltas_delivered (scale : ℤ → ℤ → ℤ → ℤ) (m : CPUMonitor)
    (locals : Counter → PerfReadFormat) {r : Counter → Reading}
    (h : ∀ k, reads k = .delivered (r k)) :
    (getDeltas scale m locals reads).1 =
        some (countsOf fun k => calculateScaledDelta scale (r k) (m.last k).toReading) ∧
      ∀ k, ((getDeltas scale m locals reads).2.last k).toReading = r k := by
  have hk : ∀ k, ¬ (reads k).noThread := fun k => by
    rw [h k]
    exact ReadResult.noConfusion
  have hi : ∀ k, ((reads k).into (locals k)).toReading = r k := fun k => by
    rw [h k]
    rfl
  rw [getDeltas_of_thread hk]
  exact ⟨by simp only [hi], hi⟩

/-- **One call.**  A read that failed otherwise, or came to the end of the file, is the case in
which what the local held is kept. -/
theorem fromDelivered_iff : FromDelivered scale m reads ↔ Readable reads := by
  constructor
  · intro h
    by_contra hr
    -- a read that delivered nothing keeps the local
    obtain ⟨hno, hd⟩ := not_or.mp hr
    rw [not_exists] at hno
    obtain ⟨k, hk⟩ := not_forall.mp hd
    have hkept : ∀ locals : Counter → PerfReadFormat,
        (getDeltas scale m locals reads).1 ≠ none ∧
          (getDeltas scale m locals reads).2.last k = locals k := fun locals => by
      rw [getDeltas_of_thread hno]
      exact ⟨Option.some_ne_none _, into_endOfFile_or_failed (not_exists.mp hk) _⟩
    rcases h with h | ⟨counts, kept, h⟩
    · exact (hkept fun _ => {}).1 (by rw [h])
    · -- two contents of the local, told apart by what is kept
      have h₀ := (h fun _ => {}).2 k
      have h₁ := (h fun _ => { value := 1 }).2 k
      rw [(hkept _).2] at h₀ h₁
      exact absurd (congrArg Reading.value (h₀.trans h₁.symm)) (by decide)
  · rintro (⟨k, hk⟩ | h)
    · exact .inl fun _ => getDeltas_of_noThread hk
    · choose r hr using h
      exact .inr ⟨_, r, fun locals => getDeltas_delivered scale m locals hr⟩

/-! ### Runs -/

/-- A call of `get_deltas`. -/
structure DeltaCall where
  reads : Counter → ReadResult
  locals : Counter → PerfReadFormat := fun _ => {}

/-- The monitor from one call to the next. -/
def deltaStep (scale : ℤ → ℤ → ℤ → ℤ) (m : CPUMonitor) (c : DeltaCall) : Option CPUMonitor :=
  some (getDeltas scale m c.locals c.reads).2

/-- What the calls return. -/
def returned (scale : ℤ → ℤ → ℤ → ℤ) : CPUMonitor → List DeltaCall → List (Option CPUCounts)
  | _, [] => []
  | m, c :: cs =>
      (getDeltas scale m c.locals c.reads).1 ::
        returned scale (getDeltas scale m c.locals c.reads).2 cs

/-- Monitors that hold the same readings. -/
def CPUMonitor.Agree (m m' : CPUMonitor) : Prop :=
  ∀ k, (m.last k).toReading = (m'.last k).toReading

/-- **Two calls with the same reads**, from monitors that agree. -/
theorem getDeltas_congr (scale : ℤ → ℤ → ℤ → ℤ) {m' : CPUMonitor} (hm : m.Agree m')
    (h : Readable reads) (locals locals' : Counter → PerfReadFormat) :
    (getDeltas scale m locals reads).1 = (getDeltas scale m' locals' reads).1 ∧
      (getDeltas scale m locals reads).2.Agree (getDeltas scale m' locals' reads).2 := by
  rcases h with ⟨k, hk⟩ | h
  · rw [getDeltas_of_noThread hk, getDeltas_of_noThread hk]
    exact ⟨rfl, hm⟩
  · choose r hr using h
    obtain ⟨h₁, h₂⟩ := getDeltas_delivered scale m locals hr
    obtain ⟨h₁', h₂'⟩ := getDeltas_delivered scale m' locals' hr
    refine ⟨?_, fun k => (h₂ k).trans (h₂' k).symm⟩
    rw [h₁, h₁']
    exact congrArg (fun f => some (countsOf f)) (funext fun k => by rw [hm k])

/-- **Two runs with the same reads** return the same counts, whatever the locals of their calls
held. -/
theorem returned_congr {m' : CPUMonitor} {cs cs' : List DeltaCall} (hm : m.Agree m')
    (he : cs.map DeltaCall.reads = cs'.map DeltaCall.reads) (h : ∀ c ∈ cs, Readable c.reads) :
    returned scale m cs = returned scale m' cs' := by
  induction cs generalizing m m' cs' with
  | nil =>
      rw [List.map_nil, eq_comm, List.map_eq_nil_iff] at he
      rw [he]
      rfl
  | cons c cs ih =>
      cases cs' with
      | nil => simp at he
      | cons c' cs' =>
          obtain ⟨hc, he⟩ := List.cons.inj he
          have hstep := getDeltas_congr scale hm (h c (List.mem_cons_self ..)) c.locals c'.locals
          rw [hc] at hstep
          rw [returned, returned, hc, hstep.1]
          exact congrArg _ (ih hstep.2 he fun d hd => h d (List.mem_cons_of_mem _ hd))

/-- **Deltas come from counters that were read** in every call of a run, exactly when each of the
calls has a read that found the thread gone, or four that delivered. -/
theorem deltas_from_delivered_iff (scale : ℤ → ℤ → ℤ → ℤ) (calls : List DeltaCall) :
    EveryStep (deltaStep scale) {} calls (fun m c => FromDelivered scale m c.reads) ↔
      EveryStep (deltaStep scale) {} calls fun _ c => Readable c.reads :=
  ⟨fun h => h.mono fun _ _ => fromDelivered_iff.mp,
    fun h => h.mono fun _ _ => fromDelivered_iff.mpr⟩

/-- The first counter is at the end of its file, the others deliver. -/
def firstAtEnd : Counter → ReadResult
  | .userInstr => .endOfFile
  | _ => .delivered {}

/-- **What the local held** is the first count, and the baseline of the next one. -/
theorem deltas_not_from_delivered :
    ¬ EveryStep (deltaStep fun v _ _ => v) {} [{ reads := firstAtEnd }]
        (fun m c => FromDelivered (fun v _ _ => v) m c.reads) ∧
      ∀ locals : Counter → PerfReadFormat, locals .userInstr = { value := 7 } →
        (returned (fun v _ _ => v) {} [{ reads := firstAtEnd, locals := locals },
          { reads := fun _ => .delivered { value := 9 } }]).map (Option.map (·.userInstructions)) =
            [some 7, some 2] := by
  constructor
  · intro h
    rcases fromDelivered_iff.mp (h [] _ [] _ rfl rfl) with ⟨k, hk⟩ | h
    · cases k <;> cases hk
    · obtain ⟨r, hr⟩ := h .userInstr
      cases hr
  · intro locals hl
    have hno : ∀ k, ¬ (firstAtEnd k).noThread := fun k => by cases k <;> decide
    have hno' : ∀ k : Counter, ¬ (ReadResult.delivered { value := 9 }).noThread :=
      fun _ => by decide
    rw [returned, returned, returned, getDeltas_of_thread hno, getDeltas_of_thread hno']
    simp only [countsOf, List.map_cons, List.map_nil, Option.map_some, firstAtEnd, ReadResult.into,
      hl]
    rfl

end BulletTime.Consumer
