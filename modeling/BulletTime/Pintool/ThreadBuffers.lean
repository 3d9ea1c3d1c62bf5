import BulletTime.Pintool.BufferList

/-!
# Pintool — ThreadBuffers

The trace buffers of an application thread, from `ThreadStart` to `ThreadFini`: Pin's own, which is
filled and given back, and `APP_BUFFERS` more on the thread's list.

* `putBufferOnList` and `getBufferFromList`: the calls of a thread that is alone with its manager;
  `exec_put` and `exec_get` find them in the runs of the shared one.
* `Owns`: the list is the buffers allocated, and the counter their number.
* `buffers_freed_once`: at the end each buffer is freed once, without a wait and with all
  assertions true, and a second call frees nothing.

`[about the source]`: there is one buffer type, so each loop over the types has one round.
-/

namespace BulletTime.Pintool
open BufferList Transition

/-- `MEMREF_BUF`, the one buffer type. -/
def memrefBuf : UInt32 := 0

/-- `APP_BUFFERS`. -/
def appBuffers : ℕ := 2

/-! ### The calls of a thread alone -/

/-- `PutBufferOnList`, what it returns and leaves. -/
def putBufferOnList (m : Manager) (e : BufferListElement) : Bool × Manager :=
  if m.exiting then (false, m) else (true, (m.push e).setSem)

/-- `GetBufferFromList`, what it returns and leaves; `none` where it waits for another thread. -/
def getBufferFromList (m : Manager) : Option (Option BufferListElement × Manager) :=
  if m.exiting ∧ m.bufferList = [] then some (none, m)
  else if m.bufferSem then
    match m.bufferList with
    | e :: rest => some (some e, m.take rest)
    | [] => none
  else none

section Alone
variable {ι : Type*} [DecidableEq ι] {s : State ι} {t : ι}

/-- A put of one thread in the shared manager, no other thread taking a step. -/
theorem exec_put (h : s.pc t = .idle) (hx : ¬ s.manager.exiting) (e : BufferListElement) :
    exec step s [.put t e, .run t, .run t] = some { s with
      manager := (putBufferOnList s.manager e).2
      pushed := s.pushed ++ [e] } := by
  have hback : Function.update s.pc t .idle = s.pc := by rw [← h, Function.update_eq_self]
  simp only [exec_cons, exec_nil, step, h, hx, State.run, State.goto, if_true, if_false,
    Option.bind_some, Function.update_self, Function.update_idem, hback, putBufferOnList]

/-- A get of one thread, on a manager whose exit event is not set. -/
theorem exec_get (h : s.pc t = .idle) (hx : ¬ s.manager.exiting) {e : BufferListElement}
    {m : Manager} (hget : getBufferFromList s.manager = some (some e, m)) :
    exec step s [.get t, .run t, .run t, .run t] = some { s with
      manager := m
      lastNull := Function.update s.lastNull t false
      got := s.got ++ [e] } := by
  have hback : Function.update s.pc t .idle = s.pc := by rw [← h, Function.update_eq_self]
  rw [getBufferFromList, if_neg fun hc => hx hc.1] at hget
  split at hget
  · rename_i hs
    cases hl : s.manager.bufferList with
    | nil => simp [hl] at hget
    | cons e' rest =>
        simp only [hl, Option.some.injEq, Prod.mk.injEq] at hget
        obtain ⟨rfl, rfl⟩ := hget
        simp only [exec_cons, exec_nil, step, h, hx, hs, hl, State.run, State.goto, if_true,
          if_false, Option.bind_some, Function.update_self, Function.update_idem, hback]
  · cases hget

end Alone

/-! ### The thread -/

/-- The part of `APP_THREAD_REPRESENTITVE` that keeps the buffers. -/
structure ThreadBuffers where
  /-- The representative itself. -/
  this : UInt64
  freeBufferListManager : Manager := .new false
  currentBuf : UInt64 := 0
  numBuffersAllocated : ℕ := 0

/-- What stops a thread in `AllBuffersProcessed`. -/
inductive Stuck where
  | assertion
  | wait
  deriving DecidableEq

namespace ThreadBuffers

/-- A free buffer as `AllocateBuffers` puts it on the list. -/
def freeElement (t : ThreadBuffers) (buf : UInt64) : BufferListElement where
  buf := buf
  numElements := 0
  appThreadRepresentitive := t.this
  index := 0
  bufField := memrefBuf

/-- One round of the loop of `AllocateBuffers`. -/
def allocateBuffer (t : ThreadBuffers) (buf : UInt64) : ThreadBuffers :=
  { t with
    freeBufferListManager := (putBufferOnList t.freeBufferListManager (t.freeElement buf)).2
    numBuffersAllocated := t.numBuffersAllocated + 1 }

/-- `AllocateBuffers`, with what `PIN_AllocateBuffer` returns. -/
def allocateBuffers (t : ThreadBuffers) (bufs : ℕ → UInt64) : ThreadBuffers :=
  if t.numBuffersAllocated ≠ 0 then t
  else (List.range appBuffers).foldl (fun t i => t.allocateBuffer (bufs i)) t

/-- The buffers of `ThreadStart`: Pin's current one, asserted not to be null, and those
allocated. -/
def threadStart (this buf : UInt64) (bufs : ℕ → UInt64) : Except Stuck ThreadBuffers :=
  if buf = 0 then .error .assertion
  else .ok (allocateBuffers { this := this, currentBuf := buf } bufs)

/-- `EnqueueFullAndGetNextToFill`: the buffer to fill next. -/
def enqueueFullAndGetNextToFill (t : ThreadBuffers) (fullBuf : UInt64) : UInt64 × ThreadBuffers :=
  (fullBuf, { t with currentBuf := fullBuf })

/-- `n` full buffers: Pin passes the one it fills to the callback, and fills the one returned. -/
def fill : ℕ → UInt64 × ThreadBuffers → UInt64 × ThreadBuffers
  | 0, p => p
  | n + 1, (buf, t) => fill n (t.enqueueFullAndGetNextToFill buf)

/-- The loop of `AllBuffersProcessed`, with what it frees. -/
def reclaim : ℕ → ThreadBuffers → Except Stuck (List UInt64 × ThreadBuffers)
  | 0, t => .ok ([], t)
  | n + 1, t =>
      match getBufferFromList t.freeBufferListManager with
      | none => .error .wait
      | some (none, _) => .error .assertion
      | some (some e, m) =>
          if e.buf = 0 ∨ e.bufField ≠ memrefBuf ∨ e.appThreadRepresentitive ≠ t.this then
            .error .assertion
          else do
            let (freed, t) ← reclaim n
              { t with freeBufferListManager := m, numBuffersAllocated := n }
            .ok (e.buf :: freed, t)

/-- `AllBuffersProcessed`, with what it frees. -/
def allBuffersProcessed (t : ThreadBuffers) : Except Stuck (List UInt64 × ThreadBuffers) :=
  if t.numBuffersAllocated = 0 then .ok ([], t)
  else if t.currentBuf = 0 then .error .assertion
  else do
    let (freed, t) ← reclaim t.numBuffersAllocated t
    .ok (freed ++ [t.currentBuf], t)

/-! ### What the thread owns -/

/-- The buffers `bufs` are the ones on the list, and counted. -/
structure Owns (t : ThreadBuffers) (bufs : List UInt64) : Prop where
  list : t.freeBufferListManager.bufferList = bufs.map t.freeElement
  sem : bufs ≠ [] → t.freeBufferListManager.bufferSem = true
  event : t.freeBufferListManager.exitEvent = none
  count : t.numBuffersAllocated = bufs.length

variable {t : ThreadBuffers} {bufs : List UInt64}

theorem Owns.not_exiting (h : t.Owns bufs) : ¬ t.freeBufferListManager.exiting := by
  intro hx
  rw [Manager.exiting, h.event] at hx
  cases hx

theorem Owns.allocateBuffer (h : t.Owns bufs) (buf : UInt64) :
    (t.allocateBuffer buf).Owns (bufs ++ [buf]) := by
  have hput : putBufferOnList t.freeBufferListManager (t.freeElement buf) =
      (true, (t.freeBufferListManager.push (t.freeElement buf)).setSem) := if_neg h.not_exiting
  unfold ThreadBuffers.allocateBuffer
  rw [hput]
  refine ⟨?_, fun _ => rfl, h.event, ?_⟩
  · rw [List.map_append, Manager.setSem_bufferList, Manager.push_bufferList, h.list]
    rfl
  · rw [List.length_append, h.count]
    rfl

theorem owns_foldl (is : List ℕ) (f : ℕ → UInt64) (h : t.Owns bufs) :
    (is.foldl (fun t i => t.allocateBuffer (f i)) t).Owns (bufs ++ is.map f) := by
  induction is generalizing t bufs with
  | nil => simpa using h
  | cons i is ih => simpa using ih (h.allocateBuffer (f i))

/-- The manager behind the first get. -/
theorem Owns.take {b : UInt64} (h : t.Owns (b :: bufs)) :
    Owns { t with
      freeBufferListManager := t.freeBufferListManager.take (bufs.map t.freeElement)
      numBuffersAllocated := bufs.length } bufs := by
  refine ⟨rfl, fun hne => ?_, h.event, rfl⟩
  rw [Manager.take_bufferSem_of_ne (List.map_eq_nil_iff.not.mpr hne)]
  exact h.sem (List.cons_ne_nil b bufs)

theorem Owns.getBufferFromList {b : UInt64} (h : t.Owns (b :: bufs)) :
    getBufferFromList t.freeBufferListManager = some (some (t.freeElement b),
      t.freeBufferListManager.take (bufs.map t.freeElement)) := by
  rw [Pintool.getBufferFromList, if_neg fun hx => h.not_exiting hx.1,
    if_pos (h.sem (List.cons_ne_nil b bufs)), h.list]
  rfl

/-- **The loop frees the buffers on the list**, each round without a wait and with its assertions
true. -/
theorem reclaim_owns (h : t.Owns bufs) (h0 : (0 : UInt64) ∉ bufs) :
    ∃ t', reclaim bufs.length t = .ok (bufs, t') ∧ t'.numBuffersAllocated = 0 ∧
      t'.currentBuf = t.currentBuf := by
  induction bufs generalizing t with
  | nil => exact ⟨t, rfl, h.count, rfl⟩
  | cons b bufs ih =>
      rw [List.mem_cons, not_or] at h0
      obtain ⟨t', hrec, hnum, hcur⟩ := ih h.take h0.2
      have hassert : ¬ ((t.freeElement b).buf = 0 ∨ (t.freeElement b).bufField ≠ memrefBuf ∨
          (t.freeElement b).appThreadRepresentitive ≠ t.this) := by
        rintro (hb | hf | ht)
        · exact h0.1 hb.symm
        · exact hf rfl
        · exact ht rfl
      refine ⟨t', ?_, hnum, hcur⟩
      simp only [List.length_cons, reclaim, h.getBufferFromList, if_neg hassert, hrec]
      rfl

/-- Filling and giving back leaves Pin's buffer the current one. -/
theorem fill_currentBuf (n : ℕ) : fill n (t.currentBuf, t) = (t.currentBuf, t) := by
  induction n with
  | zero => rfl
  | succ n ih => exact ih

theorem threadStart_owns {this buf : UInt64} (f : ℕ → UInt64) (hbuf : buf ≠ 0) :
    ∃ t, threadStart this buf f = .ok t ∧ t.Owns ((List.range appBuffers).map f) ∧
      t.currentBuf = buf := by
  refine ⟨_, if_neg hbuf, ?_, rfl⟩
  have hnone : Owns { this := this, currentBuf := buf } [] := ⟨rfl, fun h => absurd rfl h, rfl, rfl⟩
  exact owns_foldl (List.range appBuffers) f hnone

theorem allBuffersProcessed_owns (h : t.Owns bufs) (hne : bufs ≠ []) (h0 : (0 : UInt64) ∉ bufs)
    (hcur : t.currentBuf ≠ 0) :
    ∃ t', allBuffersProcessed t = .ok (bufs ++ [t.currentBuf], t') ∧
      allBuffersProcessed t' = .ok ([], t') := by
  obtain ⟨t', hrec, hnum, hcur'⟩ := reclaim_owns h h0
  have hpos : t.numBuffersAllocated ≠ 0 := by
    rw [h.count]
    exact Nat.ne_of_gt (List.length_pos_iff.mpr hne)
  refine ⟨t', ?_, if_pos hnum⟩
  rw [allBuffersProcessed, if_neg hpos, if_neg hcur, h.count, hrec, ← hcur']
  rfl

/-- **Every trace buffer is freed once.**  Pin's buffers are not null and distinct.  After any
number of full buffers `AllBuffersProcessed` frees each buffer allocated and the current one once
and no other, never waits and breaks no assertion; a second call frees nothing. -/
theorem buffers_freed_once (this buf : UInt64) (f : ℕ → UInt64) (n : ℕ)
    (hnull : (0 : UInt64) ∉ buf :: (List.range appBuffers).map f)
    (hdistinct : (buf :: (List.range appBuffers).map f).Nodup) :
    ∃ t freed t', threadStart this buf f = .ok t ∧
      allBuffersProcessed (fill n (buf, t)).2 = .ok (freed, t') ∧
      (∀ b, freed.count b =
        if b ∈ (List.range appBuffers).map f ∨ b = (fill n (buf, t)).1 then 1 else 0) ∧
      allBuffersProcessed t' = .ok ([], t') := by
  rw [List.mem_cons, not_or] at hnull
  obtain ⟨t, hstart, howns, rfl⟩ := threadStart_owns f (Ne.symm hnull.1)
  obtain ⟨t', hall, hagain⟩ := allBuffersProcessed_owns howns (by simp [appBuffers]) hnull.2
    (Ne.symm hnull.1)
  refine ⟨t, (List.range appBuffers).map f ++ [t.currentBuf], t', hstart, ?_, fun b => ?_, hagain⟩
  · rw [fill_currentBuf]
    exact hall
  · have hnodup : ((List.range appBuffers).map f ++ [t.currentBuf]).Nodup :=
      (List.perm_append_singleton _ _).nodup_iff.mpr hdistinct
    rw [fill_currentBuf, hnodup.count]
    simp only [List.mem_append, List.mem_singleton]

/-- A thread that fills five buffers. -/
theorem buffers_freed_once_five :
    ∃ t freed t', threadStart 64 4096 (fun i => .ofNat (8192 + 4096 * i)) = .ok t ∧
      allBuffersProcessed (fill 5 (4096, t)).2 = .ok (freed, t') ∧
      (∀ b, freed.count b =
        if b ∈ (List.range appBuffers).map (fun i => UInt64.ofNat (8192 + 4096 * i)) ∨
          b = (fill 5 (4096, t)).1 then 1 else 0) ∧
      allBuffersProcessed t' = .ok ([], t') :=
  buffers_freed_once 64 4096 (fun i => .ofNat (8192 + 4096 * i)) 5 (by decide) (by decide)

end ThreadBuffers

end BulletTime.Pintool
