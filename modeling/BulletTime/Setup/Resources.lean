import BulletTime.Lib.Handles
import BulletTime.Setup.Receiver

/-!
# Setup — Resources

The descriptors, mappings and contexts of the receiver threads, from the first call of
`ReceiverThread` to its last one, over `Listen` and the counters of its `CPU_Monitor`.  All threads
have one table of descriptors and one address space, and a number that is given back is given out
again to any of them.

* `act`: the calls of a receiver, with the variable each has its number from.
* `program_disciplined`: no variable is used after it has been closed.
* `receivers_touch_own`: in every interleaving a receiver uses and closes its own alone.
* `left_open_iff`: what a receiver leaves open, for each way it ends.

`[about the source]`: nothing closes on the error branches of the set-up; `Listen` closes neither
the file nor the context on its own ones, and `ReceiverThread` goes on after them.
-/

namespace BulletTime.Setup.Resources
open Handles Transition

/-- A number is one of a table of descriptors, an address, or a context. -/
inductive Kind where
  | descriptor
  | mapping
  | context
  deriving DecidableEq

/-- The variables of `ReceiverThread`, `Listen` and `CPU_Monitor` that hold one. -/
inductive Var where
  | outFd
  | fd
  | sharedMem
  | outBuffer
  | rdySock
  | sizeSock
  | rdyFd
  | sizeFd
  | cctx
  | fdUserInstr
  | fdKernelInstr
  | fdUserCycles
  | fdKernelCycles
  deriving DecidableEq

def Var.kind : Var → Kind
  | .sharedMem | .outBuffer => .mapping
  | .cctx => .context
  | _ => .descriptor

abbrev Handle := Kind × ℕ

/-- How a receiver ends: on an error branch of its set-up, after one of `Listen`, or with the file
complete. -/
inductive Ending where
  | failed (branch : ErrorBranch)
  | listenFailed
  | served
  deriving DecidableEq

/-- Where a receiver stands. -/
inductive Pc where
  | parseName
  | openOutput
  | openShared
  | ftruncate
  | mmapShared
  | mmapOut
  | socketRdy
  | socketSize
  | bind
  | listen
  | acceptRdy
  | acceptSize
  | createCCtx
  /-- `n` counters are open. -/
  | counter (n : ℕ)
  /-- `n` counters have been opened, the next has failed, and `k` of them are closed. -/
  | unwind (n k : ℕ)
  | loop
  | reopen
  | postLoop
  | append
  | finish
  | freeCCtx
  | closeOut
  /-- `Listen` has returned, with the file complete or not, and `k` calls of the clean-up are
  made. -/
  | cleanUp (complete : Bool) (k : ℕ)
  | ended (ending : Ending)
  | terminated
  deriving DecidableEq

/-- What a call returns: a number or an error, or that it has succeeded or failed.  `leaves` and
`overwrites` are the ways out of the body of the loop. -/
inductive Answer where
  | number (n : Option ℕ)
  | ok
  | fails
  | throws
  | leaves
  | overwrites
  deriving DecidableEq

structure Receiver where
  pc : Pc := .parseName
  value : Var → Option Handle := fun _ => none

/-- The counters, in the order in which they are opened. -/
def counters : List Var := [.fdUserInstr, .fdKernelInstr, .fdUserCycles, .fdKernelCycles]

/-- The destructor of the counters, and the end of `ReceiverThread`. -/
def cleanUps (useCompression : Bool) : List Var :=
  counters ++ [.rdyFd, .sizeFd, .rdySock, .sizeSock, .fd, .sharedMem] ++
    if useCompression then [.outBuffer] else []

section Act
variable (useCompression : Bool)

/-- A call that opens: its variable, and where it goes on. -/
def opening (v : Var) (n : Option ℕ) (next : Pc) (uses : List Var) : Call Var Handle × Pc :=
  ({ uses := uses, effect := .gets v (n.map fun n => (v.kind, n)) }, next)

/-- A call that closes. -/
def closing (v : Var) (next : Pc) : Call Var Handle × Pc := ({ effect := .gives v }, next)

/-- Any other calls. -/
def other (uses : List Var) (next : Pc) : Call Var Handle × Pc := ({ uses := uses }, next)

/-- Calls that stand under `if (use_compression)`. -/
def compressing (p : Call Var Handle × Pc) : Option (Call Var Handle × Pc) :=
  if useCompression then some p else none

/-- What the body of the loop uses. -/
def loopUses : List Var :=
  [.rdyFd, .sizeFd] ++ counters ++ [.sharedMem, .outFd] ++
    if useCompression then [.outBuffer, .cctx] else []

/-- The next calls of a receiver, with what they return. -/
def calls (r : Receiver) : Pc → Answer → Option (Call Var Handle × Pc)
  | .parseName, .ok => some (other [] .openOutput)
  | .parseName, .fails => some (other [] (.ended (.failed .parseName)))
  | .parseName, .throws => some (other [] .terminated)
  | .openOutput, .number n => some <| opening .outFd n
      (if n.isSome then .openShared else .ended (.failed .openOutput)) []
  | .openShared, .number n => some <| opening .fd n
      (if n.isSome then .ftruncate else .ended (.failed .openShared)) []
  | .ftruncate, .ok => some (other [.fd] .mmapShared)
  | .ftruncate, .fails => some (other [.fd] (.ended (.failed .ftruncate)))
  | .mmapShared, .number n => some <| opening .sharedMem n
      (if n.isSome then if useCompression then .mmapOut else .socketRdy
        else .ended (.failed .mmapShared)) [.fd]
  | .mmapOut, .number n => compressing useCompression <| opening .outBuffer n
      (if n.isSome then .socketRdy else .ended (.failed .mmapOut)) []
  -- Both sockets are created before either is looked at, and both connections accepted.
  | .socketRdy, .number n => some (opening .rdySock n .socketSize [])
  | .socketSize, .number n => some <| opening .sizeSock n
      (if (r.value .rdySock).isSome && n.isSome then .bind else .ended (.failed .socket)) []
  | .bind, .ok => some (other [.rdySock, .sizeSock] .listen)
  | .bind, .fails => some (other [.rdySock, .sizeSock] (.ended (.failed .bind)))
  | .listen, .ok => some (other [.rdySock, .sizeSock] .acceptRdy)
  | .listen, .fails => some (other [.rdySock, .sizeSock] (.ended (.failed .listen)))
  | .acceptRdy, .number n => some (opening .rdyFd n .acceptSize [.rdySock])
  | .acceptSize, .number n => some <| opening .sizeFd n
      (if (r.value .rdyFd).isSome && n.isSome then
        if useCompression then .createCCtx else .counter 0
        else .ended (.failed .accept)) [.sizeSock]
  | .createCCtx, .number (some n) =>
      compressing useCompression (opening .cctx (some n) (.counter 0) [])
  | .counter k, .number n => counters[k]?.map fun v =>
      opening v n (if n.isSome then .counter (k + 1) else .unwind k 0) []
  | .counter k, .ok => if k = counters.length then some (other counters .loop) else none
  | .unwind n k, .ok => (counters.take n)[k]?.map fun v => closing v (.unwind n (k + 1))
  | .loop, .ok => some (other (loopUses useCompression) .loop)
  | .loop, .fails => some (other (loopUses useCompression) (.cleanUp false 0))
  | .loop, .leaves => some (other (loopUses useCompression) .postLoop)
  | .loop, .overwrites => some (closing .outFd .reopen)
  | .reopen, .number n => some (opening .outFd n .loop [])
  | .postLoop, .ok => some <| closing .outFd
      (if useCompression then .append else .cleanUp true 0)
  | .append, .number n => compressing useCompression <| opening .outFd n
      (if n.isSome then .finish else .cleanUp false 0) []
  | .finish, .ok => compressing useCompression <|
      other [.outFd, .outBuffer, .cctx, .sharedMem] .freeCCtx
  | .finish, .fails => compressing useCompression <|
      other [.outFd, .outBuffer, .cctx, .sharedMem] (.cleanUp false 0)
  | .freeCCtx, .ok => compressing useCompression (closing .cctx .closeOut)
  | .closeOut, .ok => compressing useCompression (closing .outFd (.cleanUp true 0))
  | .cleanUp complete k, .ok => some <|
      match (cleanUps useCompression)[k]? with
      | some v => closing v (.cleanUp complete (k + 1))
      | none => other [] (.ended (if complete then .served else .listenFailed))
  | _, _ => none

/-- What a call's result is assigned to. -/
def assign (value : Var → Option Handle) : Effect Var Handle → Var → Option Handle
  | .gets v result => Function.update value v result
  | .gives _ | .nothing => value

/-- The next calls, and the receiver after them. -/
def act (r : Receiver) (a : Answer) : Option (Call Var Handle × Receiver) :=
  (calls useCompression r r.pc a).map fun p =>
    (p.1, { pc := p.2, value := assign r.value p.1.effect })

end Act

/-! ### What is in use -/

section InUse
variable (useCompression : Bool)

/-- After the mappings. -/
def mapped : Finset Var :=
  {.outFd, .fd, .sharedMem} ∪ if useCompression then {.outBuffer} else ∅

/-- After the sockets. -/
def socketed : Finset Var := mapped useCompression ∪ {.rdySock, .sizeSock}

/-- After the connections and the context, as `CPU_Monitor` finds it. -/
def connected : Finset Var :=
  socketed useCompression ∪ {.rdyFd, .sizeFd} ∪ if useCompression then {.cctx} else ∅

/-- In the loop. -/
def listening : Finset Var := connected useCompression ∪ counters.toFinset

/-- **What a receiver leaves open.** -/
def left : Ending → Finset Var
  | .failed .parseName | .failed .openOutput => ∅
  | .failed .openShared => {.outFd}
  | .failed .ftruncate | .failed .mmapShared => {.outFd, .fd}
  | .failed .mmapOut => {.outFd, .fd, .sharedMem}
  | .failed .socket | .failed .bind | .failed .listen => socketed useCompression
  | .failed .accept => socketed useCompression ∪ {.rdyFd, .sizeFd}
  | .listenFailed => {.outFd} ∪ if useCompression then {.cctx} else ∅
  | .served => ∅

def inUse : Pc → Finset Var
  | .parseName | .openOutput | .terminated => ∅
  | .openShared => {.outFd}
  | .ftruncate | .mmapShared => {.outFd, .fd}
  | .mmapOut => {.outFd, .fd, .sharedMem}
  | .socketRdy => mapped useCompression
  | .socketSize => mapped useCompression ∪ {.rdySock}
  | .bind | .listen | .acceptRdy => socketed useCompression
  | .acceptSize => socketed useCompression ∪ {.rdyFd}
  | .createCCtx => socketed useCompression ∪ {.rdyFd, .sizeFd}
  | .counter n => connected useCompression ∪ (counters.take n).toFinset
  | .unwind n k => connected useCompression ∪ ((counters.take n).drop k).toFinset
  | .loop | .postLoop | .finish | .freeCCtx => listening useCompression
  | .reopen | .append => (listening useCompression).erase .outFd
  | .closeOut => (listening useCompression).erase .cctx
  | .cleanUp complete k => left useCompression (if complete then .served else .listenFailed) ∪
      ((cleanUps useCompression).drop k).toFinset
  | .ended e => left useCompression e

end InUse

/-- A receiver as a program. -/
def program (useCompression : Bool) : Program Receiver Answer Var Handle where
  act := act useCompression
  value := Receiver.value
  inUse r := inUse useCompression r.pc

section Discipline
variable {useCompression : Bool} {r : Receiver} {pc next : Pc} {v : Var} {uses : List Var}

/-- A call that opens, or fails, takes its variable into use. -/
abbrev Opens (useCompression : Bool) (pc next : Pc) (v : Var) (uses : List Var)
    (opened : Bool) : Prop :=
  (∀ w ∈ uses, w ∈ inUse useCompression pc) ∧ v ∉ inUse useCompression pc ∧
    (inUse useCompression next).erase v = inUse useCompression pc ∧
      (opened = true → v ∈ inUse useCompression next)

/-- A call that closes takes it out of use. -/
abbrev Closes (useCompression : Bool) (pc next : Pc) (v : Var) : Prop :=
  v ∈ inUse useCompression pc ∧ inUse useCompression next = (inUse useCompression pc).erase v

/-- Any other calls. -/
abbrev Keeps (useCompression : Bool) (pc next : Pc) (uses : List Var) : Prop :=
  (∀ w ∈ uses, w ∈ inUse useCompression pc) ∧
    inUse useCompression next = inUse useCompression pc

/-- What the calls of a receiver do to the variables in use. -/
def Moves (useCompression : Bool) (pc next : Pc) (c : Call Var Handle) : Prop :=
  match c.effect with
  | .gets v result => Opens useCompression pc next v c.uses result.isSome
  | .gives v => Closes useCompression pc next v ∧ c.uses = []
  | .nothing => Keeps useCompression pc next c.uses

theorem opening_moves {n : Option ℕ} {p : Call Var Handle × Pc} (h : opening v n next uses = p)
    (ho : Opens useCompression pc next v uses n.isSome) : Moves useCompression pc p.2 p.1 := by
  subst h
  cases n <;> exact ho

theorem closing_moves {p : Call Var Handle × Pc} (h : closing v next = p)
    (hc : Closes useCompression pc next v) : Moves useCompression pc p.2 p.1 := by
  subst h
  exact ⟨hc, rfl⟩

theorem other_moves {p : Call Var Handle × Pc} (h : other uses next = p)
    (hk : Keeps useCompression pc next uses) : Moves useCompression pc p.2 p.1 := by
  subst h
  exact hk

theorem counter_moves {k : ℕ} {n : Option ℕ} (hv : counters[k]? = some v) :
    Opens useCompression (.counter k) (if n.isSome then .counter (k + 1) else .unwind k 0) v []
      n.isSome := by
  have hA : ∀ w ∈ counters, w ∉ connected useCompression := by
    revert useCompression
    decide
  obtain ⟨hnot, hmem, herase⟩ := take_inUse (by decide) hA hv
  refine ⟨nofun, hnot, ?_, fun hn => ?_⟩
  · split_ifs
    · exact herase
    · exact Finset.erase_eq_of_notMem hnot
  · rw [if_pos hn]
    exact hmem

theorem unwind_moves {n k : ℕ} (hv : (counters.take n)[k]? = some v) :
    Closes useCompression (.unwind n k) (.unwind n (k + 1)) v := by
  have hA : ∀ w ∈ counters, w ∉ connected useCompression := by
    revert useCompression
    decide
  have hl : counters.Nodup := by decide
  exact drop_inUse (hl.sublist (List.take_sublist n _))
    (fun w hw => hA w (List.mem_of_mem_take hw)) hv

theorem cleanUp_moves {complete : Bool} {k : ℕ} (hv : (cleanUps useCompression)[k]? = some v) :
    Closes useCompression (.cleanUp complete k) (.cleanUp complete (k + 1)) v := by
  have hl : ∀ c, (cleanUps c).Nodup := by decide
  have hA : ∀ (c b : Bool), ∀ w ∈ cleanUps c,
      w ∉ left c (if b then .served else .listenFailed) := by
    decide
  exact drop_inUse (hl _) (hA _ complete) hv

theorem calls_moves {a : Answer} {p : Call Var Handle × Pc}
    (h : calls useCompression r pc a = some p) : Moves useCompression pc p.2 p.1 := by
  cases pc with
  | parseName | ftruncate | bind | listen =>
      cases a <;> cases h
      all_goals exact other_moves rfl (by revert useCompression; decide)
  | openOutput | openShared | mmapShared | socketRdy | acceptRdy | reopen =>
      cases a <;> cases h
      rename_i n
      exact opening_moves rfl (by generalize n.isSome = b; revert b useCompression; decide)
  | mmapOut | append =>
      cases a <;> cases useCompression <;> cases h
      rename_i n
      exact opening_moves rfl (by generalize n.isSome = b; revert b; decide)
  | socketSize | acceptSize =>
      cases a <;> cases h
      rename_i n
      refine opening_moves rfl ?_
      generalize n.isSome = b
      generalize (r.value _).isSome = b'
      revert b b' useCompression
      decide
  | createCCtx =>
      cases a with
      | number n =>
          cases n with
          | none => cases h
          | some n =>
              cases useCompression <;> cases h
              refine opening_moves rfl ?_
              rw [Option.isSome_some]
              decide
      | _ => cases h
  | counter k =>
      cases a with
      | number n =>
          obtain ⟨v, hv, rfl⟩ := Option.map_eq_some_iff.mp h
          exact opening_moves rfl (counter_moves hv)
      | ok =>
          obtain ⟨rfl, h⟩ := Option.ite_none_right_eq_some.mp h
          cases h
          exact other_moves rfl (by revert useCompression; decide)
      | fails | throws | leaves | overwrites => cases h
  | unwind n k =>
      cases a with
      | ok =>
          obtain ⟨v, hv, rfl⟩ := Option.map_eq_some_iff.mp h
          exact closing_moves rfl (unwind_moves hv)
      | _ => cases h
  | loop =>
      cases a with
      | overwrites =>
          cases h
          exact closing_moves rfl (by revert useCompression; decide)
      | ok | fails | leaves =>
          cases h
          exact other_moves rfl (by revert useCompression; decide)
      | _ => cases h
  | postLoop =>
      cases a <;> cases h
      exact closing_moves rfl (by revert useCompression; decide)
  | freeCCtx | closeOut =>
      cases a <;> cases useCompression <;> cases h
      exact closing_moves rfl (by decide)
  | finish =>
      cases a <;> cases useCompression <;> cases h
      all_goals exact other_moves rfl (by decide)
  | cleanUp complete k =>
      cases a with
      | ok =>
          cases h
          cases hv : (cleanUps useCompression)[k]? with
          | some v => exact closing_moves rfl (cleanUp_moves hv)
          | none =>
              refine other_moves rfl ⟨nofun, ?_⟩
              rw [inUse, inUse, List.drop_eq_nil_of_le (List.getElem?_eq_none_iff.mp hv)]
              exact (Finset.union_empty _).symm
      | _ => cases h
  | ended | terminated => cases a <;> cases h

theorem Moves.mem_inUse {c : Call Var Handle} (h : Moves useCompression pc next c) (v : Var)
    (hv : v ∈ c.uses) : v ∈ inUse useCompression pc := by
  obtain ⟨uses, effect⟩ := c
  cases effect with
  | gets w result => exact h.1 v hv
  | gives w =>
      obtain ⟨-, rfl⟩ := h
      cases hv
  | nothing => exact h.1 v hv

theorem Moves.allowed {c : Call Var Handle} (h : Moves useCompression r.pc next c) :
    c.effect.Allowed (program useCompression) r
      { pc := next, value := assign r.value c.effect } := by
  obtain ⟨uses, effect⟩ := c
  cases effect with
  | gets w result => exact ⟨h.2.1, h.2.2.1, h.2.2.2, rfl⟩
  | gives w => exact ⟨h.1.1, h.1.2, rfl⟩
  | nothing => exact ⟨h.2, rfl⟩

/-- **A receiver is disciplined.** -/
theorem program_disciplined (useCompression : Bool) : Disciplined (program useCompression) where
  uses := by
    rintro r a c t h
    obtain ⟨p, hp, e⟩ := Option.map_eq_some_iff.mp h
    cases e
    exact (calls_moves hp).mem_inUse
  effect := by
    rintro r a c t h
    obtain ⟨p, hp, e⟩ := Option.map_eq_some_iff.mp h
    cases e
    exact (calls_moves hp).allowed

end Discipline

/-! ### All receivers -/

/-- Before the first of them has made a call. -/
def start : System ℕ Receiver Var Handle where
  owner _ := none
  program _ := {}

theorem atStart_start (useCompression : Bool) : AtStart (program useCompression) start :=
  ⟨fun _ => rfl, fun _ => rfl⟩

/-- **A receiver uses and closes its own alone**, whatever calls fail and in every interleaving. -/
theorem receivers_touch_own (useCompression : Bool) (as : List (ℕ × Answer)) :
    EveryStep (systemStep (program useCompression)) start as
      (TouchesOwn (program useCompression)) :=
  touches_own (program_disciplined useCompression) (atStart_start useCompression) as

/-- **What a receiver leaves open**: what the variables hold that its way to end does not close. -/
theorem left_open_iff (useCompression : Bool) {s : System ℕ Receiver Var Handle}
    (h : Reachable (systemStep (program useCompression)) start s) {i : ℕ} {e : Ending}
    (he : (s.program i).pc = .ended e) (x : Handle) (v : Var) :
    s.owner x = some (i, v) ↔ v ∈ left useCompression e ∧ (s.program i).value v = some x := by
  have howned := owned_reachable (program_disciplined useCompression)
    (atStart_start useCompression) h
  rw [howned x i v, held, ← Option.ite_none_right_eq_some]
  have huse : (program useCompression).inUse (s.program i) = left useCompression e :=
    congrArg (inUse useCompression) he
  rw [huse]
  rfl

/-- The shared file cannot be resized, and another receiver has its two descriptors by then. -/
def resizeFails : List (ℕ × Answer) :=
  [(0, .ok), (1, .ok), (0, .number (some 3)), (1, .number (some 4)), (0, .number (some 5)),
    (0, .fails)]

theorem left_open_resizeFails : ∃ s, exec (systemStep (program true)) start resizeFails = some s ∧
    (s.owner (.descriptor, 5) = some (0, .fd) ↔
      Var.fd ∈ left true (.failed .ftruncate) ∧
        (s.program 0).value .fd = some (.descriptor, 5)) := by
  have hrun : exec (systemStep (program true)) start resizeFails = some _ := rfl
  exact ⟨_, hrun, left_open_iff true ⟨resizeFails, hrun⟩ rfl _ _⟩

end BulletTime.Setup.Resources
