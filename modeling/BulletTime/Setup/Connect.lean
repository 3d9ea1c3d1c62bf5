import BulletTime.Lib.Interleave

/-!
# Setup — Connect

`ThreadStart`'s connect loop against the socket set-up of the `ReceiverThread` serving it, for any
number of threads.  The loop repeats `connect(rdy) == -1 || connect(size) == -1`; a socket that is
connected already fails the next `connect` with `EISCONN`.

* `Trapped`: the loop is before its first `connect` with the ready socket connected.  From there
  that `connect` fails for ever (`Trapped.exec`).
* `canFinish_iff`: from every other reachable state both sockets get connected and the loop exits.
* `connect_no_trap_iff`: no state of a run is a trap exactly when every `connect` to the size
  socket finds it listening.
-/

namespace BulletTime.Setup
open Transition

/-- The next call of the receiver's set-up. -/
inductive SetupPc where
  | bindRdy
  | bindSize
  | listenRdy
  | listenSize
  | acceptRdy
  | acceptSize
  | done
  deriving DecidableEq

/-- The ready path is bound and listening. -/
def SetupPc.rdyListens : SetupPc → Bool
  | .bindRdy | .bindSize | .listenRdy => false
  | .listenSize | .acceptRdy | .acceptSize | .done => true

/-- The size path is bound and listening. -/
def SetupPc.sizeListens : SetupPc → Bool
  | .bindRdy | .bindSize | .listenRdy | .listenSize => false
  | .acceptRdy | .acceptSize | .done => true

/-- The next call of the connect loop. -/
inductive LoopPc where
  | connectRdy
  | connectSize
  | exited
  deriving DecidableEq

/-- A traced thread and its receiver. -/
structure Pair where
  setup : SetupPc := .bindRdy
  loop : LoopPc := .connectRdy
  /-- `sock_rdy` is connected. -/
  rdy : Bool := false
  /-- `sock_size` is connected. -/
  size : Bool := false
  deriving DecidableEq

/-- Whose call is next. -/
inductive PairAction where
  | setup
  | loop
  deriving DecidableEq

/-- `connect` on a socket, connected already or not, to a path. -/
def connect (connected listens : Bool) : Bool := !connected && listens

namespace Pair

/-- The receiver's next call; an `accept` waits for a connection. -/
def setupStep (p : Pair) : Option Pair :=
  match p.setup with
  | .bindRdy => some { p with setup := .bindSize }
  | .bindSize => some { p with setup := .listenRdy }
  | .listenRdy => some { p with setup := .listenSize }
  | .listenSize => some { p with setup := .acceptRdy }
  | .acceptRdy => if p.rdy then some { p with setup := .acceptSize } else none
  | .acceptSize => if p.size then some { p with setup := .done } else none
  | .done => none

/-- The loop's next call: the disjunction is left, and the loop with it, when both succeed. -/
def loopStep (p : Pair) : Option Pair :=
  match p.loop with
  | .connectRdy =>
      if connect p.rdy p.setup.rdyListens then some { p with loop := .connectSize, rdy := true }
      else some p
  | .connectSize =>
      if connect p.size p.setup.sizeListens then some { p with loop := .exited, size := true }
      else some { p with loop := .connectRdy }
  | .exited => none

def step (p : Pair) : PairAction → Option Pair
  | .setup => p.setupStep
  | .loop => p.loopStep

/-- Both sockets are connected and the loop has exited. -/
def Finished (p : Pair) : Prop := p.rdy = true ∧ p.size = true ∧ p.loop = .exited

/-- Some continuation finishes. -/
def CanFinish (p : Pair) : Prop := ∃ q, Reachable step p q ∧ q.Finished

/-- The loop is about to connect a socket that is connected. -/
def Trapped (p : Pair) : Prop := p.loop = .connectRdy ∧ p.rdy = true

/-- What the loop's place says of the sockets, and they of the set-up. -/
structure Ok (p : Pair) : Prop where
  loop : match p.loop with
    | .connectRdy => p.size = false
    | .connectSize => p.rdy = true ∧ p.size = false
    | .exited => p.rdy = true ∧ p.size = true
  rdy : p.rdy = true → p.setup.rdyListens = true
  size : p.size = true → p.setup.sizeListens = true

variable {p q : Pair} {a : PairAction}

theorem ok_start : Ok {} where
  loop := rfl
  rdy h := by cases h
  size h := by cases h

/-- The receiver's calls listen to more and more, and touch neither the loop nor a socket. -/
theorem setupStep_spec (h : p.setupStep = some q) :
    q = { p with setup := q.setup } ∧ (p.setup.rdyListens = true → q.setup.rdyListens = true) ∧
      (p.setup.sizeListens = true → q.setup.sizeListens = true) := by
  obtain ⟨setup, loop, rdy, size⟩ := p
  cases setup with
  | bindRdy | bindSize | listenRdy | listenSize =>
      cases h
      exact ⟨rfl, by simp [SetupPc.rdyListens], by simp [SetupPc.sizeListens]⟩
  | acceptRdy =>
      cases rdy with
      | false => cases h
      | true => cases h; exact ⟨rfl, id, id⟩
  | acceptSize =>
      cases size with
      | false => cases h
      | true => cases h; exact ⟨rfl, id, id⟩
  | done => cases h

/-- **A call of the loop**: a connect that succeeds moves it on, one that fails moves it back to the
first. -/
theorem loopStep_spec (hp : Ok p) (h : p.loopStep = some q) :
    (p.loop = .connectRdy ∧ p.rdy = false ∧ p.setup.rdyListens = true ∧
        q = { p with loop := .connectSize, rdy := true }) ∨
      (p.loop = .connectRdy ∧ q = p) ∨
      (p.loop = .connectSize ∧ p.setup.sizeListens = true ∧
        q = { p with loop := .exited, size := true }) ∨
      (p.loop = .connectSize ∧ p.setup.sizeListens = false ∧
        q = { p with loop := .connectRdy }) := by
  have hloop := hp.loop
  unfold loopStep connect at h
  cases hpc : p.loop with
  | connectRdy =>
      rw [hpc] at h
      dsimp only at h
      split_ifs at h with hc
      · obtain rfl := Option.some.inj h
        simp only [Bool.and_eq_true, Bool.not_eq_true'] at hc
        exact .inl ⟨rfl, hc.1, hc.2, rfl⟩
      · obtain rfl := Option.some.inj h
        exact .inr (.inl ⟨rfl, rfl⟩)
  | connectSize =>
      rw [hpc] at h hloop
      simp only [Bool.and_eq_true, Bool.not_eq_true'] at h
      split_ifs at h with hc
      · obtain rfl := Option.some.inj h
        exact .inr (.inr (.inl ⟨rfl, hc.2, rfl⟩))
      · obtain rfl := Option.some.inj h
        rw [and_iff_right hloop.2, Bool.not_eq_true] at hc
        exact .inr (.inr (.inr ⟨rfl, hc, rfl⟩))
  | exited =>
      rw [hpc] at h
      cases h

theorem Ok.step (hp : Ok p) (h : p.step a = some q) : Ok q := by
  cases a with
  | setup =>
      obtain ⟨e, hrdy, hsize⟩ := setupStep_spec h
      rw [e]
      exact ⟨hp.loop, fun hr => hrdy (hp.rdy hr), fun hs => hsize (hp.size hs)⟩
  | loop =>
      have hloop := hp.loop
      rcases loopStep_spec hp h with ⟨hpc, -, hl, rfl⟩ | ⟨-, rfl⟩ | ⟨hpc, hl, rfl⟩ | ⟨hpc, -, rfl⟩
      · rw [hpc] at hloop
        exact ⟨⟨rfl, hloop⟩, fun _ => hl, hp.size⟩
      · exact hp
      · rw [hpc] at hloop
        exact ⟨⟨hloop.1, rfl⟩, hp.rdy, fun _ => hl⟩
      · rw [hpc] at hloop
        exact ⟨hloop.2, hp.rdy, hp.size⟩

/-! ### The trap -/

/-- **Into the trap** there is one way: a connect to the size socket before it listens. -/
theorem trapped_step_iff (hp : Ok p) (h : p.step a = some q) :
    Trapped q ↔
      Trapped p ∨ (a = .loop ∧ p.loop = .connectSize ∧ p.setup.sizeListens = false) := by
  cases a with
  | setup =>
      obtain ⟨e, -⟩ := setupStep_spec h
      rw [e]
      exact ⟨.inl, fun ht => ht.elim id fun ⟨hl, _⟩ => by cases hl⟩
  | loop =>
      have hloop := hp.loop
      rcases loopStep_spec hp h with
        ⟨hpc, hr, -, rfl⟩ | ⟨hpc, rfl⟩ | ⟨hpc, hl, rfl⟩ | ⟨hpc, hl, rfl⟩
      · simp [Trapped, hpc, hr]
      · simp [hpc]
      · simp [Trapped, hpc, hl]
      · rw [hpc] at hloop
        simp [Trapped, hpc, hl, hloop.1]

/-- **Out of it** there is none. -/
theorem Trapped.exec {as : List PairAction} (ht : Trapped p) (hp : Ok p)
    (h : exec step p as = some q) : Trapped q :=
  (Reachable.invariant (I := fun p => Ok p ∧ Trapped p) ⟨hp, ht⟩
    (fun _ _ _ hi hs => ⟨hi.1.step hs, (trapped_step_iff hi.1 hs).mpr (.inl hi.2)⟩) ⟨as, h⟩).2

/-- The receiver gets to listen to both sockets by itself. -/
theorem reachable_listening (p : Pair) :
    ∃ setup, setup.rdyListens = true ∧ setup.sizeListens = true ∧
      Reachable step p { p with setup := setup } := by
  obtain ⟨setup, loop, rdy, size⟩ := p
  cases setup with
  | bindRdy => exact ⟨.acceptRdy, rfl, rfl, [.setup, .setup, .setup, .setup], rfl⟩
  | bindSize => exact ⟨.acceptRdy, rfl, rfl, [.setup, .setup, .setup], rfl⟩
  | listenRdy => exact ⟨.acceptRdy, rfl, rfl, [.setup, .setup], rfl⟩
  | listenSize => exact ⟨.acceptRdy, rfl, rfl, [.setup], rfl⟩
  | acceptRdy => exact ⟨.acceptRdy, rfl, rfl, .refl _⟩
  | acceptSize => exact ⟨.acceptSize, rfl, rfl, .refl _⟩
  | done => exact ⟨.done, rfl, rfl, .refl _⟩

/-- With both sockets listened to, the loop exits, unless it is trapped. -/
theorem finishes_of_listening (hp : Ok p) (ht : ¬ Trapped p) (hr : p.setup.rdyListens = true)
    (hs : p.setup.sizeListens = true) : CanFinish p := by
  have hloop := hp.loop
  obtain ⟨setup, loop, rdy, size⟩ := p
  cases loop with
  | connectRdy =>
      obtain rfl : size = false := hloop
      have hrdy : rdy = false := by simpa [Trapped] using ht
      subst hrdy
      refine ⟨⟨setup, .exited, true, true⟩, ⟨[.loop, .loop], ?_⟩, rfl, rfl, rfl⟩
      simp only at hr hs
      simp [step, loopStep, connect, hr, hs]
  | connectSize =>
      obtain ⟨rfl, rfl⟩ : rdy = true ∧ size = false := hloop
      refine ⟨⟨setup, .exited, true, true⟩, ⟨[.loop], ?_⟩, rfl, rfl, rfl⟩
      simp only at hs
      simp [step, loopStep, connect, hs]
  | exited =>
      obtain ⟨rfl, rfl⟩ : rdy = true ∧ size = true := hloop
      exact ⟨_, .refl _, rfl, rfl, rfl⟩

/-- **Outside the trap, and only there, the thread can still be connected.** -/
theorem canFinish_iff (hp : Ok p) : CanFinish p ↔ ¬ Trapped p := by
  constructor
  · rintro ⟨q, ⟨as, h⟩, -, -, hq⟩ ht
    exact absurd ((ht.exec hp h).1.symm.trans hq) (by decide)
  · intro ht
    obtain ⟨setup, hr, hs, hreach⟩ := reachable_listening p
    have hok : Ok { p with setup := setup } := ⟨hp.loop, fun _ => hr, fun _ => hs⟩
    obtain ⟨q, hq, hfin⟩ := finishes_of_listening hok ht hr hs
    exact ⟨q, hreach.trans hq, hfin⟩

end Pair

/-! ### Any number of threads -/

section Threads
variable {ι : Type*} [DecidableEq ι]

/-- Every thread before its first call, and every receiver. -/
def start (ι : Type*) : ι → Pair := fun _ => {}

/-- One call of one thread or of its receiver. -/
def connectStep : (ι → Pair) → ι × PairAction → Option (ι → Pair) := interleave Pair.step

/-- Some continuation connects both sockets of thread `i` and takes it out of its loop. -/
def CanConnect (s : ι → Pair) (i : ι) : Prop :=
  ∃ t, Reachable connectStep s t ∧ (t i).Finished

/-- A call of `connect` on the size socket finds it listening. -/
def SizeHeard (s : ι → Pair) (a : ι × PairAction) : Prop :=
  a.2 = .loop → (s a.1).loop = .connectSize → (s a.1).setup.sizeListens = true

variable {s t : ι → Pair} {a : ι × PairAction} {as : List (ι × PairAction)}

theorem canConnect_iff {i : ι} : CanConnect s i ↔ (s i).CanFinish := by
  constructor
  · rintro ⟨t, ht, hfin⟩
    exact ⟨t i, reachable_proj ht i, hfin⟩
  · rintro ⟨q, hq, hfin⟩
    exact ⟨_, reachable_lift hq, by rw [Function.update_self]; exact hfin⟩

/-- All pairs in order, none trapped. -/
theorem ok_step (hs : ∀ i, (s i).Ok) (h : connectStep s a = some t) : ∀ i, (t i).Ok := by
  obtain ⟨p, hp, rfl⟩ := interleave_eq_some.mp h
  exact (Function.forall_update_iff s fun _ p => p.Ok).mpr ⟨(hs a.1).step hp, fun i _ => hs i⟩

/-- A call that meets the condition traps no thread. -/
theorem free_step (hs : ∀ i, (s i).Ok) (hfree : ∀ i, ¬ (s i).Trapped) (hc : SizeHeard s a)
    (h : connectStep s a = some t) : ∀ i, ¬ (t i).Trapped := by
  obtain ⟨p, hp, rfl⟩ := interleave_eq_some.mp h
  refine (Function.forall_update_iff s fun _ p => ¬ p.Trapped).mpr ⟨?_, fun i _ => hfree i⟩
  rw [Pair.trapped_step_iff (hs a.1) hp, or_iff_right (hfree a.1)]
  rintro ⟨ha, hl, hsize⟩
  exact absurd ((hc ha hl).symm.trans hsize) (by decide)

/-- A call that does not meet it traps its thread. -/
theorem sizeHeard_of_free (hs : ∀ i, (s i).Ok) (h : connectStep s a = some t)
    (hfree : ∀ i, ¬ (t i).Trapped) : SizeHeard s a := by
  obtain ⟨p, hp, rfl⟩ := interleave_eq_some.mp h
  intro ha hl
  by_contra hsize
  have hp' := hfree a.1
  rw [Function.update_self, Pair.trapped_step_iff (hs a.1) hp] at hp'
  exact hp' (.inr ⟨ha, hl, by simpa using hsize⟩)

theorem canConnect_iff_free (hs : ∀ i, (s i).Ok) :
    (∀ i, CanConnect s i) ↔ ∀ i, ¬ (s i).Trapped :=
  forall_congr' fun i => canConnect_iff.trans (Pair.canFinish_iff (hs i))

/-- **No thread is trapped in connecting**, at any point of a run, exactly when every connect to a
size socket finds it listening. -/
theorem connect_no_trap_iff (h : exec connectStep (start ι) as = some s) :
    (EveryState connectStep (start ι) as fun s => ∀ i, CanConnect s i) ↔
      EveryStep connectStep (start ι) as SizeHeard := by
  constructor
  · intro hP
    have hfree : EveryState connectStep (start ι) as fun s => ∀ i, ¬ (s i).Trapped := by
      intro bs cs s e hs
      have hok : ∀ i, (s i).Ok :=
        Reachable.invariant (fun _ => Pair.ok_start) (fun _ _ _ hi hs => ok_step hi hs) ⟨bs, hs⟩
      exact (canConnect_iff_free hok).mp (hP bs cs s e hs)
    exact hfree.everyStep (I := fun s => ∀ i, (s i).Ok) (fun _ => Pair.ok_start)
      (fun _ _ _ hi hs => ok_step hi hs) (fun _ _ _ hi hs ht => sizeHeard_of_free hi hs ht) h
  · intro hC
    exact hC.everyState (I := fun s => (∀ i, (s i).Ok) ∧ ∀ i, ¬ (s i).Trapped)
      ⟨fun _ => Pair.ok_start, fun _ ht => by cases ht.2⟩
      (fun _ _ _ hi hc hs => ⟨ok_step hi.1 hs, free_step hi.1 hi.2 hc hs⟩)
      fun _ hi => (canConnect_iff_free hi.1).mpr hi.2

/-- One thread of two connects both sockets, after a try that finds nobody listening; the other is
still on its way. -/
def firstConnects : List (Bool × PairAction) :=
  [(true, .setup), (true, .loop), (false, .setup), (true, .setup), (true, .setup), (true, .setup),
    (true, .loop), (false, .loop), (true, .setup), (true, .loop), (true, .setup)]

theorem connect_no_trap_iff_two :
    ∃ s, exec connectStep (start Bool) firstConnects = some s ∧ (s true).Finished ∧
      ((EveryState connectStep (start Bool) firstConnects fun s => ∀ i, CanConnect s i) ↔
        EveryStep connectStep (start Bool) firstConnects SizeHeard) :=
  ⟨_, rfl, ⟨rfl, rfl, rfl⟩, connect_no_trap_iff rfl⟩

/-- The receiver listens to the ready socket; the thread connects it, and then finds nobody
listening to the size socket: it never gets out of its loop. -/
theorem connect_trap :
    ∃ s, exec connectStep (start Unit)
        [((), .setup), ((), .setup), ((), .setup), ((), .loop), ((), .loop)] = some s ∧
      ¬ CanConnect s () := by
  refine ⟨_, rfl, fun h => ?_⟩
  obtain ⟨q, ⟨as, hq⟩, -, -, hexit⟩ := canConnect_iff.mp h
  have hok : Pair.Ok ⟨.listenSize, .connectRdy, true, false⟩ :=
    ⟨rfl, fun _ => rfl, fun hs => by cases hs⟩
  have ht : Pair.Trapped ⟨.listenSize, .connectRdy, true, false⟩ := ⟨rfl, rfl⟩
  exact absurd ((ht.exec hok hq).1.symm.trans hexit) (by decide)

end Threads

end BulletTime.Setup
