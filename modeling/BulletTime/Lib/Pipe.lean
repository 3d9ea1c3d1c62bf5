import Mathlib.Data.List.Basic

/-!
# Lib — Pipe

One direction of a connected stream socket whose messages are delivered whole, in order and
without loss.  The messages sent are `received ++ queue`, so no message can be lost, doubled or
reordered by construction; what is left to say is who may send, receive or see end of file.

* `send` fails once the reader has closed; `recv` takes the oldest message in flight.
* `atEof`: the writer is gone and the queue is empty, so a read returns 0.
-/

/-- A stream of messages `α`: what the reader has taken, what is in flight, and which ends are
gone. -/
structure Pipe (α : Type*) where
  received : List α := []
  queue : List α := []
  /-- The writing end is shut down or closed. -/
  wrClosed : Bool := false
  /-- The reading end is closed. -/
  rdClosed : Bool := false
  deriving DecidableEq

namespace Pipe

variable {α : Type*}

/-- All messages sent so far, in order. -/
def sent (p : Pipe α) : List α := p.received ++ p.queue

/-- Send a message; `none` when the reader has closed. -/
def send (p : Pipe α) (m : α) : Option (Pipe α) :=
  if p.rdClosed then none else some { p with queue := p.queue ++ [m] }

/-- Take the oldest message in flight; `none` when there is none. -/
def recv (p : Pipe α) : Option (α × Pipe α) :=
  match p.queue with
  | [] => none
  | m :: q => some (m, { p with received := p.received ++ [m], queue := q })

/-- A read returns 0: nothing is in flight and nothing will be sent. -/
def atEof (p : Pipe α) : Bool := p.queue.isEmpty && p.wrClosed

def closeWr (p : Pipe α) : Pipe α := { p with wrClosed := true }

def closeRd (p : Pipe α) : Pipe α := { p with rdClosed := true }

section Close
variable (p : Pipe α)

@[simp] theorem queue_closeWr : p.closeWr.queue = p.queue := rfl
@[simp] theorem received_closeWr : p.closeWr.received = p.received := rfl
@[simp] theorem wrClosed_closeWr : p.closeWr.wrClosed = true := rfl
@[simp] theorem rdClosed_closeWr : p.closeWr.rdClosed = p.rdClosed := rfl
@[simp] theorem queue_closeRd : p.closeRd.queue = p.queue := rfl
@[simp] theorem received_closeRd : p.closeRd.received = p.received := rfl
@[simp] theorem wrClosed_closeRd : p.closeRd.wrClosed = p.wrClosed := rfl
@[simp] theorem rdClosed_closeRd : p.closeRd.rdClosed = true := rfl

end Close

theorem send_eq_some {p q : Pipe α} {m : α} :
    p.send m = some q ↔ p.rdClosed = false ∧ q = { p with queue := p.queue ++ [m] } := by
  unfold send
  split <;> rename_i h <;> simp [h, eq_comm]

theorem recv_eq_some {p q : Pipe α} {m : α} :
    p.recv = some (m, q) ↔
      ∃ ms, p.queue = m :: ms ∧ q = { p with received := p.received ++ [m], queue := ms } := by
  unfold recv
  split
  · rename_i h
    simp [h]
  · rename_i h
    simp only [h, Option.some.injEq, Prod.mk.injEq, List.cons.injEq]
    constructor
    · rintro ⟨rfl, rfl⟩; exact ⟨_, ⟨rfl, rfl⟩, rfl⟩
    · rintro ⟨_, ⟨rfl, rfl⟩, rfl⟩; exact ⟨rfl, rfl⟩

theorem atEof_iff {p : Pipe α} : p.atEof = true ↔ p.queue = [] ∧ p.wrClosed = true := by
  simp [atEof]

/-- Taking a message changes none of the messages sent. -/
theorem sent_recv {p q : Pipe α} {m : α} (h : p.recv = some (m, q)) : q.sent = p.sent := by
  obtain ⟨ms, hq, rfl⟩ := recv_eq_some.mp h
  simp [sent, hq]

theorem sent_send {p q : Pipe α} {m : α} (h : p.send m = some q) : q.sent = p.sent ++ [m] := by
  obtain ⟨-, rfl⟩ := send_eq_some.mp h
  simp [sent]

/-- At the end of the stream every message has been received. -/
theorem received_eq_sent {p : Pipe α} (h : p.queue = []) : p.received = p.sent := by
  simp [sent, h]

end Pipe
