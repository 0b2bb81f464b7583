import BlazeKV.Spec.MpscQueue

/-! `Waker` of `reactor.hpp`, `Shard::post` and the part of `Shard::run` that has to do with
them, in atomic steps of the threads: a poster pushes its closure and then writes to the waker,
the loop waits, reads what the waker holds if its descriptor was reported, and then drains the
mailbox. The timeout of `wait` is one of the ways in which it returns. -/

namespace BlazeKV

/-- An eventfd, or the pipe that stands in for it elsewhere; POSIX promises that 512 bytes fit. -/
inductive WakerKind
  | eventfd
  | pipe (capacity : ℕ) (atLeast : 512 ≤ capacity)

/-- The counter of the eventfd, or the number of bytes in the pipe. -/
structure Waker where
  kind : WakerKind
  pending : ℕ

namespace Waker

def kCounterMax : ℕ := 2 ^ 64 - 2

/-- The `write` of 8 bytes; one that does not fit fails with `EAGAIN`. -/
def notify (w : Waker) : Waker :=
  match w.kind with
  | .eventfd => if w.pending + 1 ≤ kCounterMax then { w with pending := w.pending + 1 } else w
  | .pipe capacity _ => if w.pending + 8 ≤ capacity then { w with pending := w.pending + 8 } else w

/-- One `read` of up to 128 bytes, and how many it returns; the loop of `drain` goes on while
these are more than none. -/
def read (w : Waker) : Waker × ℕ :=
  match w.kind with
  | .eventfd => ({ w with pending := 0 }, if w.pending = 0 then 0 else 8)
  | .pipe _ _ => ({ w with pending := w.pending - min 128 w.pending }, min 128 w.pending)

end Waker

namespace Wakeup

open Lib (Mail)

/-- Where the loop of `run` stands: in `wait`, at the events that it has reported, with that of
the waker among them or not, in `Waker::drain`, or in the drain of the mailbox. -/
inductive Spot
  | waiting
  | handling (woken : Bool)
  | reading
  | draining
  deriving DecidableEq

/-- A shard's mailbox with its waker. A thread `owes` its notification between the push and the
write to the waker. -/
structure State (ι μ : Type) where
  queue : MpscQueue.State ι μ
  waker : Waker
  owes : ι → Bool
  spot : Spot

inductive Action (ι μ : Type)
  /-- A step of `push`. -/
  | push (a : MpscQueue.Action ι μ)
  | notify (i : ι)
  /-- `wait` returns, and whether the waker's descriptor is among the events. -/
  | wait (woken : Bool)
  /-- The loop comes to the waker's event, makes one `read`, or has handled all events. -/
  | wake
  | read
  | handled
  /-- A step of the drain of the mailbox. -/
  | drain

variable {ι μ : Type} [DecidableEq ι] (self : ι)

def init (kind : WakerKind) : State ι μ := ⟨.init, ⟨kind, 0⟩, fun _ => false, .waiting⟩

/-- The loop's own thread is in the code of an event or of a closure. -/
def State.runsCode (s : State ι μ) : Bool :=
  match s.spot with
  | .handling _ => true
  | .draining => match s.queue.drain with
    | .calling .. => true
    | _ => false
  | _ => false

/-- The call of `drain` on the queue has returned, or has not been made. -/
def atRest : MpscQueue.Drain → Bool
  | .idle => true
  | _ => false

/-- The loop's own thread is in no `post`. -/
def State.free (s : State ι μ) : Bool := s.queue.push self = .idle && !s.owes self

/-- The thread whose message an event puts into the queue. -/
def sender : List (Mail ι μ) → Option ι
  | [.sent i _] => some i
  | _ => none

def State.owed (s : State ι μ) (es : List (Mail ι μ)) : ι → Bool :=
  match sender es with
  | some i => Function.update s.owes i true
  | none => s.owes

/-- Whether a thread may make this step of a push: it has finished its last `post`, and the
loop's own thread posts from the code that it runs. -/
def State.mayPush (s : State ι μ) : MpscQueue.Action ι μ → Bool
  | .call i _ _ => !s.owes i && (decide (i ≠ self) || s.runsCode)
  | .drain => false
  | _ => true

def step (s : State ι μ) : Action ι μ → Option (State ι μ × List (Mail ι μ))
  | .push a =>
    if s.mayPush self a then
      (MpscQueue.step self s.queue a).map fun r => ({ s with queue := r.1, owes := s.owed r.2 }, r.2)
    else none
  | .notify i =>
    if s.owes i then
      some ({ s with waker := s.waker.notify, owes := Function.update s.owes i false }, [])
    else none
  | .wait woken =>
    if s.spot = .waiting ∧ (woken → 0 < s.waker.pending) then
      some ({ s with spot := .handling woken }, [])
    else none
  | .wake =>
    if s.spot = .handling true ∧ s.free self then some ({ s with spot := .reading }, []) else none
  | .read =>
    if s.spot = .reading then
      some ({ s with waker := s.waker.read.1
                     spot := if 0 < s.waker.read.2 then .reading else .handling false }, [])
    else none
  | .handled =>
    if s.spot = .handling false ∧ s.free self then some ({ s with spot := .draining }, []) else none
  | .drain =>
    if s.spot = .draining ∧ s.free self then
      (MpscQueue.step self s.queue .drain).map fun r =>
        ({ s with queue := r.1, spot := if atRest r.1.drain then .waiting else .draining }, r.2)
    else none

end Wakeup

end BlazeKV
