import BlazeKV.Lib.Linked
import BlazeKV.Lib.Mailbox

/-! `mpsc.hpp`: the queue of a shard's mailbox, in atomic steps of its threads. Addresses
are numbers; the allocator may give out any address that is not in use, also one that
was freed. A read or write of a node that is not allocated ends the run. -/

namespace BlazeKV.MpscQueue

/-- Where a thread's `push` stands. `loaded` and `linked` hold its local `head`, and the
node's `next` is `head` from `linked` on. -/
inductive Push
  | idle
  | made (node : ℕ)
  | loaded (node : ℕ) (head : Option ℕ)
  | linked (node : ℕ) (head : Option ℕ)
  deriving DecidableEq

/-- Where `drain` stands: in the loop that reverses, at the head of the loop that delivers,
or in the callback for the value of node `prev`. -/
inductive Drain
  | idle
  | reversing (prev list : Option ℕ)
  | delivering (prev : Option ℕ) (count : ℕ)
  | calling (prev : ℕ) (next : Option ℕ) (count : ℕ)

structure State (ι μ : Type) where
  nodes : Lib.Memory ℕ μ
  head : Option ℕ
  push : ι → Push
  drain : Drain

namespace State

variable {ι μ : Type} [DecidableEq ι]

def init : State ι μ := ⟨fun _ => none, none, fun _ => .idle, .idle⟩

def setPush (s : State ι μ) (i : ι) (p : Push) : State ι μ := { s with push := Function.update s.push i p }

def setNode (s : State ι μ) (a : ℕ) (n : Option (Lib.Node ℕ μ)) : State ι μ :=
  { s with nodes := Function.update s.nodes a n }

/-- The consumer's own code runs: outside `drain`, or in a callback. -/
def outside (s : State ι μ) : Bool :=
  match s.drain with
  | .idle => true
  | .calling .. => true
  | _ => false

/-- One step of `drain`. -/
def consume (s : State ι μ) : Option (State ι μ × List (Lib.Mail ι μ)) :=
  match s.drain with
  | .idle =>
    if s.head = none then some (s, [.taken, .emptied 0])
    else some ({ s with head := none, drain := .reversing none s.head }, [.taken])
  | .reversing prev none => some ({ s with drain := .delivering prev 0 }, [])
  | .reversing prev (some list) => do
    let n ← s.nodes list
    return ({ s.setNode list (some ⟨prev, n.value⟩) with drain := .reversing (some list) n.next }, [])
  | .delivering none count => some ({ s with drain := .idle }, [.emptied count])
  | .delivering (some prev) count => do
    let n ← s.nodes prev
    return ({ s with drain := .calling prev n.next count }, [.received n.value])
  | .calling prev next count =>
    some ({ s.setNode prev none with drain := .delivering next (count + 1) }, [])

end State

/-- The next step of a thread: it calls `push`, for which `new` gives an address, or goes on
with its push; the compare-exchange may fail spuriously. Or the consumer goes on. -/
inductive Action (ι μ : Type)
  | call (i : ι) (value : μ) (node : ℕ)
  | load (i : ι)
  | link (i : ι)
  | exchange (i : ι) (spurious : Bool)
  | drain

variable {ι μ : Type}

variable [DecidableEq ι] (self : ι)

/-- One atomic step; `self` is the thread that owns the queue, which pushes like the others,
though not from within the code of `drain`. -/
def step (s : State ι μ) : Action ι μ → Option (State ι μ × List (Lib.Mail ι μ))
  | .call i value node =>
    if s.push i = .idle ∧ (s.nodes node).isNone ∧ (i = self → s.outside) then
      some ((s.setNode node (some ⟨none, value⟩)).setPush i (.made node), [.begun i value])
    else none
  | .load i =>
    match s.push i with
    | .made node => some (s.setPush i (.loaded node s.head), [])
    | _ => none
  | .link i =>
    match s.push i with
    | .loaded node head => do
      let n ← s.nodes node
      return ((s.setNode node (some ⟨head, n.value⟩)).setPush i (.linked node head), [])
    | _ => none
  | .exchange i spurious =>
    match s.push i with
    | .linked node head =>
      if s.head = head ∧ !spurious then do
        let n ← s.nodes node
        return ({ s with head := some node }.setPush i .idle, [.sent i n.value])
      else some (s.setPush i (.loaded node s.head), [])
    | _ => none
  | .drain => if s.push self = .idle then s.consume else none

end BlazeKV.MpscQueue
