import BlazeKV.Spec.Reactor
import BlazeKV.Spec.Wire

/-! The descriptors of a shard and what its reactor watches them for. A token carries the id of
a connection and not its address; the kernel chooses the descriptors, and gives out one again
after it was closed. -/

namespace BlazeKV

def kTagListen : ℕ := 1
def kTagWake : ℕ := 2
def kTagConn : ℕ := 3
def kTagMask : ℕ := 3

/-- `encode_conn_token`: a pointer of 64 bits. -/
def encodeConnToken (id : ℕ) : ℕ := (id <<< 2) % 2 ^ 64 ||| kTagConn

/-- What the loop of `run` makes of a token. -/
inductive Tagged
  | listen
  | wake
  | conn (id : ℕ)
  | other
  deriving DecidableEq

def decodeToken (tok : ℕ) : Tagged :=
  if tok &&& kTagMask = kTagListen then .listen
  else if tok &&& kTagMask = kTagWake then .wake
  else if tok &&& kTagMask = kTagConn then .conn (tok >>> 2)
  else .other

/-- The flags of `update_interest`. -/
def Connection.interest (c : Connection) : ℕ :=
  let flags := kRead
  if c.outSent < c.out.length then flags ||| kWrite else flags

structure Sockets where
  reactor : PollReactor ℕ
  /-- The descriptor of each connection id. -/
  fds : ℕ → ℤ

namespace Sockets

/-- The start of `run`, with the descriptors of the listening socket and of the waker. -/
def start (listen wake : ℤ) : Sockets :=
  ⟨((PollReactor.empty.add listen kRead kTagListen).1.add wake kRead kTagWake).1, fun _ => listen⟩

variable (s : Sockets) (id : ℕ)

def accept (fd : ℤ) : Sockets :=
  ⟨(s.reactor.add fd kRead (encodeConnToken id)).1, Function.update s.fds id fd⟩

def updateInterest (c : Connection) : Sockets :=
  { s with reactor := (s.reactor.mod (s.fds id) c.interest (encodeConnToken id)).1 }

def close : Sockets := { s with reactor := (s.reactor.del (s.fds id)).1 }

/-- `handle_writable` and the decision to close. -/
def finish (c : Connection) (w : Written) : Sockets :=
  let c := c.handleWritable w
  let s := s.updateInterest id c
  if c.owesNothing then s.close id else s

/-- What a move of the loop does with its descriptors. -/
def step {ι : Type} (s : Sockets) (l : Loop ι) (fd : ℤ) : Event → Sockets
  | .accept => if l.state.phase = .polling then s.accept l.state.nextConnId fd else s
  | .hangup cid => if l.state.phase = .polling ∧ (l.state.conns cid).isSome then s.close cid else s
  | e =>
    match Loop.writes l e with
    | some (cid, c, w) => s.finish cid c w
    | none => s

end Sockets

/-- A server with the descriptors of its shards. -/
structure Reacting (n : ℕ) where
  server : Server n
  sockets : Fin n → Sockets

/-- A shard calls `wait` of its reactor, or makes a move; what `accept` returns comes with it. -/
inductive Happens (n : ℕ)
  | polls (i : Fin n) (polled : Polled) (max : ℤ)
  | moves (e : Fin n × Event) (fd : ℤ)

namespace Reacting

variable {n : ℕ} (shardFor : Bytes → Fin n) (listen wake : Fin n → ℤ)

def boot (db : Fin n → Keyspace) (aof : Fin n → Option Aof) : Reacting n :=
  ⟨Server.boot db aof, fun i => .start (listen i) (wake i)⟩

def step (w : Reacting n) : Happens n → Reacting n
  | .polls i polled max => { w with
      sockets := Function.update w.sockets i
        { w.sockets i with reactor := ((w.sockets i).reactor.wait polled max).1 } }
  | .moves e fd =>
    ⟨Server.step shardFor w.server e, Function.update w.sockets e.1
    ((w.sockets e.1).step (w.server e.1) fd e.2)⟩

def run (w : Reacting n) (hs : List (Happens n)) : Reacting n := hs.foldl (fun w h => step shardFor w h) w

end Reacting

end BlazeKV
