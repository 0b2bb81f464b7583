import BlazeKV.Lib.Actors
import BlazeKV.Spec.Hash
import BlazeKV.Spec.Shard

/-! The event loops of all shards. An event is one move of one shard; any list of
events is an interleaving, and a move that the shard cannot make leaves it as it is. -/

namespace BlazeKV

/-- The moves of `Shard::run`: what the reactor reports while it is polled, and the
rounds of the loops that handle it. -/
inductive Event
  | accept
  | readable (cid : ℕ) (data : Bytes) (eof : Bool)
  | process (env : Env)
  | settle (w : Written)
  | writable (cid : ℕ) (w : Written)
  | hangup (cid : ℕ)
  | drain
  | next (env : Env) (w : Written)
  /-- The end of an iteration, with a clock reading where `cron` has work to do. -/
  | iterate (due : Option ℕ) (synced : Bool)

abbrev Loop (ι : Type) := Lib.Actor Shard (Message ι)

/-- The shards of a server, by their numbers. -/
abbrev Server (n : ℕ) := Lib.Net (Fin n) Shard (Message (Fin n))

/-- `Server::shard_for`. -/
def shardOf (n : ℕ) [NeZero n] (key : Bytes) : Fin n := Fin.ofNat n (bytesHash key)

namespace Loop

variable {ι : Type} [DecidableEq ι] (shardFor : Bytes → ι) (shards : List ι) (self : ι)

def inPhase (l : Loop ι) (sh : Shard) (phase : Phase) : Loop ι :=
  { l with state := { sh with phase := phase } }

/-- A move of a connection that is being polled, while the connection is open. -/
def onConn (l : Loop ι) (cid : ℕ) (f : Connection → Loop ι) : Loop ι :=
  match l.state.phase, l.state.conns cid with
  | .polling, some c => f c
  | _, _ => l

def step (l : Loop ι) : Event → Loop ι × Posts ι
  | .accept =>
    (if l.state.phase = .polling then { l with state := l.state.accept } else l, [])
  | .readable cid data eof =>
    (onConn l cid fun c => inPhase l (l.state.setConn cid (c.receive data eof)) (.reading cid), [])
  | .process env =>
    match l.state.phase with
    | .reading cid =>
      match l.state.conns cid with
      | some c =>
        let (sh, posts) := l.state.processInput shardFor shards self env cid c
        ({ l with state := sh }, posts)
      | none => (l, [])
    | _ => (l, [])
  | .settle w =>
    match l.state.phase with
    | .writing cid => (inPhase l (l.state.finish cid w) .polling, [])
    | _ => (l, [])
  | .writable cid w =>
    (onConn l cid fun _ => { l with state := l.state.finish cid w }, [])
  | .hangup cid => (onConn l cid fun _ => { l with state := l.state.closeConn cid }, [])
  | .drain =>
    (if l.state.phase = .polling then inPhase l.take l.state .draining else l, [])
  | .next env w =>
    match l.state.phase, l.batch with
    | .draining, m :: rest =>
      let (sh, posts) := l.state.runMessage shards self env w m
      ({ l with state := sh, batch := rest }, posts)
    | _, _ => (l, [])
  | .iterate due synced =>
    match l.state.phase, l.batch with
    | .draining, [] =>
      (inPhase l (due.elim l.state fun now => l.state.cron now synced) .polling, [])
    | _, _ => (l, [])

end Loop

namespace Server

variable {n : ℕ} (shardFor : Bytes → Fin n)

/-- A server that has just started, over what its shards have loaded. -/
def boot (db : Fin n → Keyspace) (aof : Fin n → Option Aof) : Server n := fun i =>
  ⟨⟨db i, aof i, fun _ => none, 1, .polling, fun _ => .empty⟩, [], []⟩

def step (sv : Server n) (e : Fin n × Event) : Server n :=
  let r := Loop.step shardFor (List.finRange n) e.1 (sv e.1) e.2
  Lib.Net.deliver (Function.update sv e.1 r.1) r.2

def run (sv : Server n) (es : List (Fin n × Event)) : Server n := es.foldl (fun sv e => step shardFor sv e) sv

@[simp] theorem run_nil (sv : Server n) : run shardFor sv [] = sv := rfl

@[simp] theorem run_cons (sv : Server n) (e : Fin n × Event) (es : List (Fin n × Event)) :
    run shardFor sv (e :: es) = run shardFor (step shardFor sv e) es := rfl

end Server

end BlazeKV
