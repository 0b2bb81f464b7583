import BlazeKV.Spec.Server

/-! What the sockets of a server accept. The bytes of each connection are recorded beside the
state of the server, in the order of the calls of `write`, and nothing reads them. -/

namespace BlazeKV

/-- What the writes of one `handle_writable` send. -/
def Connection.taken (c : Connection) (w : Written) : Bytes := (c.out.drop c.outSent).take w.accepted

/-- The connection that `complete_fragment` hands to `handle_writable`. -/
def Connection.completed (c : Connection) (part : Part) (reply : Bytes) : Option Connection :=
  (c.pipeline.find part.seq).map fun pr =>
    { c with pipeline := c.pipeline.set part.seq (pr.complete part reply) }.flushReady

/-- The connection that a move calls `handle_writable` for, and what the socket makes of it. -/
def Loop.writes {ι : Type} (l : Loop ι) : Event → Option (ℕ × Connection × Written)
  | .settle w =>
    match l.state.phase with
    | .writing cid => (l.state.conns cid).map fun c => (cid, c, w)
    | _ => none
  | .writable cid w =>
    match l.state.phase with
    | .polling => (l.state.conns cid).map fun c => (cid, c, w)
    | _ => none
  | .next _ w =>
    match l.state.phase, l.batch with
    | .draining, .complete part reply :: _ =>
      ((l.state.conns part.cid).bind fun c => c.completed part reply).map fun c => (part.cid, c, w)
    | _, _ => none
  | _ => none

/-- What of it is sent on one connection. -/
def sentTo (cid : ℕ) : Option (ℕ × Connection × Written) → Bytes
  | some (k, c, w) => if k = cid then c.taken w else []
  | none => []

/-- A server, and what has been sent on each of its connections. -/
structure Wired (n : ℕ) where
  server : Server n
  sent : Fin n → ℕ → Bytes

namespace Wired

variable {n : ℕ} (shardFor : Bytes → Fin n)

def boot (db : Fin n → Keyspace) (aof : Fin n → Option Aof) : Wired n :=
  ⟨Server.boot db aof, fun _ _ => []⟩

def step (w : Wired n) (e : Fin n × Event) : Wired n where
  server := Server.step shardFor w.server e
  sent i cid := w.sent i cid ++ if e.1 = i then sentTo cid (Loop.writes (w.server i) e.2) else []

def run (w : Wired n) (es : List (Fin n × Event)) : Wired n := es.foldl (fun w e => step shardFor w e) w

@[simp] theorem run_cons (w : Wired n) (e : Fin n × Event) (es : List (Fin n × Event)) :
    run shardFor w (e :: es) = run shardFor (step shardFor w e) es := rfl

theorem server_run (w : Wired n) (es : List (Fin n × Event)) :
    (run shardFor w es).server = Server.run shardFor w.server es := by
  induction es generalizing w with
  | nil => rfl
  | cons e es ih => exact ih (step shardFor w e)

end Wired

end BlazeKV
