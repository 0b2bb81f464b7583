import BlazeKV.Lib.Machine
import BlazeKV.Spec.AofFile
import BlazeKV.Spec.Server

/-! What the moves of a server do to the data of its shards. The log is the file of
`persist/aof.cpp`; the history lists what was executed, and nothing reads it. -/

namespace BlazeKV

/-- What a move does to the keyspace and the log of its shard. -/
inductive Move
  | nothing
  | exec (env : Env) (argv : List Bytes)
  | flush
  | cron (now : ℕ) (synced : Bool)

def Move.apply (sh : Shard) : Move → Shard
  | .nothing => sh
  | .exec env argv => (sh.exec env argv).1
  | .flush => sh.flush
  | .cron now synced => sh.cron now synced

section Loops

variable {ι : Type} [DecidableEq ι] (shardFor : Bytes → ι) (shards : List ι) (here : ι)

/-- The command that a round of `process_input` executes here. -/
def Loop.inlined (env : Env) (c : Connection) : Move :=
  if c.closing then .nothing
  else match RequestParser.parse c.input with
    | .ok argv _ =>
      if argv = [] then .nothing
      else match plan shardFor here argv with
        | .inline => .exec env argv
        | _ => .nothing
    | _ => .nothing

def Loop.move (l : Loop ι) : Event → Move
  | .process env =>
    match l.state.phase with
    | .reading cid => (l.state.conns cid).elim .nothing (Loop.inlined shardFor here env)
    | _ => .nothing
  | .next env _ =>
    match l.state.phase, l.batch with
    | .draining, .execute _ part :: _ => .exec env part.args
    | .draining, .flush :: _ => .flush
    | _, _ => .nothing
  | .iterate (some now) synced =>
    match l.state.phase, l.batch with
    | .draining, [] => .cron now synced
    | _, _ => .nothing
  | _ => .nothing

end Loops

/-- A command that a shard has executed: the part with an index of a request of some
connection, and what came of it. -/
structure Execution (ι : Type) where
  shard : ι
  origin : ι
  cid : ℕ
  seq : ℕ
  index : ℕ
  argv : List Bytes
  record : Option Bytes
  reply : Bytes
  deriving DecidableEq

inductive Act (ι : Type)
  | exec (x : Execution ι)
  | flush (shard : ι)
  deriving DecidableEq

section Histories

variable {ι : Type} [DecidableEq ι] (shardFor : Bytes → ι) (here : ι)

/-- The entries of one command. A flush is over before `exec_core` appends the record. -/
def Shard.entries (sh : Shard) (origin : ι) (cid seq index : ℕ) (env : Env) (argv : List Bytes) : List (Act ι) :=
  let r := execCore env argv sh.db
  (if r.flush then [.flush here] else []) ++ [.exec ⟨here, origin, cid, seq, index, argv, r.record, r.reply⟩]

def Loop.entries (l : Loop ι) : Event → List (Act ι)
  | .process env =>
    match l.state.phase with
    | .reading cid =>
      match l.state.conns cid with
      | some c =>
        match Loop.inlined shardFor here env c with
        | .exec env argv => l.state.entries here here cid c.nextSeq 0 env argv
        | _ => []
      | none => []
    | _ => []
  | .next env _ =>
    match l.state.phase, l.batch with
    | .draining, .execute origin part :: _ => l.state.entries here origin part.cid part.seq part.index env part.args
    | .draining, .flush :: _ => [.flush here]
    | _, _ => []
  | _ => []

/-- What a shard has executed since it made its log anew. -/
def sinceFlush (j : ι) (es : List (Act ι)) : List (Execution ι) :=
  es.foldl (fun xs e => match e with
    | .exec x => if x.shard = j then xs ++ [x] else xs
    | .flush i => if i = j then [] else xs) []

end Histories

/-- What the system makes of the calls on a log in one move. -/
structure Calls where
  results : ℕ → List WriteResult
  synced : ℕ → Bool
  now : ℕ

/-- No `write` fails, and neither does an `fdatasync`. -/
def Calls.Succeed (io : Calls) : Prop := ∀ k, .failed ∉ io.results k ∧ io.synced k = true

/-- The calls on the log that a move makes. -/
def Move.log (io : Calls) (sh : Shard) (l : LogFile) : Move → LogFile
  | .nothing => l
  | .exec env argv =>
    let r := execCore env argv sh.db
    let l := if r.flush then l.resetFile (io.results 0) (io.synced 0) io.now else l
    match r.record with
    | none => l
    | some b => l.append b (io.results 1) (io.synced 1)
  | .flush => l.resetFile (io.results 0) (io.synced 0) io.now
  | .cron now _ =>
    let l := (sh.db.activeExpireCycle now 20).2.foldl (fun (s : ℕ × LogFile) k =>
      (s.1 + 1, s.2.append (encodeMultibulk [ascii "DEL", k]) (io.results s.1) (io.synced s.1))) (1, l)
    l.2.tick now (io.results 0) (io.synced 0)

/-- A server with the log files of its shards and its history. -/
structure Traced (n : ℕ) where
  server : Server n
  logs : Fin n → LogFile
  history : List (Act (Fin n))

namespace Traced

variable {n : ℕ} (shardFor : Bytes → Fin n)

def boot (db : Fin n → Keyspace) (policy : FsyncPolicy) (disk : Fin n → Bytes) (now : ℕ) : Traced n :=
  ⟨Server.boot db fun i => some (Aof.openFile policy (disk i)), fun i => LogFile.openFile policy (disk i) now, []⟩

def step (t : Traced n) (e : (Fin n × Event) × Calls) : Traced n :=
  let l := t.server e.1.1
  { server := Server.step shardFor t.server e.1
    logs := Function.update t.logs e.1.1
      (Move.log e.2 l.state (t.logs e.1.1) (Loop.move shardFor e.1.1 l e.1.2))
    history := t.history ++ Loop.entries shardFor e.1.1 l e.1.2 }

def run (t : Traced n) (es : List ((Fin n × Event) × Calls)) : Traced n := es.foldl (fun t e => step shardFor t e) t

@[simp] theorem run_nil (t : Traced n) : run shardFor t [] = t := rfl

@[simp] theorem run_cons (t : Traced n) (e : (Fin n × Event) × Calls) (es : List ((Fin n × Event) × Calls)) :
    run shardFor t (e :: es) = run shardFor (step shardFor t e) es := rfl

end Traced

end BlazeKV
