import BlazeKV.Spec.Aof

/-! `shard.hpp` and `shard.cpp`: connections with their reply pipelines, the
routing of a command, and the completion of what was sent to other shards. Sequence
numbers, connection ids and sums do not wrap here. -/

namespace BlazeKV

/-- `PendingReply::Kind`. -/
inductive Kind
  | single
  | mget
  | mset
  | delCount
  | existsCount
  deriving DecidableEq

/-- `is_int` of the parts of a reply. -/
def Kind.isInt : Kind → Bool
  | .delCount | .existsCount => true
  | _ => false

/-- `parse_resp_integer`. -/
def parseRespInteger : Bytes → ℤ
  | [] => 0
  | c :: s =>
    if c ≠ 58 then 0
    else if s.head? = some 45 then -(digitsValue (s.tail.takeWhile isDigit) : ℤ)
    else digitsValue (s.takeWhile isDigit)

structure PendingReply where
  ready : Bool
  bytes : Bytes
  kind : Kind
  remaining : ℤ
  frags : List Bytes
  accum : ℤ

/-- The request of one key that a posted closure carries, and the slot it is for. -/
structure Part where
  cid : ℕ
  seq : ℕ
  index : ℕ
  isInt : Bool
  args : List Bytes

namespace PendingReply

def done (bytes : Bytes) : PendingReply := ⟨true, bytes, .single, 0, [], 0⟩

def waiting (kind : Kind) (n : ℕ) : PendingReply := ⟨false, [], kind, n, List.replicate n [], 0⟩

def assemble (pr : PendingReply) : PendingReply :=
  { pr with
    ready := true
    bytes := match pr.kind with
      | .single => pr.frags.headD []
      | .mget => Reply.arrayHeader pr.frags.length ++ pr.frags.flatten
      | .mset => Reply.simpleString (ascii "OK")
      | .delCount | .existsCount => Reply.integer pr.accum }

/-- The change that `complete_fragment` makes to a slot. -/
def complete (pr : PendingReply) (part : Part) (reply : Bytes) : PendingReply :=
  let pr := if part.isInt then { pr with accum := pr.accum + parseRespInteger reply }
    else { pr with frags := pr.frags.set part.index reply }
  let pr := { pr with remaining := pr.remaining - 1 }
  if pr.remaining = 0 then pr.assemble else pr

end PendingReply

/-- A `std::map` from submission numbers to slots: an association list, sorted. -/
abbrev Pipeline := List (ℕ × PendingReply)

namespace Pipeline

def set (seq : ℕ) (pr : PendingReply) : Pipeline → Pipeline
  | [] => [(seq, pr)]
  | (s, q) :: rest =>
    if seq < s then (seq, pr) :: (s, q) :: rest
    else if seq = s then (seq, pr) :: rest
    else (s, q) :: set seq pr rest

def find (seq : ℕ) (p : Pipeline) : Option PendingReply := p.lookup seq

/-- The loop of `flush_ready`: what it appends, and the slots it leaves. -/
def flush : Pipeline → Bytes × Pipeline
  | [] => ([], [])
  | (s, pr) :: rest => if pr.ready then (pr.bytes ++ (flush rest).1, (flush rest).2) else ([], (s, pr) :: rest)

end Pipeline

structure Connection where
  input : Bytes
  out : Bytes
  outSent : ℕ
  closing : Bool
  pipeline : Pipeline
  nextSeq : ℕ

/-- What the socket makes of the writes of one `handle_writable`. -/
structure Written where
  accepted : ℕ
  failed : Bool

namespace Connection

def new : Connection := ⟨[], [], 0, false, [], 0⟩

/-- A new slot at the end of the pipeline. -/
def enqueue (c : Connection) (pr : PendingReply) : Connection :=
  { c with nextSeq := c.nextSeq + 1, pipeline := c.pipeline.set c.nextSeq pr }

def flushReady (c : Connection) : Connection :=
  { c with out := c.out ++ c.pipeline.flush.1, pipeline := c.pipeline.flush.2 }

def handleWritable (c : Connection) (w : Written) : Connection :=
  let failed := c.outSent < c.out.length && w.failed
  let c := { c with
    outSent := min c.out.length (c.outSent + w.accepted), closing := c.closing || failed }
  if c.outSent ≥ c.out.length then { c with out := [], outSent := 0 } else c

/-- The condition of both calls of `close_conn` that end a connection in order. -/
def owesNothing (c : Connection) : Bool := c.closing && c.pipeline.isEmpty && c.outSent ≥ c.out.length

def kMaxInlineBuffer : ℕ := 512 * 1024 * 1024

/-- The reads of `handle_readable`. -/
def receive (c : Connection) (data : Bytes) (eof : Bool) : Connection :=
  let input := c.input ++ data
  { c with input := input, closing := c.closing || eof || kMaxInlineBuffer < input.length }

end Connection

/-- What becomes of a command: bytes at once, or one fragment for each part. -/
inductive Answer
  | here (bytes : Bytes)
  | parts (kind : Kind) (frags : List (Option Bytes))

/-- A command that was parsed, or input that could not be. -/
inductive Request
  | command (argv : List Bytes) (answer : Answer)
  | malformed (bytes : Bytes)

namespace Request

def answer : Request → Answer
  | command _ a => a
  | malformed b => .here b

def setAnswer (a : Answer) : Request → Request
  | command argv _ => command argv a
  | malformed b => malformed b

end Request

/-- The fragment that a part brings. -/
def Answer.fill (part : Part) (reply : Bytes) : Answer → Answer
  | here b => here b
  | parts kind frags => parts kind (frags.set part.index (some reply))

/-- The history of one connection id. It is written beside the state of the shard and
never read by it. -/
structure Ledger where
  requests : List Request
  appended : Bytes

namespace Ledger

def empty : Ledger := ⟨[], []⟩

def request (r : Request) (l : Ledger) : Ledger := { l with requests := l.requests ++ [r] }

def fragment (part : Part) (reply : Bytes) (l : Ledger) : Ledger :=
  { l with requests := l.requests.modify part.seq fun r => r.setAnswer (r.answer.fill part reply) }

def append (b : Bytes) (l : Ledger) : Ledger := { l with appended := l.appended ++ b }

end Ledger

/-- Where the event loop stands. -/
inductive Phase
  | polling
  | reading (cid : ℕ)
  | writing (cid : ℕ)
  | draining
  deriving DecidableEq

structure Shard where
  db : Keyspace
  aof : Option Aof
  conns : ℕ → Option Connection
  nextConnId : ℕ
  phase : Phase
  ledger : ℕ → Ledger

/-- The closures that shards post. -/
inductive Message (ι : Type)
  | execute (origin : ι) (part : Part)
  | complete (part : Part) (reply : Bytes)
  | flush

abbrev Posts (ι : Type) := List (ι × Message ι)

/-! Routing. -/

section Routing

variable {ι : Type} [DecidableEq ι] (shardFor : Bytes → ι)

def decomposable : List Bytes :=
  [ascii "mget", ascii "mset", ascii "del", ascii "unlink", ascii "exists", ascii "touch"]

def kindOf (name : Bytes) : Kind :=
  if name = ascii "mget" then .mget
  else if name = ascii "mset" then .mset
  else if name = ascii "exists" then .existsCount
  else .delCount

/-- The request for the key with index `i`. -/
def subCommand (kind : Kind) (argv : List Bytes) (i : ℕ) (key : Bytes) : List Bytes :=
  match kind with
  | .mget => [ascii "GET", key]
  | .mset => [ascii "SET", key, arg argv (2 * i + 2)]
  | .existsCount => [ascii "EXISTS", key]
  | _ => [ascii "DEL", key]

/-- The indexes that the loop of `begin_multikey` uses, each with the size of the vector it
goes into: those of the values of `MSET` in `argv`, and those of the keys. -/
def multikeyIndexes (argv keys : List Bytes) : List (ℕ × ℕ) :=
  (List.range keys.length).flatMap fun i =>
    if lowercase (cmdName argv) = ascii "mset" then [(2 * i + 2, argv.length), (i, keys.length)]
    else [(i, keys.length)]

def errCrossSlot : Bytes := Reply.error (ascii "CROSSSLOT Keys in request map to different shards")

inductive Plan (ι : Type)
  | refuse (reply : Bytes)
  | inline
  | forward (target : ι)
  | fanOut (keys : List Bytes)

/-- What `dispatch` decides. -/
def plan (self : ι) (argv : List Bytes) : Plan ι :=
  match route argv with
  | .error e => .refuse e
  | .ok spec =>
    match extractKeys spec argv with
    | [] => .inline
    | key :: keys =>
      if keys.all fun k => shardFor k = shardFor key then
        if shardFor key = self then .inline else .forward (shardFor key)
      else if lowercase (cmdName argv) ∈ decomposable then .fanOut (key :: keys)
      else .refuse errCrossSlot

end Routing

namespace Shard

def setConn (sh : Shard) (cid : ℕ) (c : Connection) : Shard :=
  { sh with conns := Function.update sh.conns cid (some c) }

def closeConn (sh : Shard) (cid : ℕ) : Shard :=
  { sh with conns := Function.update sh.conns cid none }

def note (sh : Shard) (cid : ℕ) (f : Ledger → Ledger) : Shard :=
  { sh with ledger := Function.update sh.ledger cid (f (sh.ledger cid)) }

/-- One connection that `on_listen_ready` accepts. -/
def accept (sh : Shard) : Shard :=
  { sh.setConn sh.nextConnId .new with nextConnId := sh.nextConnId + 1 }

def flushReady (sh : Shard) (cid : ℕ) (c : Connection) : Shard :=
  (sh.setConn cid c.flushReady).note cid (·.append c.pipeline.flush.1)

/-- `handle_writable` and the decision to close. -/
def finish (sh : Shard) (cid : ℕ) (w : Written) : Shard :=
  match sh.conns cid with
  | none => sh
  | some c =>
    let c := c.handleWritable w
    if c.owesNothing then sh.closeConn cid else sh.setConn cid c

/-- `exec_core`. The handlers of `FLUSHALL` and `FLUSHDB` call `flush()`, which makes
the log file anew. -/
def exec (sh : Shard) (env : Env) (argv : List Bytes) : Shard × Bytes × Bool :=
  let r := execCore env argv sh.db
  let aof := if r.flush then sh.aof.map fun a => Aof.openFile a.policy [] else sh.aof
  let aof := match r.record with
    | none => aof
    | some b => aof.map (·.append b)
  ({ sh with db := r.db, aof := aof }, r.reply, r.flush)

/-- `flush`, as other shards ask for it. -/
def flush (sh : Shard) : Shard :=
  { sh with db := sh.db.clear, aof := sh.aof.map fun a => Aof.openFile a.policy [] }

def enqueue (sh : Shard) (cid : ℕ) (c : Connection) (pr : PendingReply) (r : Request) : Shard :=
  (sh.setConn cid (c.enqueue pr)).note cid (·.request r)

section Steps

variable {ι : Type} [DecidableEq ι] (shardFor : Bytes → ι) (shards : List ι) (self : ι)

/-- What `FLUSHALL` posts to the other shards. -/
def flushPosts (asked : Bool) : Posts ι :=
  if asked then (shards.filter (· ≠ self)).map (·, .flush) else []

variable {shards self} in
theorem mem_flushPosts {asked : Bool} {p : ι × Message ι} (h : p ∈ flushPosts shards self asked) :
    asked = true ∧ p.1 ≠ self ∧ p.2 = .flush := by
  unfold flushPosts at h
  split_ifs at h with ha
  · obtain ⟨j, hj, rfl⟩ := List.mem_map.1 h
    exact ⟨ha, by simpa using (List.mem_filter.1 hj).2, rfl⟩
  · cases h

def localReply (sh : Shard) (cid : ℕ) (c : Connection) (argv : List Bytes) (bytes : Bytes) : Shard :=
  sh.enqueue cid c (.done bytes) (.command argv (.here bytes))

def beginSingleForward (sh : Shard) (cid : ℕ) (c : Connection) (target : ι) (argv : List Bytes) :
    Shard × Posts ι :=
  (sh.enqueue cid c (.waiting .single 1) (.command argv (.parts .single [none])),
    [(target, .execute self ⟨cid, c.nextSeq, 0, false, argv⟩)])

def beginMultikey (sh : Shard) (cid : ℕ) (c : Connection) (argv keys : List Bytes) :
    Shard × Posts ι :=
  let kind := kindOf (lowercase (cmdName argv))
  (sh.enqueue cid c (.waiting kind keys.length)
      (.command argv (.parts kind (List.replicate keys.length none))),
    keys.mapIdx fun i key =>
      (shardFor key, .execute self ⟨cid, c.nextSeq, i, kind.isInt, subCommand kind argv i key⟩))

def dispatch (sh : Shard) (env : Env) (cid : ℕ) (c : Connection) (argv : List Bytes) :
    Shard × Posts ι :=
  match plan shardFor self argv with
  | .refuse e => (sh.localReply cid c argv e, [])
  | .inline =>
    let (sh, reply, flushed) := sh.exec env argv
    (sh.localReply cid c argv reply, flushPosts shards self flushed)
  | .forward target => beginSingleForward self sh cid c target argv
  | .fanOut keys => beginMultikey shardFor self sh cid c argv keys

/-- The end of `process_input`. -/
def endInput (sh : Shard) (cid : ℕ) (c : Connection) : Shard :=
  { sh.flushReady cid c with phase := .writing cid }

/-- One round of the loop of `process_input`. The input that earlier rounds consumed
is erased at once. -/
def processInput (sh : Shard) (env : Env) (cid : ℕ) (c : Connection) : Shard × Posts ι :=
  if c.closing then (sh.endInput cid c, [])
  else match RequestParser.parse c.input with
    | .needMore => (sh.endInput cid c, [])
    | .protocolError e =>
      let bytes := Reply.error (ascii "ERR Protocol error: " ++ e)
      let sh := sh.note cid (·.request (.malformed bytes))
      (sh.endInput cid { c.enqueue (.done bytes) with closing := true }, [])
    | .ok argv consumed =>
      let c := { c with input := c.input.drop consumed }
      if argv = [] then (sh.setConn cid c, []) else dispatch shardFor shards self sh env cid c argv

/-- `find_conn` and the lookup of the slot come first: for a connection that has closed
nothing happens. -/
def completeFragment (sh : Shard) (part : Part) (reply : Bytes) (w : Written) : Shard :=
  let sh := sh.note part.cid (·.fragment part reply)
  match sh.conns part.cid with
  | none => sh
  | some c =>
    match c.pipeline.find part.seq with
    | none => sh
    | some pr =>
      let c := { c with pipeline := c.pipeline.set part.seq (pr.complete part reply) }
      (sh.flushReady part.cid c).finish part.cid w

/-- One closure of the mailbox. -/
def runMessage (sh : Shard) (env : Env) (w : Written) : Message ι → Shard × Posts ι
  | .execute origin part =>
    let (sh, reply, flushed) := sh.exec env part.args
    (sh, flushPosts shards self flushed ++ [(origin, .complete part reply)])
  | .complete part reply => (sh.completeFragment part reply w, [])
  | .flush => (sh.flush, [])

/-- The work of `cron` that is due: active expiry at a clock reading, and `tick` of the
log, which writes it out once a second. -/
def cron (sh : Shard) (now : ℕ) (synced : Bool) : Shard :=
  let (db, expired) := sh.db.activeExpireCycle now 20
  let aof := sh.aof.map fun a => expired.foldl (fun a k => a.append (encodeMultibulk [ascii "DEL", k])) a
  { sh with
    db := db
    aof := aof.map fun a => if synced ∧ a.policy = .everySec then a.flush else a }

end Steps

end Shard

end BlazeKV
