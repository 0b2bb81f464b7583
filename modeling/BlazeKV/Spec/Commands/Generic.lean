import BlazeKV.Spec.Command

/-! `generic_cmds.cpp`. -/

namespace BlazeKV.Cmd

/-- `char` is signed on the build targets. -/
def charLe (a b : UInt8) : Bool := a.toInt8 ≤ b.toInt8

/-- The body of a `[` class from `q` on: whether `c` is in it, and where it ends. -/
def globClass (pat : Bytes) (c : UInt8) : ℕ → ℕ → Bool → Bool × ℕ
  | 0, q, matched => (matched, q)
  | fuel + 1, q, matched =>
    if q < pat.length ∧ pat.getD q 0 ≠ 93 then
      if q + 2 < pat.length ∧ pat.getD (q + 1) 0 = 45 ∧ pat.getD (q + 2) 0 ≠ 93 then
        let inRange := charLe (pat.getD q 0) c && charLe c (pat.getD (q + 2) 0)
        globClass pat c fuel (q + 3) (matched || inRange)
      else globClass pat c fuel (q + 1) (matched || pat.getD q 0 = c)
    else (matched, q)

structure GlobState where
  p : ℕ
  s : ℕ
  /-- `star_p` and `star_s`. -/
  star : Option (ℕ × ℕ)

/-- Going back to the last star; `none` where there is none. -/
def globBack (g : GlobState) : Option GlobState :=
  g.star.map fun (starP, starS) => ⟨starP + 1, starS + 1, some (starP, starS + 1)⟩

/-- One round of the main loop of `glob_match`; `none` for `return false`. -/
def globStep (pat str : Bytes) (g : GlobState) : Option GlobState :=
  let pc := pat.getD g.p 0
  let sc := str.getD g.s 0
  if g.p < pat.length ∧ (pc = 63 ∨ pc = sc) then some { g with p := g.p + 1, s := g.s + 1 }
  else if g.p < pat.length ∧ pc = 42 then some { g with p := g.p + 1, star := some (g.p, g.s) }
  else if g.p < pat.length ∧ pc = 91 then
    let negate := g.p + 1 < pat.length ∧ (pat.getD (g.p + 1) 0 = 94 ∨ pat.getD (g.p + 1) 0 = 33)
    let (matched, q) :=
      globClass pat sc pat.length (if negate then g.p + 2 else g.p + 1) false
    if matched ≠ decide negate then
      some { g with p := if q < pat.length then q + 1 else q, s := g.s + 1 }
    else globBack g
  else if g.p < pat.length ∧ pc = 92 ∧ g.p + 1 < pat.length ∧ pat.getD (g.p + 1) 0 = sc then
    some { g with p := g.p + 2, s := g.s + 1 }
  else globBack g

def globLoop (pat str : Bytes) : ℕ → GlobState → Bool
  | 0, _ => false
  | fuel + 1, g =>
    if g.s < str.length then
      match globStep pat str g with
      | some g => globLoop pat str fuel g
      | none => false
    else (pat.drop g.p).all (· = 42)

/-- `glob_match`. A round reads a byte of `str`, or passes a star of `pat`, or goes
back to a later byte, so that the rounds given are enough. -/
def globMatch (pat str : Bytes) : Bool :=
  globLoop pat str ((str.length + 2) * (str.length + pat.length + 2)) ⟨0, 0, none⟩

def eraseRound (db : Keyspace) (key : Bytes) : Keyspace × Bool := db.eraseKey key

def del : Handler := fun _ argv db =>
  let (db, removed) := countLoop eraseRound db argv.tail
  .markedIf (removed ≠ 0) db (Reply.integer removed)

def unlink : Handler := del

def exists' : Handler := fun env argv db =>
  let (db, count) := countLoop (fun db key => db.existsKey env.now key) db argv.tail
  .clean db (Reply.integer count)

def setExpire (deadline : ℕ) : Handler := fun env argv db =>
  let (db, found) := db.existsKey env.now (arg argv 1)
  if !found then .clean db (Reply.integer 0)
  else .marked (db.setDeadline (arg argv 1) deadline) (Reply.integer 1)

/-- The handlers `EXPIRE`, `PEXPIRE` and `EXPIREAT`, by the deadline they set. -/
def expireBy (deadline : ℕ → ℕ → ℕ) : Handler := fun env argv db =>
  match parseInt (arg argv 2) with
  | none => .clean db errNotInt
  | some n => setExpire (deadline env.now (max 0 n).toNat) env argv db

def expire : Handler := expireBy fun now secs => u64 (now + u64 (secs * 1000))
def pexpire : Handler := expireBy fun now ms => u64 (now + ms)
def expireat : Handler := expireBy fun _ at' => u64 (at' * 1000)

def ttl : Handler := fun env argv db =>
  let (db, ms) := db.ttlMs env.now (arg argv 1)
  .clean db (Reply.integer (if ms < 0 then ms else (ms + 999).tdiv 1000))

def pttl : Handler := fun env argv db =>
  let (db, ms) := db.ttlMs env.now (arg argv 1)
  .clean db (Reply.integer ms)

def persist : Handler := fun env argv db =>
  let (db, found) := db.existsKey env.now (arg argv 1)
  if !found then .clean db (Reply.integer 0)
  else
    let (db, removed) := db.persist (arg argv 1)
    .markedIf removed db (Reply.integer (if removed then 1 else 0))

def type : Handler := fun env argv db =>
  let (db, o) := db.lookup env.now (arg argv 1)
  .clean db (Reply.simpleString (o.elim (ascii "none") fun o => typeName o.type))

/-- The keys that `KEYS` and `SCAN` list: those not past their deadline. -/
def listedKeys (db : Keyspace) (now : ℕ) (keep : Bytes × Object → Bool) : List Bytes :=
  ((db.forEach.filter fun e =>
    !(db.deadlineOrZero e.1 ≠ 0 && db.deadlineOrZero e.1 ≤ now) && keep e)).map Prod.fst

def replyKeys (ks : List Bytes) : Bytes := Reply.arrayHeader ks.length ++ ks.flatMap Reply.bulk

def keys : Handler := fun env argv db =>
  .clean db (replyKeys (listedKeys db env.now fun e => globMatch (arg argv 1) e.1))

def typeFilter (t : Bytes) : Option ObjType :=
  if t = ascii "string" then some .string
  else if t = ascii "list" then some .list
  else if t = ascii "hash" then some .hash
  else if t = ascii "set" then some .set
  else if t = ascii "zset" then some .zset
  else none

/-- One round over the options of `SCAN`. -/
def scanOpt (o : Bytes × Option ObjType) (p : Bytes × Bytes) : Bytes × Option ObjType :=
  if lowercase p.1 = ascii "match" then (p.2, o.2)
  else if lowercase p.1 = ascii "type" then (o.1, typeFilter p.2)
  else o

def scan : Handler := fun env argv db =>
  let (pat, filter) := (pairs (argv.drop 2)).foldl scanOpt (ascii "*", none)
  let out := listedKeys db env.now fun e =>
    (filter.all fun t => e.2.type = t) && globMatch pat e.1
  .clean db (Reply.arrayHeader 2 ++ Reply.bulk (ascii "0") ++ replyKeys out)

def rename : Handler := fun env argv db =>
  match db.lookup env.now (arg argv 1) with
  | (db, none) => .clean db errNoSuchKey
  | (db, some src) =>
    let dl := db.deadlineOrZero (arg argv 1)
    let db := (db.erase (arg argv 1)).set (arg argv 2) src
    .marked (if dl ≠ 0 then db.setDeadline (arg argv 2) dl else db)
      (Reply.simpleString (ascii "OK"))

def randomkey : Handler := fun _ _ db =>
  .clean db (replyKey db.forEach.head?)
where
  replyKey (e : Option (Bytes × Object)) : Bytes := e.elim Reply.nullBulk fun e => Reply.bulk e.1

def encoding : Object → Bytes
  | .string s => if (parseInt s).isSome then ascii "int" else ascii "embstr"
  | .list _ => ascii "quicklist"
  | .hash _ => ascii "hashtable"
  | .set _ => ascii "hashtable"
  | .zset _ => ascii "skiplist"
  | .hll _ => ascii "raw"

def object : Handler := fun env argv db =>
  let sub := lowercase (arg argv 1)
  if argv.length < 3 then .clean db (errWrongArgs (cmdName argv))
  else match db.lookup env.now (arg argv 2) with
    | (db, none) => .clean db errNoSuchKey
    | (db, some o) => .clean db
      (if sub = ascii "encoding" then Reply.bulk (encoding o)
       else if sub = ascii "refcount" then Reply.integer 1
       else if sub = ascii "idletime" then Reply.integer 0
       else if sub = ascii "freq" then Reply.integer 0
       else errSyntax)

end BlazeKV.Cmd
