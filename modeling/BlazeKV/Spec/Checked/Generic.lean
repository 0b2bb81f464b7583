import BlazeKV.Spec.Checked.Base

/-! `generic_cmds.cpp` with its accesses. -/

namespace BlazeKV.Checked

open Lib
open Cmd (charLe GlobState globBack typeFilter scanOpt replyKeys)

/-- The body of a `[` class from `q` on. -/
def globClass (pat : Bytes) (c : UInt8) : ℕ → ℕ → Bool → Checked (Bool × ℕ)
  | 0, q, matched => do
    require .endless (¬(q < pat.length ∧ pat.getD q 0 ≠ 93))
    return (matched, q)
  | fuel + 1, q, matched => do
    if q < pat.length then
      let lo ← charAt pat q
      if lo = 93 then return (matched, q)
      else if q + 2 < pat.length then
        let dash ← charAt pat (q + 1)
        let hi ← charAt pat (q + 2)
        if dash = 45 ∧ hi ≠ 93 then globClass pat c fuel (q + 3) (matched || (charLe lo c && charLe c hi))
        else globClass pat c fuel (q + 1) (matched || lo = c)
      else globClass pat c fuel (q + 1) (matched || lo = c)
    else return (matched, q)

/-- `q < pat.size() && (pat[q] == '^' || pat[q] == '!')`. -/
def globNegate (pat : Bytes) (q : ℕ) : Checked Bool := do
  if q < pat.length then
    let c ← charAt pat q
    return c = 94 ∨ c = 33
  else return false

/-- `p + 1 < pat.size() && pat[p + 1] == str[s]`. -/
def globEscaped (pat : Bytes) (p : ℕ) (sc : UInt8) : Checked Bool := do
  if p + 1 < pat.length then return (← charAt pat (p + 1)) = sc
  else return false

def globStep (pat str : Bytes) (g : GlobState) : Checked (Option GlobState) := do
  let sc ← charAt str g.s
  if g.p < pat.length then
    let pc ← charAt pat g.p
    if pc = 63 ∨ pc = sc then return some { g with p := g.p + 1, s := g.s + 1 }
    else if pc = 42 then return some { g with p := g.p + 1, star := some (g.p, g.s) }
    else if pc = 91 then
      let negate ← globNegate pat (g.p + 1)
      let (matched, q) ← globClass pat sc pat.length (if negate then g.p + 2 else g.p + 1) false
      if matched ≠ negate then return some { g with p := if q < pat.length then q + 1 else q, s := g.s + 1 }
      else return globBack g
    else
      let escaped ← if pc = 92 then globEscaped pat g.p sc else pure false
      if escaped then return some { g with p := g.p + 2, s := g.s + 1 } else return globBack g
  else return globBack g

def globLoop (pat str : Bytes) : ℕ → GlobState → Checked Bool
  | 0, _ => .error .endless
  | fuel + 1, g => do
    if g.s < str.length then
      match ← globStep pat str g with
      | some g => globLoop pat str fuel g
      | none => return false
    -- the last loop reads `pat[p]` below the end only
    else return (pat.drop g.p).all (· = 42)

def globMatch (pat str : Bytes) : Checked Bool :=
  globLoop pat str ((str.length + 2) * (str.length + pat.length + 2)) ⟨0, 0, none⟩

def del : CheckedHandler := fun _ argv db => do
  let (db, removed) ← countArgs argv 1 Keyspace.eraseKey db
  return .markedIf (removed ≠ 0) db (Reply.integer removed)

def unlink : CheckedHandler := del

def exists' : CheckedHandler := fun env argv db => do
  let (db, count) ← countArgs argv 1 (fun db key => db.existsKey env.now key) db
  return .clean db (Reply.integer count)

def setExpire (deadline : ℕ) : CheckedHandler := fun env argv db => do
  let key ← argAt argv 1
  let (db, found) := db.existsKey env.now key
  if !found then return .clean db (Reply.integer 0)
  else return .marked (db.setDeadline key deadline) (Reply.integer 1)

/-- `EXPIRE`, `PEXPIRE` and `EXPIREAT`, by the deadline they set. -/
def expireBy (deadline : ℕ → ℕ → ℕ) : CheckedHandler := fun env argv db => do
  match parseInt (← argAt argv 2) with
  | none => return .clean db errNotInt
  | some n => setExpire (deadline env.now (max 0 n).toNat) env argv db

def expire : CheckedHandler := expireBy fun now secs => u64 (now + u64 (secs * 1000))
def pexpire : CheckedHandler := expireBy fun now ms => u64 (now + ms)
def expireat : CheckedHandler := expireBy fun _ at' => u64 (at' * 1000)

def ttl : CheckedHandler := fun env argv db => do
  let (db, ms) := db.ttlMs env.now (← argAt argv 1)
  return .clean db (Reply.integer (if ms < 0 then ms else (ms + 999).tdiv 1000))

def pttl : CheckedHandler := fun env argv db => do
  let (db, ms) := db.ttlMs env.now (← argAt argv 1)
  return .clean db (Reply.integer ms)

def persist : CheckedHandler := fun env argv db => do
  let key ← argAt argv 1
  let (db, found) := db.existsKey env.now key
  if !found then return .clean db (Reply.integer 0)
  else
    let (db, removed) := db.persist key
    return .markedIf removed db (Reply.integer (if removed then 1 else 0))

def type : CheckedHandler := fun env argv db => do
  let (db, o) := db.lookup env.now (← argAt argv 1)
  return .clean db (Reply.simpleString (o.elim (ascii "none") fun o => typeName o.type))

/-- The loop of `KEYS` and `SCAN` over the keyspace. -/
def listedKeys (db : Keyspace) (now : ℕ) (skip : Object → Bool) (pat : Bytes) : Checked (List Bytes) :=
  db.forEach.foldlM (fun out e => do
    if db.deadlineOrZero e.1 ≠ 0 ∧ db.deadlineOrZero e.1 ≤ now then return out
    else if skip e.2 then return out
    else if ← globMatch pat e.1 then return out ++ [e.1]
    else return out) []

def keys : CheckedHandler := fun env argv db => do
  return .clean db (replyKeys (← listedKeys db env.now (fun _ => false) (← argAt argv 1)))

def scan : CheckedHandler := fun env argv db => do
  let (pat, filter) ← forPairs .argument argv 2 (fun o p => return scanOpt o p) (ascii "*", none)
  let out ← listedKeys db env.now (fun o => filter.any fun t => o.type ≠ t) pat
  return .clean db (Reply.arrayHeader 2 ++ Reply.bulk (ascii "0") ++ replyKeys out)

def rename : CheckedHandler := fun env argv db => do
  let key ← argAt argv 1
  match db.lookup env.now key with
  | (db, none) => return .clean db errNoSuchKey
  | (db, some src) =>
    let dl := db.deadlineOrZero key
    let target ← argAt argv 2
    let db := (db.erase key).set target src
    return .marked (if dl ≠ 0 then db.setDeadline target dl else db) (Reply.simpleString (ascii "OK"))

def randomkey : CheckedHandler := fun env argv db => return Cmd.randomkey env argv db

def encoding (o : Object) : Checked Bytes :=
  match o.type with
  | .string => do return if (parseInt (← o.getStr)).isSome then ascii "int" else ascii "embstr"
  | .list => return ascii "quicklist"
  | .hash => return ascii "hashtable"
  | .set => return ascii "hashtable"
  | .zset => return ascii "skiplist"
  | .hll => return ascii "raw"

def object : CheckedHandler := fun env argv db => do
  let sub := lowercase (← argAt argv 1)
  if argv.length < 3 then return .clean db (errWrongArgs (cmdName argv))
  else match db.lookup env.now (← argAt argv 2) with
    | (db, none) => return .clean db errNoSuchKey
    | (db, some o) =>
      if sub = ascii "encoding" then return .clean db (Reply.bulk (← encoding o))
      else
        let reply := if sub = ascii "refcount" then Reply.integer 1
          else if sub = ascii "idletime" then Reply.integer 0
          else if sub = ascii "freq" then Reply.integer 0
          else errSyntax
        return .clean db reply

end BlazeKV.Checked
