import BlazeKV.Spec.Checked.Strings

/-! `list_cmds.cpp`, `hash_cmds.cpp` and `set_cmds.cpp` with their accesses. -/

namespace BlazeKV.Checked

open Lib
open Cmd (isHmset)

/-! Lists. -/

def push (head : Bool) : CheckedHandler := fun env argv db => do
  let key ← argAt argv 1
  match ← openList db env.now key with
  | (db, none) => return .clean db errWrongType
  | (db, some l) =>
    let l ← forFrom .argument argv 2 (fun l x => return if head then x :: l else l ++ [x]) l
    return .marked (db.write key (.list l)) (Reply.integer l.length)

/-- The optional count of `LPOP`, `RPOP` and `SPOP`; `none` for an error. -/
def popCount (argv : List Bytes) : Checked (Option ℤ) := do
  if argv.length = 3 then return (parseInt (← argAt argv 2)).filter (0 ≤ ·)
  else return some 1

/-- `n` rounds of the loop of `pop`: what is left, and the popped elements. -/
def popLoop (head : Bool) : ℕ → List Bytes → List Bytes → Checked (List Bytes × List Bytes)
  | 0, l, popped => return (l, popped)
  | n + 1, l, popped => do
    let x ← if head then front l else back l
    popLoop head n (if head then l.tail else l.dropLast) (popped ++ [x])

def pop (head : Bool) : CheckedHandler := fun env argv db => do
  let key ← argAt argv 1
  match ← readList db env.now key with
  | (db, .wrongType) => return .clean db errWrongType
  | (db, slot) =>
    let hasCount := argv.length = 3
    match ← popCount argv with
    | none => return .clean db errNotInt
    | some count =>
      match slot with
      | .present l =>
        let n := min count.toNat l.length
        let (l, popped) ← popLoop head n l []
        let reply := (if hasCount then Reply.arrayHeader n else []) ++ popped.flatMap Reply.bulk ++
          (if ¬hasCount ∧ n = 0 then Reply.nullBulk else [])
        let db := db.write key (.list l)
        return .marked (if l = [] then db.erase key else db) reply
      | _ => return .clean db (if hasCount then Reply.nullArray else Reply.nullBulk)

def lpush : CheckedHandler := push true
def rpush : CheckedHandler := push false
def lpop : CheckedHandler := pop true
def rpop : CheckedHandler := pop false

def llen : CheckedHandler := sizeBy readList List.length

def lrange : CheckedHandler := fun env argv db => do
  match ← readList db env.now (← argAt argv 1) with
  | (db, .wrongType) => return .clean db errWrongType
  | (db, slot) =>
    match ← readRange argv with
    | none => return .clean db errNotInt
    | some r =>
      match slot with
      | .present l =>
        let (start, stop) := clampRange l.length r.1 r.2
        if start > stop ∨ l.length = 0 then return .clean db (Reply.arrayHeader 0)
        else
          let items ← (List.range' start.toNat (stop - start + 1).toNat).mapM (readAt .range l)
          return .clean db (Reply.arrayHeader (stop - start + 1) ++ items.flatMap Reply.bulk)
      | _ => return .clean db (Reply.arrayHeader 0)

def lindex : CheckedHandler := fun env argv db => do
  match ← readList db env.now (← argAt argv 1) with
  | (db, .wrongType) => return .clean db errWrongType
  | (db, slot) =>
    match parseInt (← argAt argv 2) with
    | none => return .clean db errNotInt
    | some idx =>
      match slot with
      | .present l =>
        let idx := if idx < 0 then idx + l.length else idx
        if idx < 0 ∨ idx ≥ l.length then return .clean db Reply.nullBulk
        else return .clean db (Reply.bulk (← readAt .range l idx.toNat))
      | _ => return .clean db Reply.nullBulk

def lset : CheckedHandler := fun env argv db => do
  let key ← argAt argv 1
  match ← readList db env.now key with
  | (db, .wrongType) => return .clean db errWrongType
  | (db, .absent) => return .clean db errNoSuchKey
  | (db, .present l) =>
    match parseInt (← argAt argv 2) with
    | none => return .clean db errNotInt
    | some idx =>
      let idx := if idx < 0 then idx + l.length else idx
      if idx < 0 ∨ idx ≥ l.length then return .clean db (Reply.error (ascii "ERR index out of range"))
      else
        let val ← argAt argv 3
        require .range (idx.toNat < l.length)
        return .marked (db.write key (.list (l.set idx.toNat val))) (Reply.simpleString (ascii "OK"))

/-! Hashes. -/

def hset : CheckedHandler := fun env argv db => do
  if argv.length % 2 ≠ 0 then return .clean db (errWrongArgs (cmdName argv))
  else
    let key ← argAt argv 1
    match ← openHash db env.now key with
    | (db, none) => return .clean db errWrongType
    | (db, some h) =>
      let (h, added) ← forPairs .argument argv 2 (fun r p =>
        return ((r.1.insertOrAssign p.1 p.2).1, if (r.1.insertOrAssign p.1 p.2).2 then r.2 + 1 else r.2)) (h, (0 : ℕ))
      return .marked (db.write key (.hash h)) (if isHmset argv then Reply.simpleString (ascii "OK") else Reply.integer added)

def hget : CheckedHandler := fun env argv db => do
  match ← readHash db env.now (← argAt argv 1) with
  | (db, .wrongType) => return .clean db errWrongType
  | (db, .absent) => return .clean db Reply.nullBulk
  | (db, .present h) => return .clean db ((h.find (← argAt argv 2)).elim Reply.nullBulk Reply.bulk)

/-- `HDEL` and `SREM`: `erase` for every argument, and the key goes with the last element. -/
def removeBy {α : Type} [Inhabited α] (read : Keyspace → ℕ → Bytes → Checked (Keyspace × Found (Dict α)))
    (make : Dict α → Object) : CheckedHandler := fun env argv db => do
  let key ← argAt argv 1
  match ← read db env.now key with
  | (db, .wrongType) => return .clean db errWrongType
  | (db, .absent) => return .clean db (Reply.integer 0)
  | (db, .present d) =>
    let (d, removed) ← countArgs argv 2 Dict.eraseKey d
    let db := db.write key (make d)
    let db := if d.size = 0 then db.erase key else db
    return .markedIf (removed ≠ 0) db (Reply.integer removed)

def hdel : CheckedHandler := removeBy readHash .hash

/-- `HEXISTS` and `SISMEMBER`. -/
def containsBy {α : Type} [Inhabited α] (read : Keyspace → ℕ → Bytes → Checked (Keyspace × Found (Dict α))) :
    CheckedHandler := fun env argv db => do
  match ← read db env.now (← argAt argv 1) with
  | (db, .wrongType) => return .clean db errWrongType
  | (db, .absent) => return .clean db (Reply.integer 0)
  | (db, .present d) => return .clean db (Reply.integer (if (d.find (← argAt argv 2)).isSome then 1 else 0))

def hexists : CheckedHandler := containsBy readHash

/-- `HGETALL`, `HKEYS`, `HVALS` and `SMEMBERS`, by how many replies an entry gives and which. -/
def entriesBy {α : Type} [Inhabited α] (read : Keyspace → ℕ → Bytes → Checked (Keyspace × Found (Dict α)))
    (width : ℕ) (entry : Bytes × α → Bytes) : CheckedHandler := fun env argv db => do
  match ← read db env.now (← argAt argv 1) with
  | (db, .wrongType) => return .clean db errWrongType
  | (db, .absent) => return .clean db (Reply.arrayHeader 0)
  | (db, .present d) => return .clean db (Reply.arrayHeader (d.size * width) ++ d.forEach.flatMap entry)

def hgetall : CheckedHandler := entriesBy readHash 2 fun e => Reply.bulk e.1 ++ Reply.bulk e.2
def hkeys : CheckedHandler := entriesBy readHash 1 fun e => Reply.bulk e.1
def hvals : CheckedHandler := entriesBy readHash 1 fun e => Reply.bulk e.2

def hlen : CheckedHandler := sizeBy readHash Dict.size

def hincrby : CheckedHandler := fun env argv db => do
  match parseInt (← argAt argv 3) with
  | none => return .clean db errNotInt
  | some delta =>
    let key ← argAt argv 1
    match ← openHash db env.now key with
    | (db, none) => return .clean db errWrongType
    | (db, some h) =>
      let field ← argAt argv 2
      match Cmd.fieldInt h field with
      | none => return .clean db (Reply.error (ascii "ERR hash value is not an integer"))
      | some cur =>
        let cur := i64 (cur + delta)
        return .marked (db.write key (.hash (h.insert field (intToString cur)))) (Reply.integer cur)

def hmget : CheckedHandler := fun env argv db => do
  let reply (value : Bytes → Option Bytes) : Checked Bytes :=
    forFrom .argument argv 2 (fun out f => return out ++ (value f).elim Reply.nullBulk Reply.bulk)
      (Reply.arrayHeader (argv.length - 2))
  match ← readHash db env.now (← argAt argv 1) with
  | (db, .wrongType) => return .clean db errWrongType
  | (db, .absent) => return .clean db (← reply fun _ => none)
  | (db, .present h) => return .clean db (← reply h.find)

/-! Sets. -/

def sadd : CheckedHandler := fun env argv db => do
  let key ← argAt argv 1
  match ← openSet db env.now key with
  | (db, none) => return .clean db errWrongType
  | (db, some s) =>
    let (s, added) ← countArgs argv 2 (fun s m => s.insertOrAssign m 1) s
    return .markedIf (added ≠ 0) (db.write key (.set s)) (Reply.integer added)

def srem : CheckedHandler := removeBy readSet .set
def sismember : CheckedHandler := containsBy readSet
def scard : CheckedHandler := sizeBy readSet Dict.size
def smembers : CheckedHandler := entriesBy readSet 1 fun e => Reply.bulk e.1

def spop : CheckedHandler := fun env argv db => do
  let key ← argAt argv 1
  match ← readSet db env.now key with
  | (db, .wrongType) => return .clean db errWrongType
  | (db, slot) =>
    let hasCount := argv.length = 3
    match ← popCount argv with
    | none => return .clean db errNotInt
    | some count =>
      match slot with
      | .present s =>
        let ms := Cmd.picked s count.toNat
        let s := ms.foldl Dict.erase s
        let db := db.write key (.set s)
        let db := if s.size = 0 then db.erase key else db
        let reply ← if hasCount then pure (Cmd.spop.replyAll ms)
          else if ms = [] then pure Reply.nullBulk
          else Reply.bulk <$> front ms
        return .markedIf (ms ≠ []) db reply
      | _ => return .clean db (if hasCount then Reply.arrayHeader 0 else Reply.nullBulk)

end BlazeKV.Checked
