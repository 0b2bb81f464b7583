import BlazeKV.Spec.Command

/-! `hash_cmds.cpp`. -/

namespace BlazeKV.Cmd

def getHash := getAs Object.hash?
def makeHash := getOrMake Object.hash? Object.hash .empty

def isHmset (argv : List Bytes) : Bool := lowercase (cmdName argv) = ascii "hmset"

def hset : Handler := fun env argv db =>
  if argv.length % 2 ≠ 0 then .clean db (errWrongArgs (cmdName argv))
  else match makeHash db env.now (arg argv 1) with
    | (db, none) => .clean db errWrongType
    | (db, some h) =>
      let (h, added) := countLoop (fun h p => h.insertOrAssign p.1 p.2) h (pairs (argv.drop 2))
      .marked (db.write (arg argv 1) (.hash h))
        (if isHmset argv then Reply.simpleString (ascii "OK") else Reply.integer added)

def hget : Handler := fun env argv db =>
  match getHash db env.now (arg argv 1) with
  | (db, .wrongType) => .clean db errWrongType
  | (db, .absent) => .clean db Reply.nullBulk
  | (db, .present h) => .clean db ((h.find (arg argv 2)).elim Reply.nullBulk Reply.bulk)

def hdel : Handler := fun env argv db =>
  match getHash db env.now (arg argv 1) with
  | (db, .wrongType) => .clean db errWrongType
  | (db, .absent) => .clean db (Reply.integer 0)
  | (db, .present h) =>
    let (h, removed) := countLoop Dict.eraseKey h (argv.drop 2)
    let db := db.write (arg argv 1) (.hash h)
    let db := if h.size = 0 then db.erase (arg argv 1) else db
    .markedIf (removed ≠ 0) db (Reply.integer removed)

def hexists : Handler := fun env argv db =>
  match getHash db env.now (arg argv 1) with
  | (db, .wrongType) => .clean db errWrongType
  | (db, .absent) => .clean db (Reply.integer 0)
  | (db, .present h) => .clean db (Reply.integer (if (h.find (arg argv 2)).isSome then 1 else 0))

/-- `HGETALL`, `HKEYS` and `HVALS`, by how many replies an entry gives and which. -/
def hashEntries (width : ℕ) (entry : Bytes × Bytes → Bytes) : Handler := fun env argv db =>
  match getHash db env.now (arg argv 1) with
  | (db, .wrongType) => .clean db errWrongType
  | (db, .absent) => .clean db (Reply.arrayHeader 0)
  | (db, .present h) => .clean db (Reply.arrayHeader (h.size * width) ++ h.forEach.flatMap entry)

def hgetall : Handler := hashEntries 2 fun e => Reply.bulk e.1 ++ Reply.bulk e.2
def hkeys : Handler := hashEntries 1 fun e => Reply.bulk e.1
def hvals : Handler := hashEntries 1 fun e => Reply.bulk e.2

def hlen : Handler := fun env argv db =>
  match getHash db env.now (arg argv 1) with
  | (db, .wrongType) => .clean db errWrongType
  | (db, .absent) => .clean db (Reply.integer 0)
  | (db, .present h) => .clean db (Reply.integer h.size)

/-- The field's value; an absent field counts as zero. -/
def fieldInt (h : Dict Bytes) (field : Bytes) : Option ℤ :=
  match h.find field with
  | none => some 0
  | some v => parseInt v

def hincrby : Handler := fun env argv db =>
  match parseInt (arg argv 3) with
  | none => .clean db errNotInt
  | some delta =>
    match makeHash db env.now (arg argv 1) with
    | (db, none) => .clean db errWrongType
    | (db, some h) =>
      match fieldInt h (arg argv 2) with
      | none => .clean db (Reply.error (ascii "ERR hash value is not an integer"))
      | some cur =>
        let cur := i64 (cur + delta)
        .marked (db.write (arg argv 1) (.hash (h.insert (arg argv 2) (intToString cur))))
          (Reply.integer cur)

def hmget : Handler := fun env argv db =>
  let reply (value : Bytes → Option Bytes) : Bytes :=
    Reply.arrayHeader (argv.length - 2) ++
      (argv.drop 2).flatMap fun f => (value f).elim Reply.nullBulk Reply.bulk
  match getHash db env.now (arg argv 1) with
  | (db, .wrongType) => .clean db errWrongType
  | (db, .absent) => .clean db (reply fun _ => none)
  | (db, .present h) => .clean db (reply h.find)

end BlazeKV.Cmd
