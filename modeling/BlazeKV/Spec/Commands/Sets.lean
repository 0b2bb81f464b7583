import BlazeKV.Spec.Commands.Lists

/-! `set_cmds.cpp`. -/

namespace BlazeKV.Cmd

def getSet := getAs Object.set?
def makeSet := getOrMake Object.set? Object.set .empty

def sadd : Handler := fun env argv db =>
  match makeSet db env.now (arg argv 1) with
  | (db, none) => .clean db errWrongType
  | (db, some s) =>
    let (s, added) := countLoop (fun s m => s.insertOrAssign m 1) s (argv.drop 2)
    .markedIf (added ≠ 0) (db.write (arg argv 1) (.set s)) (Reply.integer added)

def srem : Handler := fun env argv db =>
  match getSet db env.now (arg argv 1) with
  | (db, .wrongType) => .clean db errWrongType
  | (db, .absent) => .clean db (Reply.integer 0)
  | (db, .present s) =>
    let (s, removed) := countLoop Dict.eraseKey s (argv.drop 2)
    let db := db.write (arg argv 1) (.set s)
    let db := if s.size = 0 then db.erase (arg argv 1) else db
    .markedIf (removed ≠ 0) db (Reply.integer removed)

def sismember : Handler := fun env argv db =>
  match getSet db env.now (arg argv 1) with
  | (db, .wrongType) => .clean db errWrongType
  | (db, .absent) => .clean db (Reply.integer 0)
  | (db, .present s) => .clean db (Reply.integer (if (s.find (arg argv 2)).isSome then 1 else 0))

def scard : Handler := fun env argv db =>
  match getSet db env.now (arg argv 1) with
  | (db, .wrongType) => .clean db errWrongType
  | (db, .absent) => .clean db (Reply.integer 0)
  | (db, .present s) => .clean db (Reply.integer s.size)

def smembers : Handler := fun env argv db =>
  match getSet db env.now (arg argv 1) with
  | (db, .wrongType) => .clean db errWrongType
  | (db, .absent) => .clean db (Reply.arrayHeader 0)
  | (db, .present s) =>
    .clean db (Reply.arrayHeader s.size ++ s.forEach.flatMap fun e => Reply.bulk e.1)

/-- The members that `SPOP` takes: the first ones in the order of the table. -/
def picked (s : Dict UInt8) (want : ℕ) : List Bytes := (s.forEach.map Prod.fst).take want

def spop : Handler := fun env argv db =>
  match getSet db env.now (arg argv 1) with
  | (db, .wrongType) => .clean db errWrongType
  | (db, slot) =>
    let hasCount := argv.length = 3
    match popCount argv, slot with
    | none, _ => .clean db errNotInt
    | some count, .present s =>
      let ms := picked s count.toNat
      let s := ms.foldl Dict.erase s
      let db := db.write (arg argv 1) (.set s)
      let db := if s.size = 0 then db.erase (arg argv 1) else db
      .markedIf (ms ≠ []) db
        (if hasCount then replyAll ms else ms.head?.elim Reply.nullBulk Reply.bulk)
    | some _, _ => .clean db (if hasCount then Reply.arrayHeader 0 else Reply.nullBulk)
where
  replyAll (ms : List Bytes) : Bytes := Reply.arrayHeader ms.length ++ ms.flatMap Reply.bulk

end BlazeKV.Cmd
