import BlazeKV.Spec.Command

/-! `list_cmds.cpp`. -/

namespace BlazeKV.Cmd

def getList := getAs Object.list?
def makeList := getOrMake Object.list? Object.list []

def push (head : Bool) : Handler := fun env argv db =>
  match makeList db env.now (arg argv 1) with
  | (db, none) => .clean db errWrongType
  | (db, some l) =>
    let l := (argv.drop 2).foldl (fun l x => if head then x :: l else l ++ [x]) l
    .marked (db.write (arg argv 1) (.list l)) (Reply.integer l.length)

/-- The optional count of `LPOP`, `RPOP` and `SPOP`; `none` for an error. -/
def popCount (argv : List Bytes) : Option ℤ :=
  if argv.length = 3 then (parseInt (arg argv 2)).filter (0 ≤ ·) else some 1

/-- `n` rounds of the loop of `pop`: what is left, and the popped elements. -/
def popLoop (head : Bool) (l : List Bytes) (n : ℕ) : List Bytes × List Bytes :=
  if head then (l.drop n, l.take n)
  else (l.take (l.length - n), (l.drop (l.length - n)).reverse)

def pop (head : Bool) : Handler := fun env argv db =>
  match getList db env.now (arg argv 1) with
  | (db, .wrongType) => .clean db errWrongType
  | (db, slot) =>
    let hasCount := argv.length = 3
    match popCount argv, slot with
    | none, _ => .clean db errNotInt
    | some count, .present l =>
      let n := min count.toNat l.length
      let (l, popped) := popLoop head l n
      let reply := (if hasCount then Reply.arrayHeader n else []) ++ popped.flatMap Reply.bulk ++
        (if ¬hasCount ∧ n = 0 then Reply.nullBulk else [])
      let db := db.write (arg argv 1) (.list l)
      .marked (if l = [] then db.erase (arg argv 1) else db) reply
    | some _, _ => .clean db (if hasCount then Reply.nullArray else Reply.nullBulk)

def lpush : Handler := push true
def rpush : Handler := push false
def lpop : Handler := pop true
def rpop : Handler := pop false

def llen : Handler := fun env argv db =>
  match getList db env.now (arg argv 1) with
  | (db, .wrongType) => .clean db errWrongType
  | (db, .absent) => .clean db (Reply.integer 0)
  | (db, .present l) => .clean db (Reply.integer l.length)

def lrange : Handler := fun env argv db =>
  match getList db env.now (arg argv 1) with
  | (db, .wrongType) => .clean db errWrongType
  | (db, slot) =>
    match parseInt (arg argv 2), parseInt (arg argv 3), slot with
    | some start, some stop, .present l =>
      let (start, stop) := clampRange l.length start stop
      if start > stop ∨ l.length = 0 then .clean db (Reply.arrayHeader 0)
      else .clean db (Reply.arrayHeader (stop - start + 1) ++
        ((l.drop start.toNat).take (stop - start + 1).toNat).flatMap Reply.bulk)
    | some _, some _, _ => .clean db (Reply.arrayHeader 0)
    | _, _, _ => .clean db errNotInt

/-- The position of an index that may count from the end; `none` past either end. -/
def listIndex (l : List Bytes) (idx : ℤ) : Option ℕ :=
  let idx := if idx < 0 then idx + l.length else idx
  if idx < 0 ∨ idx ≥ l.length then none else some idx.toNat

def lindex : Handler := fun env argv db =>
  match getList db env.now (arg argv 1) with
  | (db, .wrongType) => .clean db errWrongType
  | (db, slot) =>
    match parseInt (arg argv 2), slot with
    | none, _ => .clean db errNotInt
    | some idx, .present l =>
      .clean db ((listIndex l idx).elim Reply.nullBulk fun i => Reply.bulk (l.getD i []))
    | some _, _ => .clean db Reply.nullBulk

def lset : Handler := fun env argv db =>
  match getList db env.now (arg argv 1) with
  | (db, .wrongType) => .clean db errWrongType
  | (db, .absent) => .clean db errNoSuchKey
  | (db, .present l) =>
    match parseInt (arg argv 2) with
    | none => .clean db errNotInt
    | some idx =>
      match listIndex l idx with
      | none => .clean db (Reply.error (ascii "ERR index out of range"))
      | some i => .marked (db.write (arg argv 1) (.list (l.set i (arg argv 3))))
          (Reply.simpleString (ascii "OK"))

end BlazeKV.Cmd
