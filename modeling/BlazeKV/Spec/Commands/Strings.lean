import BlazeKV.Spec.Command

/-! `string_cmds.cpp`. -/

namespace BlazeKV.Cmd

def getString := getAs Object.string?

def maxInt64 : ℤ := 2 ^ 63 - 1
def minInt64 : ℤ := -2 ^ 63

/-- `incr_by`. The value is in range for every `delta`, the sums of the check are
formed only on the side where they do not wrap. -/
def incrBy (delta : ℤ) : Handler := fun env argv db =>
  let key := arg argv 1
  let run (db : Keyspace) (cur : ℤ) : Result :=
    if (delta > 0 ∧ cur > maxInt64 - delta) ∨ (delta < 0 ∧ cur < minInt64 - delta) then
      .clean db (Reply.error (ascii "ERR increment or decrement would overflow"))
    else .marked (db.set key (.string (intToString (cur + delta)))) (Reply.integer (cur + delta))
  match getString db env.now key with
  | (db, .wrongType) => .clean db errWrongType
  | (db, .absent) => run db 0
  | (db, .present s) =>
    match parseInt s with
    | none => .clean db errNotInt
    | some cur => run db cur

def get : Handler := fun env argv db =>
  match getString db env.now (arg argv 1) with
  | (db, .wrongType) => .clean db errWrongType
  | (db, .absent) => .clean db Reply.nullBulk
  | (db, .present s) => .clean db (Reply.bulk s)

structure SetOpts where
  deadline : ℕ
  nx : Bool
  xx : Bool
  keepttl : Bool
  get : Bool

/-- The deadline of `EX`, `PX`, `EXAT` or `PXAT`. -/
def expireOpt (now : ℕ) (opt : Bytes) (n : ℤ) : ℕ :=
  if opt = ascii "ex" then u64 (now + u64 (toU64 n * 1000))
  else if opt = ascii "px" then u64 (now + toU64 n)
  else if opt = ascii "exat" then u64 (toU64 n * 1000)
  else toU64 n

def isExpireOpt (opt : Bytes) : Bool :=
  opt = ascii "ex" ∨ opt = ascii "px" ∨ opt = ascii "exat" ∨ opt = ascii "pxat"

/-- The options of `SET`, or the error that ends the loop over them. -/
def setOpts (now : ℕ) : SetOpts → List Bytes → Except Bytes SetOpts
  | o, [] => .ok o
  | o, a :: rest =>
    let opt := lowercase a
    if opt = ascii "nx" then setOpts now { o with nx := true } rest
    else if opt = ascii "xx" then setOpts now { o with xx := true } rest
    else if opt = ascii "keepttl" then setOpts now { o with keepttl := true } rest
    else if opt = ascii "get" then setOpts now { o with get := true } rest
    else if isExpireOpt opt then
      match rest with
      | [] => .error errSyntax
      | a :: rest =>
        match parseInt a with
        | none => .error (Reply.error (ascii "ERR invalid expire time in 'set' command"))
        | some n =>
          if n ≤ 0 then .error (Reply.error (ascii "ERR invalid expire time in 'set' command"))
          else setOpts now { o with deadline := expireOpt now opt n } rest
    else .error errSyntax

def replyOpt (o : Option Bytes) : Bytes := o.elim Reply.nullBulk Reply.bulk

/-- The write of `SET` once its conditions hold. -/
def setWrite (o : SetOpts) (db : Keyspace) (key val : Bytes) : Keyspace :=
  let keepDeadline := if o.keepttl then db.deadlineOrZero key else 0
  let db := db.set key (.string val)
  if o.deadline ≠ 0 then db.setDeadline key o.deadline
  else if keepDeadline ≠ 0 then db.setDeadline key keepDeadline
  else db

def set : Handler := fun env argv db =>
  let key := arg argv 1
  match setOpts env.now ⟨0, false, false, false, false⟩ (argv.drop 3) with
  | .error e => .clean db e
  | .ok o =>
    let (db, found) := db.lookup env.now key
    let existing := found.bind Object.string?
    if o.nx ∧ existing.isSome then .clean db (if o.get then replyOpt existing else Reply.nullBulk)
    else
      let (db, again) := if o.xx then db.lookup env.now key else (db, found)
      if o.xx ∧ again.isNone then .clean db Reply.nullBulk
      else .marked (setWrite o db key (arg argv 2))
        (if o.get then replyOpt existing else Reply.simpleString (ascii "OK"))

def setnx : Handler := fun env argv db =>
  match db.lookup env.now (arg argv 1) with
  | (db, some _) => .clean db (Reply.integer 0)
  | (db, none) => .marked (db.set (arg argv 1) (.string (arg argv 2))) (Reply.integer 1)

/-- `SETEX`, and `PSETEX` by the name of the command. -/
def setex : Handler := fun env argv db =>
  match parseInt (arg argv 2) with
  | none => .clean db (Reply.error (ascii "ERR invalid expire time in 'setex' command"))
  | some secs =>
    if secs ≤ 0 then .clean db (Reply.error (ascii "ERR invalid expire time in 'setex' command"))
    else
      let span := if lowercase (cmdName argv) = ascii "psetex" then toU64 secs
        else u64 (toU64 secs * 1000)
      let db := db.set (arg argv 1) (.string (arg argv 3))
      .marked (db.setDeadline (arg argv 1) (u64 (env.now + span))) (Reply.simpleString (ascii "OK"))

def getset : Handler := fun env argv db =>
  let run (db : Keyspace) (old : Option Bytes) : Result :=
    .marked (db.set (arg argv 1) (.string (arg argv 2))) (replyOpt old)
  match getString db env.now (arg argv 1) with
  | (db, .wrongType) => .clean db errWrongType
  | (db, .absent) => run db none
  | (db, .present s) => run db (some s)

def append : Handler := fun env argv db =>
  match getString db env.now (arg argv 1) with
  | (db, .wrongType) => .clean db errWrongType
  | (db, .absent) =>
    .marked (db.set (arg argv 1) (.string (arg argv 2))) (Reply.integer (arg argv 2).length)
  | (db, .present s) =>
    .marked (db.write (arg argv 1) (.string (s ++ arg argv 2)))
      (Reply.integer (s ++ arg argv 2).length)

def strlen : Handler := fun env argv db =>
  match getString db env.now (arg argv 1) with
  | (db, .wrongType) => .clean db errWrongType
  | (db, .absent) => .clean db (Reply.integer 0)
  | (db, .present s) => .clean db (Reply.integer s.length)

def incr : Handler := incrBy 1
def decr : Handler := incrBy (-1)

def incrby : Handler := fun env argv db =>
  match parseInt (arg argv 2) with
  | none => .clean db errNotInt
  | some d => incrBy d env argv db

def decrby : Handler := fun env argv db =>
  match parseInt (arg argv 2) with
  | none => .clean db errNotInt
  | some d => incrBy (i64 (-d)) env argv db

def incrbyfloat : Handler := fun env argv db =>
  match parseDouble (arg argv 2) with
  | none => .clean db errNotFloat
  | some delta =>
    let run (db : Keyspace) (cur : Double) : Result :=
      let s := doubleToString (cur.add delta)
      .marked (db.set (arg argv 1) (.string s)) (Reply.bulk s)
    match getString db env.now (arg argv 1) with
    | (db, .wrongType) => .clean db errWrongType
    | (db, .absent) => run db .zero
    | (db, .present s) =>
      match parseDouble s with
      | none => .clean db errNotFloat
      | some cur => run db cur

/-- One round of `MGET`. -/
def mgetRound (now : ℕ) (r : Keyspace × Bytes) (key : Bytes) : Keyspace × Bytes :=
  let (db, found) := r.1.lookup now key
  (db, r.2 ++ replyOpt (found.bind Object.string?))

def mget : Handler := fun env argv db =>
  let r := argv.tail.foldl (mgetRound env.now) (db, Reply.arrayHeader (argv.length - 1))
  .clean r.1 r.2

def mset : Handler := fun _ argv db =>
  if argv.length % 2 ≠ 1 then .clean db (errWrongArgs (cmdName argv))
  else .marked ((pairs argv.tail).foldl (fun db p => db.set p.1 (.string p.2)) db)
    (Reply.simpleString (ascii "OK"))

def getrange : Handler := fun env argv db =>
  match getString db env.now (arg argv 1) with
  | (db, .wrongType) => .clean db errWrongType
  | (db, .absent) => .clean db (Reply.bulk [])
  | (db, .present s) =>
    match parseInt (arg argv 2), parseInt (arg argv 3) with
    | some start, some stop =>
      let (start, stop) := clampRange s.length start stop
      if start > stop ∨ s.length = 0 then .clean db (Reply.bulk [])
      else .clean db (Reply.bulk ((s.drop start.toNat).take (stop - start + 1).toNat))
    | _, _ => .clean db errNotInt

/-- `data.resize(needed, 0)` when that is longer, then the copy at `offset`. -/
def overwrite (data : Bytes) (offset : ℕ) (val : Bytes) : Bytes :=
  let data := data ++ List.replicate (offset + val.length - data.length) 0
  data.take offset ++ val ++ data.drop (offset + val.length)

def setrange : Handler := fun env argv db =>
  let run (offset : ℤ) (db : Keyspace) (data : Bytes) : Result :=
    let data := overwrite data offset.toNat (arg argv 3)
    .marked (db.set (arg argv 1) (.string data)) (Reply.integer data.length)
  match parseInt (arg argv 2) with
  | none => .clean db errNotInt
  | some offset =>
    if offset < 0 then .clean db errNotInt
    else match getString db env.now (arg argv 1) with
      | (db, .wrongType) => .clean db errWrongType
      | (db, .absent) => run offset db []
      | (db, .present s) => run offset db s

end BlazeKV.Cmd
