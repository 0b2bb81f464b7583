import BlazeKV.Spec.Checked.Base

/-! `string_cmds.cpp` with its accesses. -/

namespace BlazeKV.Checked

open Lib
open Cmd (SetOpts expireOpt isExpireOpt replyOpt setWrite maxInt64 minInt64)

def incrBy (delta : ℤ) : CheckedHandler := fun env argv db => do
  let key ← argAt argv 1
  let run (db : Keyspace) (cur : ℤ) : Result :=
    if (delta > 0 ∧ cur > maxInt64 - delta) ∨ (delta < 0 ∧ cur < minInt64 - delta) then
      .clean db (Reply.error (ascii "ERR increment or decrement would overflow"))
    else .marked (db.set key (.string (intToString (cur + delta)))) (Reply.integer (cur + delta))
  match ← readString db env.now key with
  | (db, .wrongType) => return .clean db errWrongType
  | (db, .absent) => return run db 0
  | (db, .present s) =>
    match parseInt s with
    | none => return .clean db errNotInt
    | some cur => return run db cur

def get : CheckedHandler := fun env argv db => do
  match ← readString db env.now (← argAt argv 1) with
  | (db, .wrongType) => return .clean db errWrongType
  | (db, .absent) => return .clean db Reply.nullBulk
  | (db, .present s) => return .clean db (Reply.bulk s)

/-- The loop over the options of `SET` from argument `i` on. -/
def setOpts (now : ℕ) (argv : List Bytes) : ℕ → ℕ → SetOpts → Checked (Except Bytes SetOpts)
  | 0, _, _ => .error .endless
  | fuel + 1, i, o =>
    if i < argv.length then do
      let opt := lowercase (← argAt argv i)
      if opt = ascii "nx" then setOpts now argv fuel (i + 1) { o with nx := true }
      else if opt = ascii "xx" then setOpts now argv fuel (i + 1) { o with xx := true }
      else if opt = ascii "keepttl" then setOpts now argv fuel (i + 1) { o with keepttl := true }
      else if opt = ascii "get" then setOpts now argv fuel (i + 1) { o with get := true }
      else if isExpireOpt opt ∧ i + 1 < argv.length then
        match parseInt (← argAt argv (i + 1)) with
        | none => return .error (Reply.error (ascii "ERR invalid expire time in 'set' command"))
        | some n =>
          if n ≤ 0 then return .error (Reply.error (ascii "ERR invalid expire time in 'set' command"))
          else setOpts now argv fuel (i + 2) { o with deadline := expireOpt now opt n }
      else return .error errSyntax
    else return .ok o

/-- `existing` of `SET`: the string at the key, where `->str()` is called on it. -/
def existing (found : Option Object) : Checked (Option Bytes) :=
  match found with
  | none => return none
  | some o => if o.type ≠ .string then return none else do return some (← o.getStr)

def set : CheckedHandler := fun env argv db => do
  let key ← argAt argv 1
  let val ← argAt argv 2
  match ← setOpts env.now argv (argv.length + 1) 3 ⟨0, false, false, false, false⟩ with
  | .error e => return .clean db e
  | .ok o =>
    let (db, found) := db.lookup env.now key
    let old ← existing found
    if o.nx ∧ old.isSome then return .clean db (if o.get then replyOpt old else Reply.nullBulk)
    else
      let (db, again) := if o.xx then db.lookup env.now key else (db, found)
      if o.xx ∧ again.isNone then return .clean db Reply.nullBulk
      else return .marked (setWrite o db key val) (if o.get then replyOpt old else Reply.simpleString (ascii "OK"))

def setnx : CheckedHandler := fun env argv db => do
  match db.lookup env.now (← argAt argv 1) with
  | (db, some _) => return .clean db (Reply.integer 0)
  | (db, none) => return .marked (db.set (← argAt argv 1) (.string (← argAt argv 2))) (Reply.integer 1)

def setex : CheckedHandler := fun env argv db => do
  match parseInt (← argAt argv 2) with
  | none => return .clean db (Reply.error (ascii "ERR invalid expire time in 'setex' command"))
  | some secs =>
    if secs ≤ 0 then return .clean db (Reply.error (ascii "ERR invalid expire time in 'setex' command"))
    else
      -- `name()` is empty where there is no argument
      let span := if lowercase (cmdName argv) = ascii "psetex" then toU64 secs
        else u64 (toU64 secs * 1000)
      let key ← argAt argv 1
      let db := db.set key (.string (← argAt argv 3))
      return .marked (db.setDeadline key (u64 (env.now + span))) (Reply.simpleString (ascii "OK"))

def getset : CheckedHandler := fun env argv db => do
  let key ← argAt argv 1
  match ← readString db env.now key with
  | (db, .wrongType) => return .clean db errWrongType
  | (db, .absent) => return .marked (db.set key (.string (← argAt argv 2))) (replyOpt none)
  | (db, .present s) => return .marked (db.set key (.string (← argAt argv 2))) (replyOpt (some s))

/-- `s.append(x)`. -/
def appendTo (lim : Limits) (s x : Bytes) : Checked Bytes := do
  require .length (s.length + x.length ≤ lim.string)
  return s ++ x

def append (lim : Limits) : CheckedHandler := fun env argv db => do
  let key ← argAt argv 1
  match ← readString db env.now key with
  | (db, .wrongType) => return .clean db errWrongType
  | (db, .absent) =>
    let val ← argAt argv 2
    return .marked (db.set key (.string val)) (Reply.integer val.length)
  | (db, .present s) =>
    let s ← appendTo lim s (← argAt argv 2)
    return .marked (db.write key (.string s)) (Reply.integer s.length)

/-- `STRLEN`, `LLEN`, `HLEN`, `SCARD` and `ZCARD`, by the typed lookup and the size. -/
def sizeBy {α : Type} (read : Keyspace → ℕ → Bytes → Checked (Keyspace × Found α)) (size : α → ℕ) : CheckedHandler :=
  fun env argv db => do
    match ← read db env.now (← argAt argv 1) with
    | (db, .wrongType) => return .clean db errWrongType
    | (db, .absent) => return .clean db (Reply.integer 0)
    | (db, .present a) => return .clean db (Reply.integer (size a))

def strlen : CheckedHandler := sizeBy readString List.length

def incr : CheckedHandler := incrBy 1
def decr : CheckedHandler := incrBy (-1)

def incrby : CheckedHandler := fun env argv db => do
  match parseInt (← argAt argv 2) with
  | none => return .clean db errNotInt
  | some d => incrBy d env argv db

def decrby : CheckedHandler := fun env argv db => do
  match parseInt (← argAt argv 2) with
  | none => return .clean db errNotInt
  | some d => incrBy (i64 (-d)) env argv db

def incrbyfloat : CheckedHandler := fun env argv db => do
  match parseDouble (← argAt argv 2) with
  | none => return .clean db errNotFloat
  | some delta =>
    let key ← argAt argv 1
    let run (db : Keyspace) (cur : Double) : Result :=
      let s := doubleToString (cur.add delta)
      .marked (db.set key (.string s)) (Reply.bulk s)
    match ← readString db env.now key with
    | (db, .wrongType) => return .clean db errWrongType
    | (db, .absent) => return run db .zero
    | (db, .present s) =>
      match parseDouble s with
      | none => return .clean db errNotFloat
      | some cur => return run db cur

def mgetRound (now : ℕ) (r : Keyspace × Bytes) (key : Bytes) : Checked (Keyspace × Bytes) := do
  let (db, found) := r.1.lookup now key
  return (db, r.2 ++ replyOpt (← existing found))

def mget : CheckedHandler := fun env argv db => do
  let r ← forFrom .argument argv 1 (mgetRound env.now) (db, Reply.arrayHeader (argv.length - 1))
  return .clean r.1 r.2

def mset : CheckedHandler := fun _ argv db => do
  if argv.length % 2 ≠ 1 then return .clean db (errWrongArgs (cmdName argv))
  else
    let db ← forPairs .argument argv 1 (fun db p => return db.set p.1 (.string p.2)) db
    return .marked db (Reply.simpleString (ascii "OK"))

def getrange : CheckedHandler := fun env argv db => do
  match ← readString db env.now (← argAt argv 1) with
  | (db, .wrongType) => return .clean db errWrongType
  | (db, .absent) => return .clean db (Reply.bulk [])
  | (db, .present s) =>
    match ← readRange argv with
    | none => return .clean db errNotInt
    | some r =>
      let (start, stop) := clampRange s.length r.1 r.2
      if start > stop ∨ s.length = 0 then return .clean db (Reply.bulk [])
      else return .clean db (Reply.bulk (← substr s start.toNat (stop - start + 1).toNat))

/-- `data.resize(needed, 0)`, where that is longer. -/
def grow (lim : Limits) (data : Bytes) (needed : ℕ) : Checked Bytes := do
  if data.length < needed then
    require .length (needed ≤ lim.string)
    return data ++ List.replicate (needed - data.length) 0
  else return data

/-- `std::copy` of `val` into `data` at `offset`. -/
def copyInto (data : Bytes) (offset : ℕ) (val : Bytes) : Checked Bytes := do
  require .range (val = [] ∨ offset + val.length ≤ data.length)
  return data.take offset ++ val ++ data.drop (offset + val.length)

def setrange (lim : Limits) : CheckedHandler := fun env argv db => do
  let run (key : Bytes) (offset : ℕ) (db : Keyspace) (data : Bytes) : Checked Result := do
    let val ← argAt argv 3
    let data ← copyInto (← grow lim data (offset + val.length)) offset val
    return .marked (db.set key (.string data)) (Reply.integer data.length)
  match parseInt (← argAt argv 2) with
  | none => return .clean db errNotInt
  | some offset =>
    if offset < 0 then return .clean db errNotInt
    else
      let key ← argAt argv 1
      match ← readString db env.now key with
      | (db, .wrongType) => return .clean db errWrongType
      | (db, .absent) => run key offset.toNat db []
      | (db, .present s) => run key offset.toNat db s

end BlazeKV.Checked
