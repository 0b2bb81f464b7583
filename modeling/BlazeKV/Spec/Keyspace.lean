import BlazeKV.Spec.Object

/-! `keyspace.hpp`: the values and the deadlines of one shard. The clock reading
is an argument; deadlines are absolute milliseconds. -/

namespace BlazeKV

structure Keyspace where
  dict : Dict Object
  expires : Dict ℕ
  expired : ℕ

namespace Keyspace

def empty : Keyspace := ⟨.empty, .empty, 0⟩

/-- `erase`, and whether the key was in the dictionary. -/
def eraseKey (db : Keyspace) (key : Bytes) : Keyspace × Bool :=
  ({ db with expires := db.expires.erase key, dict := db.dict.erase key }, (db.dict.eraseKey key).2)

def erase (db : Keyspace) (key : Bytes) : Keyspace := (db.eraseKey key).1

/-- `lookup`: a key whose deadline has passed is erased first. -/
def lookup (db : Keyspace) (now : ℕ) (key : Bytes) : Keyspace × Option Object :=
  match db.dict.find key with
  | none => (db, none)
  | some obj =>
    if db.expires.size ≠ 0 then
      match db.expires.find key with
      | some dl =>
        if dl ≤ now then ({ db.erase key with expired := db.expired + 1 }, none) else (db, some obj)
      | none => (db, some obj)
    else (db, some obj)

def existsKey (db : Keyspace) (now : ℕ) (key : Bytes) : Keyspace × Bool :=
  ((db.lookup now key).1, (db.lookup now key).2.isSome)

def set (db : Keyspace) (key : Bytes) (value : Object) : Keyspace :=
  { db with expires := db.expires.erase key, dict := db.dict.insert key value }

/-- Changing an object in place, through the pointer of `lookup` or `set`. -/
def write (db : Keyspace) (key : Bytes) (value : Object) : Keyspace :=
  { db with dict := db.dict.write key value }

def setDeadline (db : Keyspace) (key : Bytes) (deadline : ℕ) : Keyspace :=
  { db with expires := db.expires.insert key deadline }

def persist (db : Keyspace) (key : Bytes) : Keyspace × Bool :=
  ({ db with expires := db.expires.erase key }, (db.expires.eraseKey key).2)

/-- `-1` for no deadline, `-2` for no key, else the milliseconds that remain. -/
def ttlMs (db : Keyspace) (now : ℕ) (key : Bytes) : Keyspace × ℤ :=
  let (db, found) := db.existsKey now key
  if !found then (db, -2)
  else match db.expires.find key with
    | none => (db, -1)
    | some dl => (db, if dl > now then i64 (u64 (dl - now)) else 0)

def deadlineOrZero (db : Keyspace) (key : Bytes) : ℕ := (db.expires.find key).getD 0

def size (db : Keyspace) : ℕ := db.dict.size

def clear (db : Keyspace) : Keyspace := { db with dict := db.dict.clear, expires := db.expires.clear }

def forEach (db : Keyspace) : List (Bytes × Object) := db.dict.forEach

/-- The dead keys among the first `budget` entries of the table of deadlines. -/
def deadKeys (db : Keyspace) (now budget : ℕ) : List Bytes :=
  ((db.expires.forEach.take budget).filter fun e => e.2 ≤ now).map Prod.fst

/-- `active_expire_cycle`, and the keys it has expired. -/
def activeExpireCycle (db : Keyspace) (now budget : ℕ) : Keyspace × List Bytes :=
  if db.expires.size = 0 then (db, [])
  else ((db.deadKeys now budget).foldl
    (fun db k => { db.erase k with expired := db.expired + 1 }) db, db.deadKeys now budget)

end Keyspace

end BlazeKV
