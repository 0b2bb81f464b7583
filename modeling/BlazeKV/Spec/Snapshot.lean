import BlazeKV.Spec.Keyspace
import BlazeKV.Spec.Resp

/-! `persist/snapshot.cpp`. Writes to the file succeed; a read past the end, a string
that is too long or an unknown tag fails the load. -/

namespace BlazeKV

/-- The `w` low bytes of a number, as they lie in memory. -/
def leBytes : ℕ → ℕ → Bytes
  | 0, _ => []
  | w + 1, n => UInt8.ofNat n :: leBytes w (n / 256)

def leNat : Bytes → ℕ
  | [] => 0
  | b :: s => b.toNat + 256 * leNat s

namespace Snapshot

def kMagic : Bytes := ascii "BLAZEKV1"

/-! `Writer` and `write_object`. Lengths are cut to 32 bits. -/

def putStr (s : Bytes) : Bytes := leBytes 4 s.length ++ s

def writeValue : Object → Bytes
  | .string s => putStr s
  | .hll s => putStr s
  | .list l => leBytes 4 l.length ++ l.flatMap putStr
  | .hash h => leBytes 4 h.size ++ h.forEach.flatMap fun e => putStr e.1 ++ putStr e.2
  | .set s => leBytes 4 s.size ++ s.forEach.flatMap fun e => putStr e.1
  | .zset z => leBytes 4 z.size ++ z.dict.forEach.flatMap fun e => putStr e.1 ++ leBytes 8 e.2.bits.toNat

def writeObject (key : Bytes) (deadline : ℕ) (obj : Object) : Bytes :=
  obj.type.code :: (putStr key ++ (leBytes 8 deadline ++ writeValue obj))

def save (db : Keyspace) : Bytes :=
  kMagic ++ (leBytes 8 db.size ++
    db.forEach.flatMap fun e => writeObject e.1 (db.deadlineOrZero e.1) e.2)

/-! `Reader` and `read_object`: what is read, and the bytes behind it. -/

def getBytes (n : ℕ) (s : Bytes) : Option (Bytes × Bytes) :=
  if n ≤ s.length then some (s.take n, s.drop n) else none

def getNat (w : ℕ) (s : Bytes) : Option (ℕ × Bytes) := (getBytes w s).map fun r => (leNat r.1, r.2)

def getStr (s : Bytes) : Option (Bytes × Bytes) :=
  (getNat 4 s).bind fun r => if r.1 > 2 ^ 30 then none else getBytes r.1 r.2

/-- A loop that reads `n` items. -/
def getMany {σ : Type} (item : σ → Bytes → Option (σ × Bytes)) : ℕ → σ → Bytes → Option (σ × Bytes)
  | 0, acc, s => some (acc, s)
  | n + 1, acc, s => (item acc s).bind fun r => getMany item n r.1 r.2

def listItem (l : List Bytes) (s : Bytes) : Option (List Bytes × Bytes) :=
  (getStr s).map fun r => (l ++ [r.1], r.2)

def hashItem (h : Dict Bytes) (s : Bytes) : Option (Dict Bytes × Bytes) :=
  (getStr s).bind fun f => (getStr f.2).map fun v => (h.insert f.1 v.1, v.2)

def setItem (t : Dict UInt8) (s : Bytes) : Option (Dict UInt8 × Bytes) :=
  (getStr s).map fun r => (t.insert r.1 1, r.2)

def zsetItem (levels : Levels) (z : ZSet) (s : Bytes) : Option (ZSet × Bytes) :=
  (getStr s).bind fun m => (getNat 8 m.2).map fun d => ((z.set levels m.1 ⟨UInt64.ofNat d.1⟩).1, d.2)

def readValue (levels : Levels) (type : ℕ) (s : Bytes) : Option (Object × Bytes) :=
  if type = 0 ∨ type = 5 then (getStr s).map fun r => (.string r.1, r.2)
  else if type = 1 then (getNat 4 s).bind fun n =>
    (getMany listItem n.1 [] n.2).map fun r => (.list r.1, r.2)
  else if type = 2 then (getNat 4 s).bind fun n =>
    (getMany hashItem n.1 .empty n.2).map fun r => (.hash r.1, r.2)
  else if type = 3 then (getNat 4 s).bind fun n =>
    (getMany setItem n.1 .empty n.2).map fun r => (.set r.1, r.2)
  else if type = 4 then (getNat 4 s).bind fun n =>
    (getMany (zsetItem levels) n.1 .empty n.2).map fun r => (.zset r.1, r.2)
  else none

/-- What `read_object` does with a key and a value; a deadline of zero is none. -/
def restore (now : ℕ) (db : Keyspace) (key : Bytes) (deadline : ℕ) (obj : Object) : Keyspace :=
  if deadline ≠ 0 ∧ deadline ≤ now then db
  else if deadline ≠ 0 then (db.set key obj).setDeadline key deadline
  else db.set key obj

def readObject (now : ℕ) (levels : Bytes → Levels) (db : Keyspace) (s : Bytes) : Option (Keyspace × Bytes) :=
  (getNat 1 s).bind fun type => (getStr type.2).bind fun key => (getNat 8 key.2).bind fun deadline =>
    (readValue (levels key.1) type.1 deadline.2).map fun obj =>
      (restore now db key.1 deadline.1 obj.1, obj.2)

/-- `load`; the clock and `random_level` are read while it runs. -/
def load (now : ℕ) (levels : Bytes → Levels) (data : Bytes) (db : Keyspace) : Option Keyspace :=
  (getBytes 8 data).bind fun magic =>
    if magic.1 ≠ kMagic then none
    else (getNat 8 magic.2).bind fun count =>
      (getMany (readObject now levels) count.1 db count.2).map Prod.fst

/-! `load` as it leaves the keyspace, and whether it succeeds: what was read in front of an error
stays. The clock is read for every object. -/

def loadObjects (clock : ℕ → ℕ) (levels : Bytes → Levels) : ℕ → Keyspace → Bytes → Keyspace × Bool
  | 0, db, _ => (db, true)
  | n + 1, db, s =>
    match readObject (clock n) levels db s with
    | none => (db, false)
    | some r => loadObjects clock levels n r.1 r.2

def loadInto (clock : ℕ → ℕ) (levels : Bytes → Levels) (data : Bytes) (db : Keyspace) : Keyspace × Bool :=
  match getBytes 8 data with
  | none => (db, false)
  | some magic =>
    if magic.1 ≠ kMagic then (db, false)
    else match getNat 8 magic.2 with
      | none => (db, false)
      | some count => loadObjects clock levels count.1 db count.2

end Snapshot

end BlazeKV
