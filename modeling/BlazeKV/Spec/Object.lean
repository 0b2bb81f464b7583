import BlazeKV.Spec.Dict
import BlazeKV.Spec.SkipList

/-! `object.hpp`: the values of the store. A sorted set is updated in both of its
structures; the outcomes of `random_level` come from outside, one for each node
a skip list has allocated. -/

namespace BlazeKV

inductive ObjType
  | string
  | list
  | hash
  | set
  | zset
  | hll
  deriving DecidableEq

/-- The tag that a snapshot stores. -/
def ObjType.code : ObjType → UInt8
  | string => 0
  | list => 1
  | hash => 2
  | set => 3
  | zset => 4
  | hll => 5

def typeName : ObjType → Bytes
  | .string => ascii "string"
  | .list => ascii "list"
  | .hash => ascii "hash"
  | .set => ascii "set"
  | .zset => ascii "zset"
  | .hll => ascii "string"

/-- `random_level()` of the node that a skip list allocates `n`-th. -/
abbrev Levels := ℕ → Fin kMaxLevel

structure ZSet where
  dict : Dict Double
  sl : SkipList

namespace ZSet

def empty : ZSet := ⟨.empty, .new⟩

def size (z : ZSet) : ℕ := z.dict.size

/-- `sl.insert` and `sl.erase`; their walks always end. -/
def slInsert (sl : SkipList) (levels : Levels) (member : Bytes) (score : Double) : SkipList :=
  (sl.insert member score (levels sl.next + 1)).getD sl

def slErase (sl : SkipList) (member : Bytes) (score : Double) : SkipList :=
  ((sl.erase member score).map Prod.fst).getD sl

/-- `set`, and whether the member is new. -/
def set (z : ZSet) (levels : Levels) (member : Bytes) (score : Double) : ZSet × Bool :=
  match z.dict.find member with
  | some cur =>
    if cur.eq score then (z, false)
    else (⟨z.dict.write member score,
      slInsert (slErase z.sl member cur) levels member score⟩, false)
  | none => (⟨z.dict.insert member score, slInsert z.sl levels member score⟩, true)

def remove (z : ZSet) (member : Bytes) : ZSet × Bool :=
  match z.dict.find member with
  | some cur => (⟨z.dict.erase member, slErase z.sl member cur⟩, true)
  | none => (z, false)

end ZSet

inductive Object
  | string (s : Bytes)
  | list (l : List Bytes)
  | hash (h : Dict Bytes)
  | set (s : Dict UInt8)
  | zset (z : ZSet)
  | hll (s : Bytes)

namespace Object

instance : Inhabited Object := ⟨.string []⟩

def type : Object → ObjType
  | string _ => .string
  | list _ => .list
  | hash _ => .hash
  | set _ => .set
  | zset _ => .zset
  | hll _ => .hll

/-! The typed accessors; each handler takes the values of one type. -/

def string? : Object → Option Bytes
  | string s => some s
  | _ => none

def list? : Object → Option (List Bytes)
  | list l => some l
  | _ => none

def hash? : Object → Option (Dict Bytes)
  | hash h => some h
  | _ => none

def set? : Object → Option (Dict UInt8)
  | set s => some s
  | _ => none

def zset? : Object → Option ZSet
  | zset z => some z
  | _ => none

/-- The string of a string or of a HyperLogLog. -/
def str? : Object → Option Bytes
  | string s => some s
  | hll s => some s
  | _ => none

end Object

end BlazeKV
