import BlazeKV.Lib.Faults
import BlazeKV.Spec.Registry

/-! The handlers again, with every access that the language does not forgive: an argument
past `argc`, `std::get` of another alternative, an index or a `front` outside its container,
a pointer to a node that is gone, and a length beyond `max_size()`. The lookups in a `SwissTable`
are those of the keyspace. A container or the reply that grows by what is already in
memory is a matter of memory, and memory does not run out here. -/

namespace BlazeKV

open Lib

inductive Fault
  | argument
  | variant
  | range
  | pointer
  | length
  /-- A loop that goes on after the rounds that it is given. -/
  | endless
  deriving DecidableEq

abbrev Checked := Except Fault

abbrev CheckedHandler := Env → List Bytes → Keyspace → Checked Result

/-- `max_size()` of `std::string` and of the vectors in use. It depends on the library, which
gives far more than any length that is fixed here. -/
structure Limits where
  string : ℕ
  vector : ℕ
  string_large : 2 ^ 32 ≤ string
  vector_large : 2 ^ 32 ≤ vector

/-- `c.arg(i)`. -/
def argAt (argv : List Bytes) (i : ℕ) : Checked Bytes := readAt .argument argv i

/-- A character of a string. -/
def charAt (s : Bytes) (i : ℕ) : Checked UInt8 := readAt .range s i

/-- `front()`. -/
def front {α : Type} (l : List α) : Checked α := need .range l.head?

/-- `back()`. -/
def back {α : Type} (l : List α) : Checked α := need .range l.getLast?

/-- `s.substr(pos, n)`. -/
def substr (s : Bytes) (pos n : ℕ) : Checked Bytes := do
  require .range (pos ≤ s.length)
  return (s.drop pos).take n

/-! The accessors of `Object`: each is a `std::get` of its alternative. -/

namespace Object

def getStr (o : Object) : Checked Bytes := need .variant o.str?
def getList (o : Object) : Checked (List Bytes) := need .variant o.list?
def getHash (o : Object) : Checked (Dict Bytes) := need .variant o.hash?
def getSet (o : Object) : Checked (Dict UInt8) := need .variant o.set?
def getZSet (o : Object) : Checked ZSet := need .variant o.zset?

end Object

namespace Checked

/-- `get_string` and its siblings: what is at the key, by its type. -/
def getTyped (types : List ObjType) (db : Keyspace) (now : ℕ) (key : Bytes) : Keyspace × Found Object :=
  match db.lookup now key with
  | (db, none) => (db, .absent)
  | (db, some o) => (db, if o.type ∈ types then .present o else .wrongType)

/-- The typed lookup and the accessor that its callers use on what it finds. -/
def readAs {α : Type} (types : List ObjType) (access : Object → Checked α) (db : Keyspace) (now : ℕ) (key : Bytes) :
    Checked (Keyspace × Found α) :=
  match getTyped types db now key with
  | (db, .absent) => return (db, .absent)
  | (db, .wrongType) => return (db, .wrongType)
  | (db, .present o) => do return (db, .present (← access o))

def readString := readAs [.string] Object.getStr
def readList := readAs [.list] Object.getList
def readHash := readAs [.hash] Object.getHash
def readSet := readAs [.set] Object.getSet
def readZSet := readAs [.zset] Object.getZSet
/-- `get_hll`. -/
def readHll := readAs [.string, .hll] Object.getStr

/-- The typed lookup of a handler that makes a missing container, with the accessor that it uses on
either. -/
def readOrMake {α : Type} (types : List ObjType) (access : Object → Checked α) (fresh : Object) (db : Keyspace)
    (now : ℕ) (key : Bytes) : Checked (Keyspace × Option α) :=
  match getTyped types db now key with
  | (db, .wrongType) => return (db, none)
  | (db, .absent) => do return (db.set key fresh, some (← access fresh))
  | (db, .present o) => do return (db, some (← access o))

def openList := readOrMake [.list] Object.getList (.list [])
def openHash := readOrMake [.hash] Object.getHash (.hash .empty)
def openSet := readOrMake [.set] Object.getSet (.set .empty)
def openZSet := readOrMake [.zset] Object.getZSet (.zset .empty)

/-- The loops over arguments that count the rounds with a positive outcome. -/
def countArgs {σ : Type} (argv : List Bytes) (start : ℕ) (step : σ → Bytes → σ × Bool) (s : σ) : Checked (σ × ℕ) :=
  forFrom .argument argv start
    (fun r x => return ((step r.1 x).1, if (step r.1 x).2 then r.2 + 1 else r.2)) (s, 0)

/-- `parse_int(c.arg(2), start) && parse_int(c.arg(3), stop)`. -/
def readRange (argv : List Bytes) : Checked (Option (ℤ × ℤ)) := do
  match parseInt (← argAt argv 2) with
  | none => return none
  | some start => return (parseInt (← argAt argv 3)).map fun stop => (start, stop)

end Checked

end BlazeKV
