import BlazeKV.Spec.Keyspace
import BlazeKV.Spec.Resp

/-! `command.hpp`: what a handler reads and returns. The rest of the server
reaches a handler only through the fields of `Env`: one clock reading, the
outcomes of `random_level`, the estimator of `hyperloglog.cpp` (libm), the vector
indexes, and the data of the commands about the whole server. -/

namespace BlazeKV

structure Env where
  now : ℕ
  levels : Levels
  estimate : Bytes → ℕ
  /-- Reply and dirty flag of a vector command. -/
  vector : List Bytes → Bytes × Bool
  dbsize : ℕ
  renderInfo : Bytes → Bytes
  version : Bytes
  maxmemory : ℕ
  aofEnabled : Bool

/-- An environment in which only the clock matters. -/
def Env.quiet (now : ℕ) : Env where
  now := now
  levels _ := ⟨0, kMaxLevel_pos⟩
  estimate _ := 0
  vector _ := ([], false)
  dbsize := 0
  renderInfo _ := []
  version := []
  maxmemory := 0
  aofEnabled := true

/-- `flush` asks for `flush()` on the other shards. -/
structure Result where
  db : Keyspace
  reply : Bytes
  dirty : Bool
  flush : Bool

namespace Result

def clean (db : Keyspace) (reply : Bytes) : Result := ⟨db, reply, false, false⟩
def marked (db : Keyspace) (reply : Bytes) : Result := ⟨db, reply, true, false⟩
def markedIf (dirty : Bool) (db : Keyspace) (reply : Bytes) : Result := ⟨db, reply, dirty, false⟩

@[simp] theorem clean_db (db : Keyspace) (reply : Bytes) : (clean db reply).db = db := rfl
@[simp] theorem marked_db (db : Keyspace) (reply : Bytes) : (marked db reply).db = db := rfl
@[simp] theorem markedIf_db (dirty : Bool) (db : Keyspace) (reply : Bytes) :
    (markedIf dirty db reply).db = db := rfl

end Result

abbrev Handler := Env → List Bytes → Keyspace → Result

def arg (argv : List Bytes) (i : ℕ) : Bytes := argv.getD i []

/-- `cmd.name()`. -/
def cmdName (argv : List Bytes) : Bytes := arg argv 0

def errWrongArgs (name : Bytes) : Bytes :=
  Reply.error (ascii "ERR wrong number of arguments for '" ++ name ++ ascii "' command")
def errWrongType : Bytes :=
  Reply.error (ascii "WRONGTYPE Operation against a key holding the wrong kind of value")
def errNotInt : Bytes := Reply.error (ascii "ERR value is not an integer or out of range")
def errNotFloat : Bytes := Reply.error (ascii "ERR value is not a valid float")
def errSyntax : Bytes := Reply.error (ascii "ERR syntax error")
def errNoSuchKey : Bytes := Reply.error (ascii "ERR no such key")

/-- What a handler of one type finds at a key. -/
inductive Found (α : Type)
  | absent
  | wrongType
  | present (a : α)

/-- The typed lookups `get_string`, `get_list`, `get_hash`, `get_set`, `get_zset`
and `get_hll`, by the accessor of the type. -/
def getAs {α : Type} (view : Object → Option α) (db : Keyspace) (now : ℕ) (key : Bytes) :
    Keyspace × Found α :=
  match db.lookup now key with
  | (db, none) => (db, .absent)
  | (db, some o) => (db, match view o with
    | some a => .present a
    | none => .wrongType)

/-- The lookup of a handler that makes a missing container; `none` for a wrong type. -/
def getOrMake {α : Type} (view : Object → Option α) (make : α → Object) (fresh : α) (db : Keyspace)
    (now : ℕ) (key : Bytes) : Keyspace × Option α :=
  match getAs view db now key with
  | (db, .absent) => (db.set key (make fresh), some fresh)
  | (db, .wrongType) => (db, none)
  | (db, .present a) => (db, some a)

/-- `for (i = start; i + 1 < argc; i += 2)` over the arguments from `start` on. -/
def pairs : List Bytes → List (Bytes × Bytes)
  | a :: b :: rest => (a, b) :: pairs rest
  | _ => []

/-- A loop over arguments that counts the rounds with a positive outcome. -/
def countLoop {σ α : Type} (step : σ → α → σ × Bool) (s : σ) (xs : List α) : σ × ℕ :=
  xs.foldl (fun r x => ((step r.1 x).1, if (step r.1 x).2 then r.2 + 1 else r.2)) (s, 0)

/-- `start` and `stop` of a range request: counted from the end where negative, and
clamped to a sequence of length `len`. -/
def clampRange (len start stop : ℤ) : ℤ × ℤ :=
  let start := if start < 0 then max 0 (len + start) else start
  let stop := if stop < 0 then len + stop else stop
  (start, if stop ≥ len then len - 1 else stop)

end BlazeKV
