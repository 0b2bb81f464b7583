import BlazeKV.Lib.Stdio
import BlazeKV.Spec.Snapshot

/-! `snapshot::save` with the calls of stdio, each of which may fail. -/

namespace BlazeKV.Snapshot

structure Writer where
  file : Lib.Stream UInt8
  ok : Bool

/-- `Writer::bytes`. -/
def Writer.bytes (t : Lib.Transfer) (w : Writer) (p : Bytes) : Writer :=
  if w.ok then ⟨(w.file.fwrite t p).1, (w.file.fwrite t p).2 = p.length⟩ else w

/-! What is handed to `fwrite`, call by call. -/

def strCalls (s : Bytes) : List Bytes := [leBytes 4 s.length, s]

def valueCalls : Object → List Bytes
  | .string s => strCalls s
  | .hll s => strCalls s
  | .list l => leBytes 4 l.length :: l.flatMap strCalls
  | .hash h => leBytes 4 h.size :: h.forEach.flatMap fun e => strCalls e.1 ++ strCalls e.2
  | .set s => leBytes 4 s.size :: s.forEach.flatMap fun e => strCalls e.1
  | .zset z => leBytes 4 z.size :: z.dict.forEach.flatMap fun e => strCalls e.1 ++ [leBytes 8 e.2.bits.toNat]

def objectCalls (key : Bytes) (deadline : ℕ) (obj : Object) : List Bytes :=
  [obj.type.code] :: (strCalls key ++ (leBytes 8 deadline :: valueCalls obj))

def saveCalls (db : Keyspace) : List Bytes :=
  kMagic :: leBytes 8 db.size :: db.forEach.flatMap fun e => objectCalls e.1 (db.deadlineOrZero e.1) e.2

/-- What the calls of one `save` make of it: for each `fwrite`, by its number, what it does,
and how many bytes reach the file in `fflush` and in `fclose`. -/
structure Outcomes where
  opened : Bool
  transfers : ℕ → Lib.Transfer
  flushed : ℕ
  closed : ℕ
  renamed : Bool

/-- The snapshot of a shard and the temporary file beside it. -/
structure Dir where
  target : Option Bytes
  tmp : Option Bytes

/-- The calls of `fwrite`, one after another. -/
def Writer.writeAll (o : Outcomes) (w : Writer) (calls : List (Bytes × ℕ)) : Writer :=
  calls.foldl (fun w e => w.bytes (o.transfers e.2) e.1) w

/-- `save`, and whether it reports success. What `fflush` and `fclose` return is not read. -/
def saveFile (o : Outcomes) (db : Keyspace) (d : Dir) : Dir × Bool :=
  if o.opened then
    let w := Writer.writeAll o ⟨⟨[], []⟩, true⟩ (saveCalls db).zipIdx
    let file := ((w.file.drain o.flushed).drain o.closed).disk
    if w.ok then
      if o.renamed then (⟨some file, none⟩, true) else (⟨d.target, some file⟩, false)
    else (⟨d.target, none⟩, false)
  else (d, false)

end BlazeKV.Snapshot
