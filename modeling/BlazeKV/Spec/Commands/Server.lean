import BlazeKV.Spec.Command
import BlazeKV.Spec.Hash

/-! `server_cmds.cpp` and `hyperloglog.cpp`. The handlers of the vector commands
work on the vector indexes, which the keyspace does not hold: here they are only
their reply. -/

namespace BlazeKV

namespace Hll

def kPrecision : ℕ := 14
def kRegisters : ℕ := 2 ^ kPrecision

/-- Trailing zeros below bit `n`. -/
def ctz (x : ℕ) : ℕ → ℕ
  | 0 => 0
  | n + 1 => if x % 2 = 1 then 0 else 1 + ctz (x / 2) n

def rank (hash : ℕ) : ℕ :=
  let tail := hash / 2 ^ kPrecision
  if tail = 0 then 64 - kPrecision + 1 else ctz tail 64 + 1

def ensure (regs : Bytes) : Bytes :=
  if regs.length ≠ kRegisters then List.replicate kRegisters 0 else regs

/-- `add`, and whether a register has changed. -/
def add (regs element : Bytes) : Bytes × Bool :=
  let regs := ensure regs
  let h := hashBytes element 0xADC83B19
  let idx := h % kRegisters
  let r := UInt8.ofNat (rank h)
  if regs.getD idx 0 < r then (regs.set idx r, true) else (regs, false)

def merge (dst src : Bytes) : Bytes :=
  let dst := ensure dst
  if src.length ≠ kRegisters then dst else List.zipWith (fun d s => if d < s then s else d) dst src

end Hll

namespace Cmd

def ping : Handler := fun _ argv db =>
  .clean db (if argv.length ≥ 2 then Reply.bulk (arg argv 1) else Reply.simpleString (ascii "PONG"))

def echo : Handler := fun _ argv db => .clean db (Reply.bulk (arg argv 1))
def select : Handler := fun _ _ db => .clean db (Reply.simpleString (ascii "OK"))
def reset : Handler := fun _ _ db => .clean db (Reply.simpleString (ascii "RESET"))
def wait : Handler := fun _ _ db => .clean db (Reply.integer 0)

def hello : Handler := fun env _ db =>
  .clean db (Reply.arrayHeader 14 ++ Reply.bulk (ascii "server") ++ Reply.bulk (ascii "blazekv") ++
    Reply.bulk (ascii "version") ++ Reply.bulk env.version ++
    Reply.bulk (ascii "proto") ++ Reply.integer 2 ++ Reply.bulk (ascii "id") ++ Reply.integer 1 ++
    Reply.bulk (ascii "mode") ++ Reply.bulk (ascii "standalone") ++
    Reply.bulk (ascii "role") ++ Reply.bulk (ascii "master") ++
    Reply.bulk (ascii "modules") ++ Reply.arrayHeader 0)

def client : Handler := fun _ argv db =>
  let sub := lowercase (arg argv 1)
  .clean db
    (if sub = ascii "id" then Reply.integer 1
     else if sub = ascii "getname" then Reply.nullBulk
     else if sub = ascii "setname" then Reply.simpleString (ascii "OK")
     else if sub = ascii "info" then Reply.bulk (ascii "id=1 addr=127.0.0.1:0 name= db=0")
     else Reply.simpleString (ascii "OK"))

def debug : Handler := fun _ argv db =>
  let sub := lowercase (arg argv 1)
  .clean db
    (if sub = ascii "object" then
       Reply.simpleString (ascii "Value at: encoding:raw serializedlength:0")
     else Reply.simpleString (ascii "OK"))

def config : Handler := fun env argv db =>
  if lowercase (arg argv 1) = ascii "get" then
    let param := if argv.length ≥ 3 then lowercase (arg argv 2) else []
    .clean db (Reply.arrayHeader 2 ++ Reply.bulk (if param = [] then ascii "maxmemory" else param) ++
      Reply.bulk
        (if param = ascii "maxmemory" then decimal env.maxmemory
         else if param = ascii "save" then []
         else if param = ascii "appendonly" then
           (if env.aofEnabled then ascii "yes" else ascii "no")
         else []))
  else .clean db (Reply.simpleString (ascii "OK"))

def dbsize : Handler := fun env _ db => .clean db (Reply.integer env.dbsize)

def info : Handler := fun env argv db =>
  .clean db (Reply.bulk
    (env.renderInfo (if argv.length ≥ 2 then arg argv 1 else ascii "default")))

/-- `FLUSHALL` and `FLUSHDB` on their own shard. -/
def flushall : Handler := fun _ _ db => ⟨db.clear, Reply.simpleString (ascii "OK"), false, true⟩
def flushdb : Handler := flushall

def getHll := getAs Object.str?

def pfadd : Handler := fun env argv db =>
  let run (db : Keyspace) (regs : Bytes) (changed : Bool) : Result :=
    let (regs, changed) := (argv.drop 2).foldl
      (fun r x => ((Hll.add r.1 x).1, r.2 || (Hll.add r.1 x).2)) (regs, changed)
    .markedIf changed (if changed then db.set (arg argv 1) (.string regs) else db)
      (Reply.integer (if changed then 1 else 0))
  match getHll db env.now (arg argv 1) with
  | (db, .wrongType) => .clean db errWrongType
  | (db, .absent) => run db (Hll.ensure []) true
  | (db, .present regs) => run db regs false

/-- One round of the loops over the keys of `PFCOUNT` and `PFMERGE`. -/
def mergeRound (now : ℕ) (r : Keyspace × Bytes) (key : Bytes) : Keyspace × Bytes :=
  let (db, o) := r.1.lookup now key
  (db, (o.bind Object.str?).elim r.2 (Hll.merge r.2))

def pfcount : Handler := fun env argv db =>
  let r := argv.tail.foldl (mergeRound env.now) (db, Hll.ensure [])
  .clean r.1 (Reply.integer (env.estimate r.2))

def pfmerge : Handler := fun env argv db =>
  let (db, d) := db.lookup env.now (arg argv 1)
  let regs := Hll.ensure ((d.bind Object.str?).getD [])
  let r := argv.tail.foldl (mergeRound env.now) (db, regs)
  .marked (r.1.set (arg argv 1) (.string r.2)) (Reply.simpleString (ascii "OK"))

def vadd : Handler := fun env argv db => .markedIf (env.vector argv).2 db (env.vector argv).1
def vsim : Handler := fun env argv db => .clean db (env.vector argv).1
def vcard : Handler := fun env argv db => .clean db (env.vector argv).1
def vrem : Handler := fun env argv db => .markedIf (env.vector argv).2 db (env.vector argv).1

end Cmd

end BlazeKV
