import BlazeKV.Spec.Checked.Base

/-! `server_cmds.cpp` and `hyperloglog.cpp` with their accesses. -/

namespace BlazeKV.Checked

open Lib

/-! HyperLogLog. -/

section Hll

variable (lim : Limits)

def ensure (regs : Bytes) : Checked Bytes := do
  if regs.length ≠ Hll.kRegisters then
    require .length (Hll.kRegisters ≤ lim.string)
    return List.replicate Hll.kRegisters 0
  else return regs

def hllAdd (regs element : Bytes) : Checked (Bytes × Bool) := do
  let regs ← ensure lim regs
  let h := hashBytes element 0xADC83B19
  let idx := h % Hll.kRegisters
  let r := UInt8.ofNat (Hll.rank h)
  if (← charAt regs idx) < r then return (regs.set idx r, true) else return (regs, false)

/-- One round of the loop of `count`. -/
def countRegister (regs : Bytes) (zeros i : ℕ) : Checked ℕ := do
  return if (← charAt regs i) = 0 then zeros + 1 else zeros

/-- `count`: the estimate is that of libm. -/
def hllCount (estimate : Bytes → ℕ) (regs : Bytes) : Checked ℕ := do
  if regs.length ≠ Hll.kRegisters then return 0
  else
    let _ ← (List.range Hll.kRegisters).foldlM (countRegister regs) 0
    return estimate regs

/-- One round of the loop of `merge`. -/
def mergeRegister (src dst : Bytes) (i : ℕ) : Checked Bytes := do
  let s ← charAt src i
  let d ← charAt dst i
  return if d < s then dst.set i s else dst

def merge (dst src : Bytes) : Checked Bytes := do
  let dst ← ensure lim dst
  if src.length ≠ Hll.kRegisters then return dst
  else (List.range Hll.kRegisters).foldlM (mergeRegister src) dst

end Hll

def ping : CheckedHandler := fun _ argv db => do
  if argv.length ≥ 2 then return .clean db (Reply.bulk (← argAt argv 1))
  else return .clean db (Reply.simpleString (ascii "PONG"))

def echo : CheckedHandler := fun _ argv db => do return .clean db (Reply.bulk (← argAt argv 1))

/-! The handlers that read no argument and hold no other access. -/

def select : CheckedHandler := fun env argv db => return Cmd.select env argv db
def reset : CheckedHandler := fun env argv db => return Cmd.reset env argv db
def wait : CheckedHandler := fun env argv db => return Cmd.wait env argv db
def hello : CheckedHandler := fun env argv db => return Cmd.hello env argv db
def dbsize : CheckedHandler := fun env argv db => return Cmd.dbsize env argv db
def flushall : CheckedHandler := fun env argv db => return Cmd.flushall env argv db
def flushdb : CheckedHandler := fun env argv db => return Cmd.flushdb env argv db

def client : CheckedHandler := fun _ argv db => do
  let sub := lowercase (← argAt argv 1)
  let reply := if sub = ascii "id" then Reply.integer 1
    else if sub = ascii "getname" then Reply.nullBulk
    else if sub = ascii "setname" then Reply.simpleString (ascii "OK")
    else if sub = ascii "info" then Reply.bulk (ascii "id=1 addr=127.0.0.1:0 name= db=0")
    else Reply.simpleString (ascii "OK")
  return .clean db reply

def debug : CheckedHandler := fun _ argv db => do
  let sub := lowercase (← argAt argv 1)
  let reply := if sub = ascii "object" then
      Reply.simpleString (ascii "Value at: encoding:raw serializedlength:0")
    else Reply.simpleString (ascii "OK")
  return .clean db reply

def config : CheckedHandler := fun env argv db => do
  if lowercase (← argAt argv 1) = ascii "get" then
    let param ← if argv.length ≥ 3 then lowercase <$> argAt argv 2 else pure []
    let reply := Reply.arrayHeader 2 ++ Reply.bulk (if param = [] then ascii "maxmemory" else param) ++
      Reply.bulk
        (if param = ascii "maxmemory" then decimal env.maxmemory
         else if param = ascii "save" then []
         else if param = ascii "appendonly" then
           (if env.aofEnabled then ascii "yes" else ascii "no")
         else [])
    return .clean db reply
  else return .clean db (Reply.simpleString (ascii "OK"))

def info : CheckedHandler := fun env argv db => do
  let part ← if argv.length ≥ 2 then argAt argv 1 else pure (ascii "default")
  return .clean db (Reply.bulk (env.renderInfo part))

/-- `command_`. -/
def command : CheckedHandler := fun _ argv db => do
  let specs := specsWith Cmd.ping
  let sub ← if argv.length ≥ 2 then lowercase <$> argAt argv 1 else pure []
  let reply := if argv.length ≥ 2 ∧ sub = ascii "count" then Reply.integer specs.length
    else if argv.length ≥ 2 ∧ sub = ascii "docs" then Reply.arrayHeader 0
    else Reply.arrayHeader specs.length ++ specs.flatMap specReply
  return .clean db reply

/-- `o->str()` of a string or of a HyperLogLog; any other value is passed by. -/
def registers (o : Option Object) : Checked (Option Bytes) :=
  match o with
  | none => return none
  | some o => if o.type = .string ∨ o.type = .hll then some <$> o.getStr else return none

section Pf

variable (lim : Limits)

def pfadd : CheckedHandler := fun env argv db => do
  let key ← argAt argv 1
  let run (db : Keyspace) (regs : Bytes) (changed : Bool) : Checked Result := do
    let (regs, changed) ← forFrom .argument argv 2 (fun r x => do
      let (regs, up) ← hllAdd lim r.1 x
      return (regs, r.2 || up)) (regs, changed)
    let db := if changed then db.set key (.string regs) else db
    return .markedIf changed db (Reply.integer (if changed then 1 else 0))
  match ← readHll db env.now key with
  | (db, .wrongType) => return .clean db errWrongType
  | (db, .absent) => run db (← ensure lim []) true
  | (db, .present regs) => run db regs false

/-- One round of the loops over the keys of `PFCOUNT` and `PFMERGE`. -/
def mergeRound (now : ℕ) (r : Keyspace × Bytes) (key : Bytes) : Checked (Keyspace × Bytes) := do
  let (db, o) := r.1.lookup now key
  match ← registers o with
  | none => return (db, r.2)
  | some src => return (db, ← merge lim r.2 src)

def pfcount : CheckedHandler := fun env argv db => do
  let r ← forFrom .argument argv 1 (mergeRound lim env.now) (db, ← ensure lim [])
  return .clean r.1 (Reply.integer (← hllCount env.estimate r.2))

def pfmerge : CheckedHandler := fun env argv db => do
  let key ← argAt argv 1
  let (db, d) := db.lookup env.now key
  let regs ← ensure lim ((← registers d).getD [])
  let r ← forFrom .argument argv 1 (mergeRound lim env.now) (db, regs)
  return .marked (r.1.set key (.string r.2)) (Reply.simpleString (ascii "OK"))

end Pf

end BlazeKV.Checked
