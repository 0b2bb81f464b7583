import BlazeKV.Spec.Checked.Lists
import BlazeKV.Spec.Checked.SkipList

/-! `zset_cmds.cpp` with its accesses. -/

namespace BlazeKV.Checked

open Lib
open Cmd (ZAddFlags ZAddState zaddFlag zaddReply Bound ScoreOpts cutLimit replyNode)

/-- The first loop of `ZADD`: the flags, and the argument that ends it. -/
def zaddFlags (argv : List Bytes) : ℕ → ℕ → ZAddFlags → Checked (ZAddFlags × ℕ)
  | 0, _, _ => .error .endless
  | fuel + 1, i, f => do
    if i < argv.length then
      match zaddFlag f (lowercase (← argAt argv i)) with
      | some f => zaddFlags argv fuel (i + 1) f
      | none => return (f, i)
    else return (f, i)

/-- One round of `ZADD`, and whether the loop goes on. -/
def zaddRound (f : ZAddFlags) (levels : Levels) (st : ZAddState) (score : Double) (member : Bytes) :
    Checked ZAddState := do
  match st.z.dict.find member with
  | none =>
    let score := if f.incr then score.add .zero else score
    if f.xx then return st
    else return ⟨(← zsetSet st.z levels member score).1, st.added + 1, st.changed + 1, some score⟩
  | some cur =>
    let score := if f.incr then score.add cur else score
    if f.nx then return st
    else if f.gt ∧ score.le cur then return st
    else if f.lt ∧ cur.le score then return st
    else if cur.eq score then return { st with last := some score }
    else return ⟨(← zsetSet st.z levels member score).1, st.added, st.changed + 1, some score⟩

/-- The second loop of `ZADD` from argument `i` on, and whether every score parses. -/
def zaddLoop (f : ZAddFlags) (levels : Levels) (argv : List Bytes) : ℕ → ℕ → ZAddState → Checked (ZAddState × Bool)
  | 0, _, _ => .error .endless
  | fuel + 1, i, st => do
    if i + 1 < argv.length then
      match parseDouble (← argAt argv i) with
      | none => return (st, false)
      | some score =>
        let st ← zaddRound f levels st score (← argAt argv (i + 1))
        zaddLoop f levels argv fuel (i + 2) st
    else return (st, true)

def zadd : CheckedHandler := fun env argv db => do
  let (f, i) ← zaddFlags argv (argv.length + 1) 2 ⟨false, false, false, false, false, false⟩
  if i ≥ argv.length ∨ (argv.length - i) % 2 ≠ 0 then return .clean db errSyntax
  else
    let key ← argAt argv 1
    match ← openZSet db env.now key with
    | (db, none) => return .clean db errWrongType
    | (db, some z) =>
      let (st, ok) ← zaddLoop f env.levels argv (argv.length + 1) i ⟨z, 0, 0, none⟩
      let db := db.write key (.zset st.z)
      if !ok then return .clean db errNotFloat
      else
        let db := if st.z.size = 0 then db.erase key else db
        return .markedIf (st.added ≠ 0 ∨ st.changed ≠ 0) db (zaddReply f st)

def zrem : CheckedHandler := fun env argv db => do
  let key ← argAt argv 1
  match ← readZSet db env.now key with
  | (db, .wrongType) => return .clean db errWrongType
  | (db, .absent) => return .clean db (Reply.integer 0)
  | (db, .present z) =>
    let (z, removed) ← forFrom .argument argv 2 (fun r m => do
      let (z, gone) ← zsetRemove r.1 m
      return (z, if gone then r.2 + 1 else r.2)) (z, (0 : ℕ))
    let db := db.write key (.zset z)
    let db := if z.size = 0 then db.erase key else db
    return .markedIf (removed ≠ 0) db (Reply.integer removed)

def zscore : CheckedHandler := fun env argv db => do
  match ← readZSet db env.now (← argAt argv 1) with
  | (db, .wrongType) => return .clean db errWrongType
  | (db, .absent) => return .clean db Reply.nullBulk
  | (db, .present z) => return .clean db ((z.dict.find (← argAt argv 2)).elim Reply.nullBulk Reply.doubleReply)

def zcard : CheckedHandler := sizeBy readZSet ZSet.size

def zrank : CheckedHandler := fun env argv db => do
  match ← readZSet db env.now (← argAt argv 1) with
  | (db, .wrongType) => return .clean db errWrongType
  | (db, .absent) => return .clean db Reply.nullBulk
  | (db, .present z) =>
    let member ← argAt argv 2
    match z.dict.find member with
    | none => return .clean db Reply.nullBulk
    | some s =>
      let rank ← rankOf z.sl member s
      return .clean db (Reply.integer (rank - 1))

def zincrby : CheckedHandler := fun env argv db => do
  match parseDouble (← argAt argv 2) with
  | none => return .clean db errNotFloat
  | some delta =>
    let key ← argAt argv 1
    match ← openZSet db env.now key with
    | (db, none) => return .clean db errWrongType
    | (db, some z) =>
      let member ← argAt argv 3
      let v := ((z.dict.find member).getD .zero).add delta
      let z := (← zsetSet z env.levels member v).1
      return .marked (db.write key (.zset z)) (Reply.doubleReply v)

/-- One round of the last loop of `ZRANGE`. -/
def zrangeItem (z : ZSet) (rev withscores : Bool) (out : Bytes) (i : ℕ) : Checked Bytes := do
  match ← atRank z.sl (u32 (if rev then z.size - i else i + 1)) with
  | some x => return out ++ replyNode withscores (← node z.sl x)
  | none => return out

def zrange : CheckedHandler := fun env argv db => do
  let (withscores, rev) ← forFrom .argument argv 4 (fun o a =>
    return if lowercase a = ascii "withscores" then (true, o.2)
      else if lowercase a = ascii "rev" then (o.1, true) else o) (false, false)
  match ← readZSet db env.now (← argAt argv 1) with
  | (db, .wrongType) => return .clean db errWrongType
  | (db, slot) =>
    match ← readRange argv with
    | none => return .clean db errNotInt
    | some r =>
      match slot with
      | .present z =>
        let (start, stop) := clampRange z.size r.1 r.2
        if start > stop ∨ z.size = 0 then return .clean db (Reply.arrayHeader 0)
        else
          let count := stop - start + 1
          let reply ← (List.range' start.toNat count.toNat).foldlM (zrangeItem z rev withscores)
            (Reply.arrayHeader (if withscores then count * 2 else count))
          return .clean db reply
      | _ => return .clean db (Reply.arrayHeader 0)

/-- `parse_bound`. -/
def parseBound (s : Bytes) : Checked (Option Bound) := do
  if s ≠ [] then
    if (← charAt s 0) = 40 then return (parseDouble s.tail).map (⟨·, true⟩)
    else return (parseDouble s).map (⟨·, false⟩)
  else return (parseDouble s).map (⟨·, false⟩)

/-- The loop over the options of `ZRANGEBYSCORE`. -/
def scoreOpts (argv : List Bytes) : ℕ → ℕ → ScoreOpts → Checked ScoreOpts
  | 0, _, _ => .error .endless
  | fuel + 1, i, o => do
    if i < argv.length then
      let opt := lowercase (← argAt argv i)
      if opt = ascii "withscores" then scoreOpts argv fuel (i + 1) { o with withscores := true }
      else if opt = ascii "limit" ∧ i + 2 < argv.length then
        let offset := (parseInt (← argAt argv (i + 1))).getD o.offset
        let limit := (parseInt (← argAt argv (i + 2))).getD o.limit
        scoreOpts argv fuel (i + 3) { o with offset := offset, limit := limit }
      else scoreOpts argv fuel (i + 1) o
    else return o

/-- The loop of `ZRANGEBYSCORE` along the lowest level. -/
def scoreLoop (sl : SkipList) (lo hi : Bound) : ℕ → Option ℕ → Checked (List SkipNode)
  | _, none => return []
  | 0, some _ => .error .endless
  | fuel + 1, some x => do
    let n ← node sl x
    if lo.exclusive ∧ n.score.le lo.score then scoreLoop sl lo hi fuel (← lv sl x 0).forward
    else if hi.score.lt n.score ∨ (hi.exclusive ∧ hi.score.le n.score) then return []
    else return n :: (← scoreLoop sl lo hi fuel (← lv sl x 0).forward)

def zrangebyscore : CheckedHandler := fun env argv db => do
  let o ← scoreOpts argv (argv.length + 1) 4 ⟨false, 0, -1⟩
  match ← parseBound (← argAt argv 2) with
  | none => return .clean db (Reply.error (ascii "ERR min or max is not a float"))
  | some lo =>
    match ← parseBound (← argAt argv 3) with
    | none => return .clean db (Reply.error (ascii "ERR min or max is not a float"))
    | some hi =>
      match ← readZSet db env.now (← argAt argv 1) with
      | (db, .wrongType) => return .clean db errWrongType
      | (db, .absent) => return .clean db (Reply.arrayHeader 0)
      | (db, .present z) =>
        let first ← firstGte z.sl lo.score
        -- `erase` and `resize` only shorten `out`
        let out := cutLimit o (← scoreLoop z.sl lo hi (z.sl.length + 1) first)
        let reply := Reply.arrayHeader (if o.withscores then out.length * 2 else out.length) ++
          out.flatMap (replyNode o.withscores)
        return .clean db reply

end BlazeKV.Checked
