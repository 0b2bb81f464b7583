import BlazeKV.Spec.Command

/-! `zset_cmds.cpp`. -/

namespace BlazeKV.Cmd

def getZSet := getAs Object.zset?
def makeZSet := getOrMake Object.zset? Object.zset .empty

structure ZAddFlags where
  nx : Bool
  xx : Bool
  ch : Bool
  incr : Bool
  gt : Bool
  lt : Bool

def zaddFlag (f : ZAddFlags) (opt : Bytes) : Option ZAddFlags :=
  if opt = ascii "nx" then some { f with nx := true }
  else if opt = ascii "xx" then some { f with xx := true }
  else if opt = ascii "ch" then some { f with ch := true }
  else if opt = ascii "incr" then some { f with incr := true }
  else if opt = ascii "gt" then some { f with gt := true }
  else if opt = ascii "lt" then some { f with lt := true }
  else none

/-- The leading flags of `ZADD`, and the arguments from the first other one on. -/
def zaddFlags : ZAddFlags → List Bytes → ZAddFlags × List Bytes
  | f, [] => (f, [])
  | f, a :: rest =>
    match zaddFlag f (lowercase a) with
    | some f => zaddFlags f rest
    | none => (f, a :: rest)

structure ZAddState where
  z : ZSet
  added : ℕ
  changed : ℕ
  /-- `last_score`, once `did` is set. -/
  last : Option Double

/-- One round of `ZADD` with a parsed score. -/
def zaddRound (f : ZAddFlags) (levels : Levels) (st : ZAddState) (score : Double)
    (member : Bytes) : ZAddState :=
  match st.z.dict.find member with
  | none =>
    let score := if f.incr then score.add .zero else score
    if f.xx then st
    else ⟨(st.z.set levels member score).1, st.added + 1, st.changed + 1, some score⟩
  | some cur =>
    let score := if f.incr then score.add cur else score
    if f.nx then st
    else if f.gt ∧ score.le cur then st
    else if f.lt ∧ cur.le score then st
    else if cur.eq score then { st with last := some score }
    else ⟨(st.z.set levels member score).1, st.added, st.changed + 1, some score⟩

/-- The loop over the pairs, and whether it meets a score that does not parse. -/
def zaddLoop (f : ZAddFlags) (levels : Levels) : ZAddState → List (Bytes × Bytes) → ZAddState × Bool
  | st, [] => (st, true)
  | st, (s, member) :: rest =>
    match parseDouble s with
    | none => (st, false)
    | some score => zaddLoop f levels (zaddRound f levels st score member) rest

def zaddReply (f : ZAddFlags) (st : ZAddState) : Bytes :=
  if f.incr then st.last.elim Reply.nullBulk Reply.doubleReply
  else Reply.integer (if f.ch then st.changed else st.added)

def zadd : Handler := fun env argv db =>
  let (f, rest) := zaddFlags ⟨false, false, false, false, false, false⟩ (argv.drop 2)
  if rest = [] ∨ rest.length % 2 ≠ 0 then .clean db errSyntax
  else match makeZSet db env.now (arg argv 1) with
    | (db, none) => .clean db errWrongType
    | (db, some z) =>
      let (st, ok) := zaddLoop f env.levels ⟨z, 0, 0, none⟩ (pairs rest)
      let db := db.write (arg argv 1) (.zset st.z)
      if !ok then .clean db errNotFloat
      else
        .markedIf (st.added ≠ 0 ∨ st.changed ≠ 0)
          (if st.z.size = 0 then db.erase (arg argv 1) else db)
          (zaddReply f st)

def zrem : Handler := fun env argv db =>
  match getZSet db env.now (arg argv 1) with
  | (db, .wrongType) => .clean db errWrongType
  | (db, .absent) => .clean db (Reply.integer 0)
  | (db, .present z) =>
    let (z, removed) := countLoop ZSet.remove z (argv.drop 2)
    let db := db.write (arg argv 1) (.zset z)
    .markedIf (removed ≠ 0) (if z.size = 0 then db.erase (arg argv 1) else db)
      (Reply.integer removed)

def zscore : Handler := fun env argv db =>
  match getZSet db env.now (arg argv 1) with
  | (db, .wrongType) => .clean db errWrongType
  | (db, .absent) => .clean db Reply.nullBulk
  | (db, .present z) =>
    .clean db ((z.dict.find (arg argv 2)).elim Reply.nullBulk Reply.doubleReply)

def zcard : Handler := fun env argv db =>
  match getZSet db env.now (arg argv 1) with
  | (db, .wrongType) => .clean db errWrongType
  | (db, .absent) => .clean db (Reply.integer 0)
  | (db, .present z) => .clean db (Reply.integer z.size)

def zrank : Handler := fun env argv db =>
  match getZSet db env.now (arg argv 1) with
  | (db, .wrongType) => .clean db errWrongType
  | (db, .absent) => .clean db Reply.nullBulk
  | (db, .present z) =>
    match z.dict.find (arg argv 2) with
    | none => .clean db Reply.nullBulk
    | some s => .clean db (Reply.integer ((z.sl.rankOf (arg argv 2) s).getD 0 - 1))

def zincrby : Handler := fun env argv db =>
  match parseDouble (arg argv 2) with
  | none => .clean db errNotFloat
  | some delta =>
    match makeZSet db env.now (arg argv 1) with
    | (db, none) => .clean db errWrongType
    | (db, some z) =>
      let v := ((z.dict.find (arg argv 3)).getD .zero).add delta
      .marked (db.write (arg argv 1) (.zset (z.set env.levels (arg argv 3) v).1))
        (Reply.doubleReply v)

def replyNode (withscores : Bool) (n : SkipNode) : Bytes :=
  Reply.bulk n.member ++ if withscores then Reply.doubleReply n.score else []

/-- The reply to element `i` of the range; a rank without a node gives none. -/
def zrangeItem (z : ZSet) (rev withscores : Bool) (i : ℕ) : Bytes :=
  let rank := u32 (if rev then z.size - i else i + 1)
  match z.sl.atRank rank with
  | some (some x) => replyNode withscores (z.sl.node x)
  | _ => []

def zrange : Handler := fun env argv db =>
  let opts := (argv.drop 4).map lowercase
  let withscores := opts.contains (ascii "withscores")
  let rev := opts.contains (ascii "rev")
  match getZSet db env.now (arg argv 1) with
  | (db, .wrongType) => .clean db errWrongType
  | (db, slot) =>
    match parseInt (arg argv 2), parseInt (arg argv 3), slot with
    | some start, some stop, .present z =>
      let (start, stop) := clampRange z.size start stop
      if start > stop ∨ z.size = 0 then .clean db (Reply.arrayHeader 0)
      else
        let count := stop - start + 1
        .clean db (Reply.arrayHeader (if withscores then count * 2 else count) ++
          (List.range' start.toNat count.toNat).flatMap (zrangeItem z rev withscores))
    | some _, some _, _ => .clean db (Reply.arrayHeader 0)
    | _, _, _ => .clean db errNotInt

structure Bound where
  score : Double
  exclusive : Bool

/-- `parse_bound`. -/
def parseBound : Bytes → Option Bound
  | [] => none
  | c :: s => if c = 40 then (parseDouble s).map (⟨·, true⟩) else (parseDouble (c :: s)).map (⟨·, false⟩)

structure ScoreOpts where
  withscores : Bool
  offset : ℤ
  limit : ℤ

/-- The options of `ZRANGEBYSCORE`; a `LIMIT` number that does not parse is left as it was. -/
def scoreOpts : ScoreOpts → List Bytes → ScoreOpts
  | o, [] => o
  | o, a :: b :: c :: rest =>
    if lowercase a = ascii "withscores" then
      scoreOpts { o with withscores := true } (b :: c :: rest)
    else if lowercase a = ascii "limit" then
      scoreOpts { o with
        offset := (parseInt b).getD o.offset, limit := (parseInt c).getD o.limit } rest
    else scoreOpts o (b :: c :: rest)
  | o, a :: rest =>
    if lowercase a = ascii "withscores" then scoreOpts { o with withscores := true } rest
    else scoreOpts o rest

/-- The loop of `ZRANGEBYSCORE` along the lowest level, from node `x` on. -/
def scoreLoop (sl : SkipList) (lo hi : Bound) : ℕ → Option ℕ → List SkipNode
  | 0, _ => []
  | _, none => []
  | fuel + 1, some x =>
    let n := sl.node x
    let next := (sl.lv x 0).forward
    if lo.exclusive ∧ n.score.le lo.score then scoreLoop sl lo hi fuel next
    else if hi.score.lt n.score ∨ (hi.exclusive ∧ hi.score.le n.score) then []
    else n :: scoreLoop sl lo hi fuel next

def cutLimit (o : ScoreOpts) (out : List SkipNode) : List SkipNode :=
  let out := if 0 < o.offset then out.drop o.offset.toNat else out
  if 0 ≤ o.limit then out.take o.limit.toNat else out

def zrangebyscore : Handler := fun env argv db =>
  let o := scoreOpts ⟨false, 0, -1⟩ (argv.drop 4)
  match parseBound (arg argv 2), parseBound (arg argv 3) with
  | some lo, some hi =>
    match getZSet db env.now (arg argv 1) with
    | (db, .wrongType) => .clean db errWrongType
    | (db, .absent) => .clean db (Reply.arrayHeader 0)
    | (db, .present z) =>
      let first := (z.sl.firstGte lo.score).getD none
      let out := cutLimit o (scoreLoop z.sl lo hi (z.sl.length + 1) first)
      .clean db (Reply.arrayHeader (if o.withscores then out.length * 2 else out.length) ++
        out.flatMap (replyNode o.withscores))
  | _, _ => .clean db (Reply.error (ascii "ERR min or max is not a float"))

end BlazeKV.Cmd
