import BlazeKV.Spec.Checked.Base

/-! `skiplist.hpp` and the updates of `ZSetType` with their accesses: a node that is not on the heap
is a dangling pointer, and `level[i]` must be below the height of the node. -/

namespace BlazeKV.Checked

open Lib
open SkipList (before isAt emptyNode)

section SkipList

variable (sl : SkipList)

def node (x : ℕ) : Checked SkipNode := need .pointer (sl.heap x)

/-- `x->level[i]`. -/
def lv (x i : ℕ) : Checked Level := do readAt .range (← node sl x).level i

/-- Writing `x->level[i]`. -/
def setLv (x i : ℕ) (l : Level) : Checked SkipList := do
  let _ ← lv sl x i
  return sl.setLv x i l

def setBackward (x : ℕ) (b : Option ℕ) : Checked SkipList := do
  let _ ← node sl x
  return sl.setBackward x b

def walk (i : ℕ) (go : SkipNode → ℕ → Bool) : ℕ → ℕ × ℕ → Checked (ℕ × ℕ)
  | 0, _ => .error .endless
  | fuel + 1, (x, traversed) => do
    let l ← lv sl x i
    match l.forward with
    | none => return (x, traversed)
    | some y =>
      if go (← node sl y) (u32 (traversed + l.span)) then walk i go fuel (y, u32 (traversed + l.span))
      else return (x, traversed)

def descend (go : SkipNode → ℕ → Bool) : ℕ → ℕ × ℕ → Checked (List (ℕ × ℕ))
  | 0, _ => return []
  | n + 1, at' => do
    let at' ← walk sl n go (sl.length + 1) at'
    let below ← descend go n at'
    return below ++ [at']

/-- `update[i]` and `rank[i]`. -/
def pathAt (path : List (ℕ × ℕ)) (i : ℕ) : Checked (ℕ × ℕ) := readAt .range path i

def raise (i : ℕ) : Checked SkipList := do
  let l ← lv sl 0 i
  setLv sl 0 i { l with span := u32 sl.length }

def link (x : ℕ) (path : List (ℕ × ℕ)) (i : ℕ) : Checked SkipList := do
  let (u, r) ← pathAt path i
  let skipped := sub32 (← pathAt path 0).2 r
  let old ← lv sl u i
  let sl ← setLv sl x i ⟨old.forward, sub32 old.span skipped⟩
  setLv sl u i ⟨some x, u32 (skipped + 1)⟩

def stretch (path : List (ℕ × ℕ)) (i : ℕ) : Checked SkipList := do
  let u := (← pathAt path i).1
  let old ← lv sl u i
  setLv sl u i { old with span := u32 (old.span + 1) }

/-- `insert`. The arrays `update` and `rank` have `kMaxLevel` elements. -/
def insert (member : Bytes) (score : Double) (lvl : ℕ) : Checked SkipList := do
  require .range (sl.level ≤ kMaxLevel ∧ lvl ≤ kMaxLevel)
  let path ← descend sl (fun n _ => before n member score) sl.level (0, 0)
  let path := path ++ List.replicate (lvl - sl.level) (0, 0)
  let sl ← ((List.range lvl).drop sl.level).foldlM raise sl
  let sl := { sl with level := max sl.level lvl }
  let x := sl.next
  let sl := { sl with heap := Function.update sl.heap x (some (emptyNode member score lvl)), next := x + 1 }
  let sl ← (List.range lvl).foldlM (fun sl i => link sl x path i) sl
  let sl ← ((List.range sl.level).drop lvl).foldlM (fun sl i => stretch sl path i) sl
  let u := (← pathAt path 0).1
  let sl ← setBackward sl x (if u = 0 then none else some u)
  let l ← lv sl x 0
  let sl ← match l.forward with
    | some y => setBackward sl y (some x)
    | none => pure { sl with tail := some x }
  return { sl with length := sl.length + 1 }

def unlinkAt (x : ℕ) (path : List (ℕ × ℕ)) (i : ℕ) : Checked SkipList := do
  let u := (← pathAt path i).1
  let old ← lv sl u i
  if old.forward = some x then
    let l ← lv sl x i
    setLv sl u i ⟨l.forward, u32 (old.span + sub32 l.span 1)⟩
  else setLv sl u i { old with span := sub32 old.span 1 }

def dropLevels : ℕ → Checked ℕ
  | 0 => return 0
  | n + 1 => do
    if 0 < n then
      if (← lv sl 0 n).forward = none then dropLevels n else return n + 1
    else return n + 1

/-- `remove_node` and the `delete` that follows it. -/
def removeNode (x : ℕ) (path : List (ℕ × ℕ)) : Checked SkipList := do
  let sl ← (List.range sl.level).foldlM (fun sl i => unlinkAt sl x path i) sl
  let l ← lv sl x 0
  let b := (← node sl x).backward
  let sl ← match l.forward with
    | some y => setBackward sl y b
    | none => pure { sl with tail := b }
  let level ← dropLevels sl sl.level
  return { sl with level := level, length := sl.length - 1, heap := Function.update sl.heap x none }

def erase (member : Bytes) (score : Double) : Checked (SkipList × Bool) := do
  require .range (sl.level ≤ kMaxLevel)
  let path ← descend sl (fun n _ => before n member score) sl.level (0, 0)
  -- the loop leaves `x` at `update[0]`
  match (← lv sl (← pathAt path 0).1 0).forward with
  | some x =>
    if isAt (← node sl x) member score then return (← removeNode sl x path, true)
    else return (sl, false)
  | none => return (sl, false)

def search {β : Type} (go : SkipNode → ℕ → Bool) (hit : ℕ × ℕ → Checked (Option β)) :
    ℕ → ℕ × ℕ → Checked (Option β)
  | 0, _ => return none
  | n + 1, at' => do
    let at' ← walk sl n go (sl.length + 1) at'
    match ← hit at' with
    | some b => return some b
    | none => search go hit n at'

def rankOf (member : Bytes) (score : Double) : Checked ℕ := do
  let r ← search sl (fun n _ => n.score.lt score || (n.score.eq score && decide (n.member ≤ member)))
    (fun at' => do
      if at'.1 ≠ 0 then
        if isAt (← node sl at'.1) member score then return some at'.2 else return none
      else return none)
    sl.level (0, 0)
  return r.getD 0

def atRank (rank : ℕ) : Checked (Option ℕ) :=
  search sl (fun _ traversed => traversed ≤ rank)
    (fun at' => return if at'.2 = rank ∧ at'.1 ≠ 0 then some at'.1 else none) sl.level (0, 0)

def firstGte (min : Double) : Checked (Option ℕ) := do
  let path ← descend sl (fun n _ => n.score.lt min) sl.level (0, 0)
  return (← lv sl (← pathAt path 0).1 0).forward

end SkipList

section ZSet

variable (z : ZSet)

def zsetSet (levels : Levels) (member : Bytes) (score : Double) : Checked (ZSet × Bool) := do
  match z.dict.find member with
  | some cur =>
    if cur.eq score then return (z, false)
    else
      let sl := (← erase z.sl member cur).1
      let sl ← insert sl member score (levels sl.next + 1)
      return (⟨z.dict.write member score, sl⟩, false)
  | none => return (⟨z.dict.insert member score, ← insert z.sl member score (levels z.sl.next + 1)⟩, true)

def zsetRemove (member : Bytes) : Checked (ZSet × Bool) := do
  match z.dict.find member with
  | some cur => return (⟨z.dict.erase member, (← erase z.sl member cur).1⟩, true)
  | none => return (z, false)

end ZSet

end BlazeKV.Checked
