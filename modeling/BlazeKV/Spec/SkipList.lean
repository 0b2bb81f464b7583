import BlazeKV.Spec.Number

/-! `skiplist.hpp` on an explicit heap: a node is an address, `head_` is address
zero and a deleted node leaves the heap. A pointer walk is given one round more
than there are nodes; `none` means that it has not ended by then. -/

namespace BlazeKV

def kMaxLevel : ℕ := 32

theorem kMaxLevel_pos : 0 < kMaxLevel := by decide

structure Level where
  forward : Option ℕ
  span : ℕ
  deriving Inhabited, DecidableEq

structure SkipNode where
  member : Bytes
  score : Double
  backward : Option ℕ
  level : List Level
  deriving Inhabited, DecidableEq

structure SkipList where
  heap : ℕ → Option SkipNode
  next : ℕ
  tail : Option ℕ
  length : ℕ
  level : ℕ

namespace SkipList

def emptyNode (member : Bytes) (score : Double) (lvl : ℕ) : SkipNode :=
  ⟨member, score, none, List.replicate lvl ⟨none, 0⟩⟩

def new : SkipList where
  heap x := if x = 0 then some (emptyNode [] .zero kMaxLevel) else none
  next := 1
  tail := none
  length := 0
  level := 1

def node (sl : SkipList) (x : ℕ) : SkipNode := (sl.heap x).getD default

/-- `x->level[i]`. -/
def lv (sl : SkipList) (x i : ℕ) : Level := (sl.node x).level.getD i default

def modify (sl : SkipList) (x : ℕ) (f : SkipNode → SkipNode) : SkipList :=
  { sl with heap := Function.update sl.heap x ((sl.heap x).map f) }

def setLv (sl : SkipList) (x i : ℕ) (l : Level) : SkipList :=
  sl.modify x fun n => { n with level := n.level.set i l }

def setBackward (sl : SkipList) (x : ℕ) (b : Option ℕ) : SkipList :=
  sl.modify x fun n => { n with backward := b }

/-- The order of the search loops: `n` comes before `(score, member)`. -/
def before (n : SkipNode) (member : Bytes) (score : Double) : Bool :=
  n.score.lt score || (n.score.eq score && decide (n.member < member))

/-- `while (forward && go(forward)) { traversed += span; x = forward; }` on one
level. The callers that keep no rank ignore it. -/
def walk (sl : SkipList) (i : ℕ) (go : SkipNode → ℕ → Bool) : ℕ → ℕ × ℕ → Option (ℕ × ℕ)
  | 0, _ => none
  | fuel + 1, (x, traversed) =>
    match (sl.lv x i).forward with
    | none => some (x, traversed)
    | some y =>
      if go (sl.node y) (u32 (traversed + (sl.lv x i).span)) then
        walk sl i go fuel (y, u32 (traversed + (sl.lv x i).span))
      else some (x, traversed)

/-- The walks of levels `n - 1` down to `0`: `update[i]` and `rank[i]` at index `i`. -/
def descend (sl : SkipList) (go : SkipNode → ℕ → Bool) : ℕ → ℕ × ℕ → Option (List (ℕ × ℕ))
  | 0, _ => some []
  | n + 1, at' => do
    let at' ← sl.walk n go (sl.length + 1) at'
    let below ← descend sl go n at'
    return below ++ [at']

/-- One round of `for (i = level_; i < lvl; ++i)`: the head's stale span. -/
def raise (sl : SkipList) (i : ℕ) : SkipList :=
  sl.setLv 0 i { sl.lv 0 i with span := u32 sl.length }

/-- One round of `for (i = 0; i < lvl; ++i)`: node `x` enters level `i`. -/
def link (x : ℕ) (path : List (ℕ × ℕ)) (sl : SkipList) (i : ℕ) : SkipList :=
  let (u, r) := path.getD i default
  let skipped := sub32 (path.getD 0 default).2 r
  let old := sl.lv u i
  (sl.setLv x i ⟨old.forward, sub32 old.span skipped⟩).setLv u i ⟨some x, u32 (skipped + 1)⟩

/-- One round of `for (i = lvl; i < level_; ++i)`: a node enters below level `i`. -/
def stretch (path : List (ℕ × ℕ)) (sl : SkipList) (i : ℕ) : SkipList :=
  let u := (path.getD i default).1
  sl.setLv u i { sl.lv u i with span := u32 ((sl.lv u i).span + 1) }

/-- `insert`, with `lvl` the outcome of `random_level()`. -/
def insert (sl : SkipList) (member : Bytes) (score : Double) (lvl : ℕ) : Option SkipList := do
  let path ← sl.descend (fun n _ => before n member score) sl.level (0, 0)
  let path := path ++ List.replicate (lvl - sl.level) (0, 0)
  let sl := ((List.range lvl).drop sl.level).foldl raise sl
  let sl := { sl with level := max sl.level lvl }
  let x := sl.next
  let sl := { sl with
    heap := Function.update sl.heap x (some (emptyNode member score lvl)), next := x + 1 }
  let sl := (List.range lvl).foldl (link x path) sl
  let sl := ((List.range sl.level).drop lvl).foldl (stretch path) sl
  let u := (path.getD 0 default).1
  let sl := sl.setBackward x (if u = 0 then none else some u)
  let sl := match (sl.lv x 0).forward with
    | some y => sl.setBackward y (some x)
    | none => { sl with tail := some x }
  return { sl with length := sl.length + 1 }

/-- One round of the loop of `remove_node`. -/
def unlink (x : ℕ) (path : List (ℕ × ℕ)) (sl : SkipList) (i : ℕ) : SkipList :=
  let u := (path.getD i default).1
  let old := sl.lv u i
  if old.forward = some x then
    sl.setLv u i ⟨(sl.lv x i).forward, u32 (old.span + sub32 (sl.lv x i).span 1)⟩
  else sl.setLv u i { old with span := sub32 old.span 1 }

/-- `while (level_ > 1 && head_->level[level_ - 1].forward == nullptr) --level_`. -/
def dropLevels (sl : SkipList) : ℕ → ℕ
  | 0 => 0
  | n + 1 => if 0 < n ∧ (sl.lv 0 n).forward = none then dropLevels sl n else n + 1

/-- `remove_node` and the `delete` that follows it. -/
def removeNode (sl : SkipList) (x : ℕ) (path : List (ℕ × ℕ)) : SkipList :=
  let sl := (List.range sl.level).foldl (unlink x path) sl
  let sl := match (sl.lv x 0).forward with
    | some y => sl.setBackward y (sl.node x).backward
    | none => { sl with tail := (sl.node x).backward }
  { sl with
    level := sl.dropLevels sl.level
    length := sl.length - 1
    heap := Function.update sl.heap x none }

def isAt (n : SkipNode) (member : Bytes) (score : Double) : Bool :=
  n.score.eq score && decide (n.member = member)

def erase (sl : SkipList) (member : Bytes) (score : Double) : Option (SkipList × Bool) := do
  let path ← sl.descend (fun n _ => before n member score) sl.level (0, 0)
  match (sl.lv (path.getD 0 default).1 0).forward with
  | some x => if isAt (sl.node x) member score then return (sl.removeNode x path, true)
              else return (sl, false)
  | none => return (sl, false)

/-- The queries descend like `erase` but may return from any level. -/
def search {β : Type} (sl : SkipList) (go : SkipNode → ℕ → Bool) (hit : ℕ × ℕ → Option β) :
    ℕ → ℕ × ℕ → Option (Option β)
  | 0, _ => some none
  | n + 1, at' => do
    let at' ← sl.walk n go (sl.length + 1) at'
    match hit at' with
    | some b => return some b
    | none => search sl go hit n at'

def rankOf (sl : SkipList) (member : Bytes) (score : Double) : Option ℕ := do
  let r ← sl.search
    (fun n _ => n.score.lt score || (n.score.eq score && decide (n.member ≤ member)))
    (fun at' => if at'.1 ≠ 0 ∧ isAt (sl.node at'.1) member score then some at'.2 else none)
    sl.level (0, 0)
  return r.getD 0

def atRank (sl : SkipList) (rank : ℕ) : Option (Option ℕ) :=
  sl.search (fun _ traversed => traversed ≤ rank)
    (fun at' => if at'.2 = rank ∧ at'.1 ≠ 0 then some at'.1 else none) sl.level (0, 0)

def firstGte (sl : SkipList) (min : Double) : Option (Option ℕ) := do
  let path ← sl.descend (fun n _ => n.score.lt min) sl.level (0, 0)
  return (sl.lv (path.getD 0 default).1 0).forward

end SkipList

end BlazeKV
