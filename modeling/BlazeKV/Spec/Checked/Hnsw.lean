import BlazeKV.Spec.Checked.Base
import BlazeKV.Spec.Vectors

/-! `hnsw.cpp` with its accesses. What is computed on floats is a parameter, and so is what the
standard library leaves open: which element is on top of a heap and how `std::sort` arranges, for
an order that need not be one where a distance is NaN. -/

namespace BlazeKV

open Lib

instance levelsNeZero : NeZero 65 := ⟨Nat.succ_ne_zero 64⟩

/-- The floats of an index. -/
structure Metric (F : Type) where
  /-- A component after `prepare`: the number as a `float`, over the norm where that is positive. -/
  prepare : List Double → Double → F
  distance : List F → List F → F
  lt : F → F → Bool
  score : F → Double
  /-- Outcomes of `random_level()`, one for each node: a draw below one has 64 bits at most. -/
  level : ℕ → Fin 65
  /-- The positions of the tops of the heaps `candidates` and `results`. -/
  nearest : List (F × ℕ) → ℕ
  farthest : List (F × ℕ) → ℕ
  sort : List (F × ℕ) → List (F × ℕ)
  sort_perm : ∀ l, (sort l).Perm l

namespace Hnsw

structure Node (F : Type) where
  label : Bytes
  vec : List F
  links : List (List ℕ)
  deleted : Bool

/-- `max_level_` is read only where there is an entry point. -/
structure Graph (F : Type) where
  nodes : List (Node F)
  entryPoint : Option ℕ
  maxLevel : ℕ

def m : ℕ := 16
def m0 : ℕ := 32
def efConstruction : ℕ := 200

/-- `visited`, `candidates` and `results` of `search_layer`. -/
structure Frontier (F : Type) where
  visited : List Bool
  candidates : List (F × ℕ)
  results : List (F × ℕ)

variable {F : Type} (lim : Limits) (M : Metric F) (dim : ℕ)

namespace Graph

def empty : Graph F := ⟨[], none, 0⟩

def nodeAt (g : Graph F) (id : ℕ) : Checked (Node F) := readAt .range g.nodes id

end Graph

/-- `prepare`, which reads `dim` components. -/
def prepare (vec : List Double) : Checked (List F) := do
  require .range (dim ≤ vec.length)
  return (vec.take dim).map (M.prepare (vec.take dim))

def distance (a b : List F) : Checked F := do
  require .range (dim ≤ a.length ∧ dim ≤ b.length)
  return M.distance (a.take dim) (b.take dim)

/-- `top()` of a heap whose order brings the element at `pick` there. -/
def top (pick : List (F × ℕ) → ℕ) (heap : List (F × ℕ)) : Checked (F × ℕ) :=
  readAt .range heap (pick heap % heap.length)

/-- What `pop()` leaves. -/
def pop (pick : List (F × ℕ) → ℕ) (heap : List (F × ℕ)) : List (F × ℕ) := heap.eraseIdx (pick heap % heap.length)

/-- `results.size() < ef || d < results.top().first`. -/
def isCloser (ef : ℕ) (d : F) (results : List (F × ℕ)) : Checked Bool := do
  if results.length < ef then return true
  else return M.lt d (← top M.farthest results).1

/-- One round of the inner loop of `search_layer`. -/
def visit (g : Graph F) (q : List F) (ef : ℕ) (st : Frontier F) (nb : ℕ) : Checked (Frontier F) := do
  if ← readAt .range st.visited nb then return st
  else
    let st := { st with visited := st.visited.set nb true }
    let d ← distance M dim q (← g.nodeAt nb).vec
    if ← isCloser M ef d st.results then
      let results := st.results ++ [(d, nb)]
      return { st with
        candidates := st.candidates ++ [(d, nb)]
        results := if ef < results.length then pop M.farthest results else results }
    else return st

/-- One round of the outer loop; `none` for the `break`. -/
def expand (g : Graph F) (q : List F) (ef level : ℕ) (st : Frontier F) : Checked (Option (Frontier F)) := do
  let cur ← top M.nearest st.candidates
  let far ← top M.farthest st.results
  if M.lt far.1 cur.1 ∧ ef ≤ st.results.length then return none
  else
    let st := { st with candidates := pop M.nearest st.candidates }
    let node ← g.nodeAt cur.2
    if level < node.links.length then
      let links ← readAt .range node.links level
      return some (← links.foldlM (visit M dim g q ef) st)
    else return some st

def searchLoop (g : Graph F) (q : List F) (ef level : ℕ) : ℕ → Frontier F → Checked (Frontier F)
  | 0, _ => .error .endless
  | fuel + 1, st => do
    if st.candidates = [] then return st
    else match ← expand M dim g q ef level st with
      | none => return st
      | some st => searchLoop g q ef level fuel st

/-- The last loop of `search_layer`: the results, nearest first. -/
def drain : ℕ → List (F × ℕ) → List ℕ → Checked (List ℕ)
  | 0, results, out => do
    require .endless (results = [])
    return out
  | fuel + 1, results, out => do
    if results = [] then return out
    else drain fuel (pop M.farthest results) ((← top M.farthest results).2 :: out)

def searchLayer (g : Graph F) (q : List F) (entry ef level : ℕ) : Checked (List ℕ) := do
  require .length (g.nodes.length ≤ lim.vector)
  let visited := List.replicate g.nodes.length false
  let d0 ← distance M dim q (← g.nodeAt entry).vec
  require .range (entry < visited.length)
  let st ← searchLoop M dim g q ef level (g.nodes.length + 1)
    ⟨visited.set entry true, [(d0, entry)], [(d0, entry)]⟩
  require .length (st.results.length ≤ lim.vector)
  drain M st.results.length st.results []

/-- `if (!found.empty()) cur = found.front()`. -/
def step (found : List ℕ) (cur : ℕ) : Checked ℕ := if found = [] then return cur else front found

/-- Writing `nodes_[c].links[level]`. -/
def setLinks (g : Graph F) (c level : ℕ) (links : List ℕ) : Checked (Graph F) := do
  let node ← g.nodeAt c
  let _ ← readAt .range node.links level
  return { g with nodes := g.nodes.set c { node with links := node.links.set level links } }

/-- The links of `c` when there are too many: the closest ones stay. -/
def prune (g : Graph F) (c maxLinks : ℕ) (links : List ℕ) : Checked (List ℕ) := do
  if maxLinks < links.length then
    let base := (← g.nodeAt c).vec
    let ds ← links.mapM fun a => do return (← distance M dim base (← g.nodeAt a).vec, a)
    return ((M.sort ds).map Prod.snd).take maxLinks
  else return links

/-- One back-link. -/
def linkBack (id level maxLinks : ℕ) (g : Graph F) (c : ℕ) : Checked (Graph F) := do
  let clinks := (← readAt .range (← g.nodeAt c).links level) ++ [id]
  setLinks g c level (← prune M dim g c maxLinks clinks)

def connect (g : Graph F) (id level : ℕ) (candidates : List ℕ) : Checked (Graph F) := do
  let maxLinks := if level = 0 then m0 else m
  let links := (candidates.filter fun c => c ≠ id).take maxLinks
  let g ← setLinks g id level links
  links.foldlM (linkBack M dim id level maxLinks) g

/-- A layer above the new node. -/
def descendLayer (g : Graph F) (q : List F) (cur lvl : ℕ) : Checked ℕ := do
  step (← searchLayer lim M dim g q cur 1 lvl) cur

/-- A layer of the new node. -/
def insertLayer (id : ℕ) (q : List F) (s : Graph F × ℕ) (lvl : ℕ) : Checked (Graph F × ℕ) := do
  let candidates ← searchLayer lim M dim s.1 q s.2 efConstruction lvl
  return (← connect M dim s.1 id lvl candidates, ← step candidates s.2)

/-- `add` where the label is known. -/
def replace (g : Graph F) (id : ℕ) (vec : List Double) : Checked (Graph F) := do
  let node ← g.nodeAt id
  return { g with nodes := g.nodes.set id { node with vec := ← prepare M dim vec, deleted := false } }

/-- `add` where the label is new, and the identifier of the node. -/
def insert (g : Graph F) (label : Bytes) (vec : List Double) : Checked (Graph F × ℕ) := do
  let id := u32 g.nodes.length
  let level : ℕ := M.level g.nodes.length
  require .length (level + 1 ≤ lim.vector)
  let node : Node F := ⟨label, ← prepare M dim vec, List.replicate (level + 1) [], false⟩
  let g := { g with nodes := g.nodes ++ [node] }
  match g.entryPoint with
  | none => return ({ g with entryPoint := some id, maxLevel := level }, id)
  | some cur =>
    let q := (← g.nodeAt id).vec
    let cur ← (List.range' (level + 1) (g.maxLevel - level)).reverse.foldlM (descendLayer lim M dim g q) cur
    let (g, _) ← (List.range (min level g.maxLevel + 1)).reverse.foldlM (insertLayer lim M dim id q) (g, cur)
    return (if g.maxLevel < level then { g with entryPoint := some id, maxLevel := level } else g, id)

/-- `remove` of a label that is there. -/
def tombstone (g : Graph F) (id : ℕ) : Checked (Graph F) := do
  let node ← g.nodeAt id
  return { g with nodes := g.nodes.set id { node with deleted := true } }

/-- One round of the last loop of `search`. -/
def collect (g : Graph F) (q : List F) (k : ℕ) (out : List (Bytes × Double)) (id : ℕ) :
    Checked (List (Bytes × Double)) := do
  if k ≤ out.length then return out
  else
    let node ← g.nodeAt id
    if node.deleted then return out
    else return out ++ [(node.label, M.score (← distance M dim q node.vec))]

def search (g : Graph F) (query : List Double) (k ef : ℕ) : Checked (List (Bytes × Double)) := do
  match g.entryPoint with
  | none => return []
  | some cur =>
    if k = 0 then return []
    else
      let q ← prepare M dim query
      let cur ← (List.range' 1 g.maxLevel).reverse.foldlM (descendLayer lim M dim g q) cur
      let found ← searchLayer lim M dim g q cur (max ef k) 0
      found.foldlM (collect M dim g q k) []

end Hnsw

/-! `vector_cmds.cpp` over these indexes. -/

namespace Checked

open Hnsw

variable {F : Type} (lim : Limits) (M : Metric F)

/-- The loop of `parse_vector`. -/
def parseVector (argv : List Bytes) (start : ℕ) : Checked (Option (List Double)) := do
  let vec ← forFrom .argument argv start
    (fun vec a => return vec.bind fun vec => (parseDouble a).map fun d => vec ++ [d]) (some [])
  return vec.filter (· ≠ [])

/-- `add`. -/
def indexAdd (x : HnswIndex (Graph F)) (label : Bytes) (vec : List Double) : Checked (HnswIndex (Graph F) × Bool) := do
  match x.labels.lookup label with
  | some id => return ({ x with graph := ← Hnsw.replace M x.dim x.graph id vec }, false)
  | none =>
    let (graph, id) ← Hnsw.insert lim M x.dim x.graph label vec
    return ({ x with labels := (label, id) :: x.labels, nodes := x.nodes + 1, graph := graph }, true)

/-- `remove`. -/
def indexRemove (x : HnswIndex (Graph F)) (label : Bytes) : Checked (HnswIndex (Graph F) × Bool) := do
  match x.labels.lookup label with
  | none => return (x, false)
  | some id =>
    let graph ← tombstone x.graph id
    return ({ x with labels := x.labels.filter fun e => e.1 ≠ label, graph := graph }, true)

section Handlers

variable (argv : List Bytes) (vs : Vectors (Graph F))

def vadd : Checked (VectorResult (Graph F)) := do
  match ← parseVector argv 3 with
  | none => return ⟨vs, errNotFloat, false⟩
  | some vec =>
    let key ← argAt argv 1
    let put (x : HnswIndex (Graph F)) : Checked (VectorResult (Graph F)) := do
      let (x, added) ← indexAdd lim M x (← argAt argv 2) vec
      return ⟨Function.update vs key (some x), Reply.integer (if added then 1 else 0), true⟩
    match vs key with
    | none => put ⟨vec.length, [], 0, .empty⟩
    | some x => if x.dim ≠ vec.length then return ⟨vs, Vectors.errDimension, false⟩ else put x

def vsim : Checked (VectorResult (Graph F)) := do
  match parseInt (← argAt argv 2) with
  | none => return ⟨vs, errNotInt, false⟩
  | some count =>
    if count ≤ 0 then return ⟨vs, errNotInt, false⟩
    else match ← parseVector argv 3 with
    | none => return ⟨vs, errNotFloat, false⟩
    | some query =>
      match vs (← argAt argv 1) with
      | none => return ⟨vs, Reply.arrayHeader 0, false⟩
      | some x =>
        if x.dim ≠ query.length then return ⟨vs, Vectors.errDimension, false⟩
        else
          let results ← Hnsw.search lim M x.dim x.graph query count.toNat (u64 (count.toNat * 4 + 32))
          let reply := Reply.arrayHeader (results.length * 2) ++
            results.flatMap fun r => Reply.bulk r.1 ++ Reply.doubleReply r.2
          return ⟨vs, reply, false⟩

def vcard : Checked (VectorResult (Graph F)) := do
  return ⟨vs, Reply.integer ((vs (← argAt argv 1)).elim 0 fun x => x.size), false⟩

def vrem : Checked (VectorResult (Graph F)) := do
  let key ← argAt argv 1
  match vs key with
  | none => return ⟨vs, Reply.integer 0, false⟩
  | some x =>
    let (x, removed) ← indexRemove x (← argAt argv 2)
    return ⟨Function.update vs key (some x), Reply.integer (if removed then 1 else 0), removed⟩

end Handlers

end Checked

end BlazeKV
