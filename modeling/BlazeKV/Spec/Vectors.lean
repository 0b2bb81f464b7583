import BlazeKV.Spec.Registry

/-! `vector_cmds.cpp` and the bookkeeping of `hnsw.cpp`. The graph of an index works
on floating-point vectors; it is a parameter here, with the calls that the label
table makes on it. -/

namespace BlazeKV

/-- What the graph of an index does: a vector under an old node or under a new one, a
node marked as deleted, and the search. -/
structure HnswGraph (γ : Type) where
  empty : γ
  replace : γ → ℕ → List Double → γ
  insert : γ → Bytes → List Double → γ
  tombstone : γ → ℕ → γ
  search : γ → List Double → ℕ → ℕ → List (Bytes × Double)

structure HnswIndex (γ : Type) where
  dim : ℕ
  labels : List (Bytes × ℕ)
  nodes : ℕ
  graph : γ

/-- `vindex_`, by the key of the index. -/
abbrev Vectors (γ : Type) := Bytes → Option (HnswIndex γ)

namespace HnswIndex

variable {γ : Type} (g : HnswGraph γ)

def new (dim : ℕ) : HnswIndex γ := ⟨dim, [], 0, g.empty⟩

def size (x : HnswIndex γ) : ℕ := x.labels.length

/-- `add`, and whether the label is new. -/
def add (x : HnswIndex γ) (label : Bytes) (vec : List Double) : HnswIndex γ × Bool :=
  match x.labels.lookup label with
  | some id => ({ x with graph := g.replace x.graph id vec }, false)
  | none => ({ x with
      labels := (label, x.nodes) :: x.labels
      nodes := x.nodes + 1
      graph := g.insert x.graph label vec }, true)

/-- `remove`, and whether the label was there. -/
def remove (x : HnswIndex γ) (label : Bytes) : HnswIndex γ × Bool :=
  match x.labels.lookup label with
  | none => (x, false)
  | some id => ({ x with
      labels := x.labels.filter fun e => e.1 ≠ label
      graph := g.tombstone x.graph id }, true)

end HnswIndex

/-- `parse_vector`. -/
def parseVector (args : List Bytes) : Option (List Double) :=
  if args = [] then none else args.mapM parseDouble

/-- The indexes after a vector command, its reply, and whether it is dirty. -/
structure VectorResult (γ : Type) where
  vectors : Vectors γ
  reply : Bytes
  dirty : Bool

namespace Vectors

variable {γ : Type} (g : HnswGraph γ) (argv : List Bytes) (vs : Vectors γ)

def errDimension : Bytes := Reply.error (ascii "ERR vector dimension mismatch")

def vadd : VectorResult γ :=
  match parseVector (argv.drop 3) with
  | none => ⟨vs, errNotFloat, false⟩
  | some vec =>
    let put (x : HnswIndex γ) : VectorResult γ :=
      let (x, added) := x.add g (arg argv 2) vec
      ⟨Function.update vs (arg argv 1) (some x), Reply.integer (if added then 1 else 0), true⟩
    match vs (arg argv 1) with
    | none => put (.new g vec.length)
    | some x => if x.dim ≠ vec.length then ⟨vs, errDimension, false⟩ else put x

def vsim : VectorResult γ :=
  match parseInt (arg argv 2) with
  | none => ⟨vs, errNotInt, false⟩
  | some count =>
    if count ≤ 0 then ⟨vs, errNotInt, false⟩
    else match parseVector (argv.drop 3) with
    | none => ⟨vs, errNotFloat, false⟩
    | some query =>
      match vs (arg argv 1) with
      | none => ⟨vs, Reply.arrayHeader 0, false⟩
      | some x =>
        if x.dim ≠ query.length then ⟨vs, errDimension, false⟩
        else
          let results := g.search x.graph query count.toNat (u64 (count.toNat * 4 + 32))
          ⟨vs, Reply.arrayHeader (results.length * 2) ++
            results.flatMap fun r => Reply.bulk r.1 ++ Reply.doubleReply r.2, false⟩

def vcard : VectorResult γ :=
  ⟨vs, Reply.integer ((vs (arg argv 1)).elim 0 fun x => x.size), false⟩

def vrem : VectorResult γ :=
  match vs (arg argv 1) with
  | none => ⟨vs, Reply.integer 0, false⟩
  | some x =>
    let (x, removed) := x.remove g (arg argv 2)
    ⟨Function.update vs (arg argv 1) (some x), Reply.integer (if removed then 1 else 0), removed⟩

/-- The vector command of a name; the other commands leave the indexes alone. -/
def run : VectorResult γ :=
  let name := lowercase (cmdName argv)
  if name = ascii "vadd" then vadd g argv vs
  else if name = ascii "vsim" then vsim g argv vs
  else if name = ascii "vcard" then vcard argv vs
  else if name = ascii "vrem" then vrem g argv vs
  else ⟨vs, [], false⟩

end Vectors

/-- What one shard stores: the keyspace and the vector indexes. -/
structure Store (γ : Type) where
  db : Keyspace
  vectors : Vectors γ

/-- The environment of a handler on a shard with these indexes. -/
def Env.withVectors {γ : Type} (env : Env) (g : HnswGraph γ) (vs : Vectors γ) : Env :=
  { env with vector := fun argv => ((Vectors.run g argv vs).reply, (Vectors.run g argv vs).dirty) }

/-- `exec_core` on the keyspace and the indexes; `flush()` clears both. -/
def execStore {γ : Type} (g : HnswGraph γ) (env : Env) (argv : List Bytes) (st : Store γ) :
    Store γ × Exec :=
  let e := execCore (env.withVectors g st.vectors) argv st.db
  let vectors := match route argv with
    | .error _ => st.vectors
    | .ok _ => (Vectors.run g argv st.vectors).vectors
  (⟨e.db, if e.flush then fun _ => none else vectors⟩, e)

end BlazeKV
