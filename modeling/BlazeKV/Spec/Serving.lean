import BlazeKV.Spec.Shard
import BlazeKV.Spec.Vectors

/-! One client command as the shards serve it: the requests that `dispatch` makes of
them, and what a request does to the shard that executes it. -/

namespace BlazeKV

/-! Servers have a first shard. -/

instance oneShard : NeZero 1 := ⟨Nat.succ_ne_zero 0⟩
instance twoShards : NeZero 2 := ⟨Nat.succ_ne_zero 1⟩

/-- What a shard keeps: the keyspace with the vector indexes, and the log. -/
structure Node (γ : Type) where
  store : Store γ
  aof : Option Aof

section Serving

variable {ι γ : Type} [DecidableEq ι] (shardFor : Bytes → ι) (g : HnswGraph γ)

/-- The requests of one command, with the shards that execute them. -/
def requests (self : ι) (argv : List Bytes) : List (ι × List Bytes) :=
  match plan shardFor self argv with
  | .refuse _ => []
  | .inline => [(self, argv)]
  | .forward target => [(target, argv)]
  | .fanOut keys => keys.mapIdx fun i key =>
      (shardFor key, subCommand (kindOf (lowercase (cmdName argv))) argv i key)

/-- `exec_core`, with the log. -/
def Node.exec (env : Env) (argv : List Bytes) (x : Node γ) : Node γ × Bytes :=
  let r := execStore g env argv x.store
  let aof := if r.2.flush then x.aof.map fun a => Aof.openFile a.policy [] else x.aof
  let aof := match r.2.record with
    | none => aof
    | some b => aof.map (·.append b)
  (⟨r.1, aof⟩, r.2.reply)

/-- Requests that shards execute one after another, each at its own clock reading. -/
def serve (s : ι → Node γ) (rs : List (Env × ι × List Bytes)) : ι → Node γ :=
  rs.foldl (fun s r => Function.update s r.2.1 ((s r.2.1).exec g r.1 r.2.2).1) s

/-- One request of several, by its index, and the fragment that it brings. -/
def fanStep (env : Env) (reqs : List (ι × List Bytes)) (r : (ι → Node γ) × List (Option Bytes)) (i : ℕ) :
    (ι → Node γ) × List (Option Bytes) :=
  match reqs[i]? with
  | none => r
  | some (j, args) =>
    let x := (r.1 j).exec g env args
    (Function.update r.1 j x.1, r.2.set i (some x.2))

/-- The requests of a command, executed in some order. -/
def fanOut (env : Env) (reqs : List (ι × List Bytes)) (s : ι → Node γ) (order : List ℕ) :
    (ι → Node γ) × List (Option Bytes) :=
  order.foldl (fanStep g env reqs) (s, List.replicate reqs.length none)

/-- `exec` of a shard is that of its node. -/
theorem exec_node (sh : Shard) (env : Env) (argv : List Bytes) (vs : Vectors γ) :
    let r := sh.exec (env.withVectors g vs) argv
    let x := Node.exec g env argv ⟨⟨sh.db, vs⟩, sh.aof⟩
    r.1.db = x.1.store.db ∧ r.1.aof = x.1.aof ∧ r.2.1 = x.2 := ⟨rfl, rfl, rfl⟩

/-- The requests that `dispatch` posts are those of the command, unless it runs here. -/
theorem posted_requests (shards : List ι) (self : ι) (sh : Shard) (env : Env) (cid : ℕ) (c : Connection)
    (argv : List Bytes) (h : plan shardFor self argv ≠ .inline) :
    ((sh.dispatch shardFor shards self env cid c argv).2.filterMap fun p =>
      match p.2 with
      | .execute _ part => some (p.1, part.args)
      | _ => none) = requests shardFor self argv := by
  unfold Shard.dispatch requests
  cases hp : plan shardFor self argv with
  | refuse e => rfl
  | inline => exact absurd hp h
  | forward target => rfl
  | fanOut keys =>
    simp only [Shard.beginMultikey, List.mapIdx_eq_zipIdx_map, List.filterMap_map]
    rw [← List.filterMap_eq_map]
    rfl

end Serving

end BlazeKV
