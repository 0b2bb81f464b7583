import BlazeKV.Spec.Serving
import BlazeKV.Spec.Snapshot
import Mathlib.Data.Fintype.Basic

/-! The shards with their files, over the lifetimes of a server: `load_persistence` when
it starts, and what the shards do in between. Each shard keeps its own files. -/

namespace BlazeKV

/-- `Server::shard_for`. -/
def Server.shardFor (n : ℕ) [NeZero n] (key : Bytes) : Fin n := Fin.ofNat n (bytesHash key)

/-- A shard with its snapshot file, if there is one. -/
structure Host (γ : Type) where
  node : Node γ
  snapshot : Option Bytes

namespace Host

variable {γ : Type} (g : HnswGraph γ)

/-- `exec_replay`; the clock is read for each command. -/
def execReplay (clock : ℕ → Env) (r : ℕ × Store γ) (argv : List Bytes) : ℕ × Store γ :=
  (r.1 + 1, (execStore g (clock r.1) argv r.2).1)

/-- `load_persistence`: the snapshot, then the log on top of it. -/
def loadPersistence (now : ℕ) (levels : Bytes → Levels) (clock : ℕ → Env) (snapshot file : Option Bytes) :
    Option (Store γ) :=
  (match snapshot with
    | none => some Keyspace.empty
    | some data => Snapshot.load now levels data .empty).map fun db =>
      match file with
      | none => ⟨db, fun _ => none⟩
      | some data => (replay (execReplay g clock) data (0, ⟨db, fun _ => none⟩)).2

/-- The log as the next lifetime finds it: the first bytes of what was appended. -/
def file (h : Host γ) (kept : ℕ) : Option Bytes := h.node.aof.map fun a => a.close.take kept

/-- A shard that starts from what the last lifetime has left. -/
def restart (h : Host γ) (now : ℕ) (levels : Bytes → Levels) (clock : ℕ → Env) (kept : ℕ) : Option (Host γ) :=
  (loadPersistence g now levels clock h.snapshot (h.file kept)).map fun st =>
    { h with node := ⟨st, h.node.aof.map fun a => Aof.openFile a.policy (a.close.take kept)⟩ }

/-- `exec_core`. -/
def exec (h : Host γ) (env : Env) (argv : List Bytes) : Host γ := { h with node := (h.node.exec g env argv).1 }

/-- `flush`, as other shards ask for it. -/
def flush (h : Host γ) : Host γ :=
  { h with node := ⟨⟨h.node.store.db.clear, fun _ => none⟩, h.node.aof.map fun a => Aof.openFile a.policy []⟩ }

/-- `cron`: active expiry, with its records, and `tick` of the log. -/
def cron (h : Host γ) (now : ℕ) (synced : Bool) : Host γ :=
  let (db, expired) := h.node.store.db.activeExpireCycle now 20
  let aof := h.node.aof.map fun a => expired.foldl (fun a k => a.append (encodeMultibulk [ascii "DEL", k])) a
  { h with node := ⟨{ h.node.store with db := db },
      aof.map fun a => if synced ∧ a.policy = .everySec then a.flush else a⟩ }

/-- `save_snapshot`. -/
def save (h : Host γ) : Host γ := { h with snapshot := some (Snapshot.save h.node.store.db) }

end Host

/-- What can happen to the shards: a request of a command is executed, a shard does one of
its own jobs, or the server starts again. A start keeps the first bytes of each log. -/
inductive Happening (ι : Type)
  | request (env : Env) (self : ι) (argv : List Bytes) (i : ℕ)
  | flush (j : ι)
  | cron (j : ι) (now : ℕ) (synced : Bool)
  | save (j : ι)
  | restart (now : ℕ) (levels : Bytes → Levels) (clock : ι → ℕ → Env) (kept : ι → ℕ)

section Lifetimes

variable {ι γ : Type} [DecidableEq ι] [Fintype ι] (g : HnswGraph γ) (shardFor : Bytes → ι)

/-- A server starts when all its shards do. -/
def restartAll (s : ι → Host γ) (now : ℕ) (levels : Bytes → Levels) (clock : ι → ℕ → Env) (kept : ι → ℕ) :
    Option (ι → Host γ) :=
  if h : ∀ j, ((s j).restart g now levels (clock j) (kept j)).isSome then
    some fun j => ((s j).restart g now levels (clock j) (kept j)).get (h j)
  else none

/-- One happening. A server that has not come up stays down. -/
def happen (s : Option (ι → Host γ)) (e : Happening ι) : Option (ι → Host γ) × Unit :=
  (s.bind fun s => match e with
    | .request env self argv i =>
      match (requests shardFor self argv)[i]? with
      | none => some s
      | some (j, args) => some (Function.update s j ((s j).exec g env args))
    | .flush j => some (Function.update s j (s j).flush)
    | .cron j now synced => some (Function.update s j ((s j).cron now synced))
    | .save j => some (Function.update s j (s j).save)
    | .restart now levels clock kept => restartAll g s now levels clock kept, ())

end Lifetimes

section Counts

variable {n m : ℕ} {γ : Type} (g : HnswGraph γ)

/-- A shard that finds no files. -/
def Host.fresh (policy : Option FsyncPolicy) : Host γ :=
  ⟨⟨⟨.empty, fun _ => none⟩, policy.map fun p => Aof.openFile p []⟩, none⟩

end Counts

end BlazeKV
