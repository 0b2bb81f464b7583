import BlazeKV.Proofs.Recovered

/-! What a flush leaves to a recovery. The log starts anew, while the snapshot file stays
and is loaded under it. -/

namespace BlazeKV

open Keyspace

section Snapshots

variable {now : ℕ} {levels : Bytes → Levels} {db : Keyspace}

end Snapshots

section Logs

variable {ι γ : Type} [DecidableEq ι] [Fintype ι] (g : HnswGraph γ) (shardFor : Bytes → ι)

/-- What a happening records in the log of a shard. -/
def Happening.records (j : ι) (s : Option (ι → Host γ)) : Happening ι → List (List Bytes)
  | .request env self argv i =>
    match s, (requests shardFor self argv)[i]? with
    | some x, some (j', args) => if j' = j then recorded g env args (x j).node.store else []
    | _, _ => []
  | .cron j' now _ =>
    match s with
    | some x => if j' = j then ((x j).node.store.db.activeExpireCycle now 20).2.map fun k => [ascii "DEL", k] else []
    | none => []
  | _ => []

/-- The shard takes no snapshot, and the server does not start again. -/
def Happening.Lasting (j : ι) : Happening ι → Prop
  | .save j' => j' ≠ j
  | .restart _ _ _ _ => False
  | _ => True

variable {g shardFor} {home : Bytes → Prop} {j : ι}

variable (g)

end Logs

end BlazeKV
