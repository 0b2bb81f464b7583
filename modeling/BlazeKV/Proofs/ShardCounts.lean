import BlazeKV.Proofs.Placement

/-! A start with another number of shards. The files stay with their numbers, while a key
is looked for where `shard_for` sends it now. -/

namespace BlazeKV

section Counts

variable {n m : ℕ} {γ : Type} (g : HnswGraph γ)

variable {policy : Option FsyncPolicy}

end Counts

end BlazeKV
