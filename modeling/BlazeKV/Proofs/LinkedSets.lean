import BlazeKV.Proofs.CheckedZSets
import BlazeKV.Proofs.OwnedDeadlines

/-! Every sorted set that a shard stores has a well-formed skip list, whatever its scores. -/

namespace BlazeKV

open Cmd

variable {env : Env} {argv : List Bytes} {db : Keyspace}

theorem makeZSet_all_linked (h : db.All LinkedObject) : (makeZSet db env.now (arg argv 1)).1.All LinkedObject :=
  getOrMake_fst_all h ZSet.linked_empty

theorem zadd_linked (har : 2 ≤ argv.length) (h : db.All LinkedObject) : (zadd env argv db).db.All LinkedObject := by
  unfold zadd
  obtain ⟨j, -, -, -, hrest⟩ := Checked.zaddFlags_eq (argv.length + 1) 2 ⟨false, false, false, false, false, false⟩ har (by omega)
  generalize zaddFlags ⟨false, false, false, false, false, false⟩ (argv.drop 2) = r at hrest ⊢
  obtain ⟨f, rest⟩ := r
  obtain rfl : rest = argv.drop j := hrest
  dsimp only
  have hdb : (makeZSet db env.now (arg argv 1)).1.All LinkedObject := makeZSet_all_linked h
  have hz : ∀ z, (makeZSet db env.now (arg argv 1)).2 = some z → z.Linked := fun z => makeZSet_linked h
  split_ifs
  · exact h
  generalize makeZSet db env.now (arg argv 1) = m at hdb hz ⊢
  obtain ⟨db', _ | z⟩ := m
  · exact hdb
  have hl := (@Checked.zaddLoop_runs argv f env.levels (argv.length + 1) j ⟨z, 0, 0, none⟩ (hz z rfl) (by omega)).2
  dsimp only
  generalize zaddLoop f env.levels ⟨z, 0, 0, none⟩ (pairs (argv.drop j)) = st at hl ⊢
  have hw : (db'.write (arg argv 1) (.zset st.1.z)).All LinkedObject := Keyspace.All.write hdb hl
  split_ifs
  · exact hw
  · exact hw.erase
  · exact hw

theorem zincrby_linked (h : db.All LinkedObject) : (zincrby env argv db).db.All LinkedObject := by
  unfold zincrby
  have hdb : (makeZSet db env.now (arg argv 1)).1.All LinkedObject := makeZSet_all_linked h
  have hz : ∀ z, (makeZSet db env.now (arg argv 1)).2 = some z → z.Linked := fun z => makeZSet_linked h
  cases parseDouble (arg argv 2) with
  | none => exact h
  | some delta =>
    dsimp only
    generalize makeZSet db env.now (arg argv 1) = m at hdb hz ⊢
    obtain ⟨db', _ | z⟩ := m
    · exact hdb
    · exact Keyspace.All.write hdb ((hz z rfl).set_runs _ _ _).2

theorem countLoop_remove_linked {z : ZSet} (ms : List Bytes) (h : z.Linked) : (countLoop ZSet.remove z ms).1.Linked :=
  countLoop_keeps (P := ZSet.Linked) ms (fun _ m _ hz => (hz.remove_runs m).2) h

theorem zrem_linked (h : db.All LinkedObject) : (zrem env argv db).db.All LinkedObject := by
  unfold zrem
  have hdb : (getZSet db env.now (arg argv 1)).1.All LinkedObject := by
    rw [getZSet, getAs_fst]
    exact h.lookup
  have hz : ∀ z, (getZSet db env.now (arg argv 1)).2 = .present z → z.Linked := fun z => getZSet_linked h
  generalize getZSet db env.now (arg argv 1) = m at hdb hz ⊢
  obtain ⟨db', _ | _ | z⟩ := m
  · exact hdb
  · exact hdb
  have hw : (db'.write (arg argv 1) (.zset (countLoop ZSet.remove z (argv.drop 2)).1)).All LinkedObject :=
    Keyspace.All.write hdb (countLoop_remove_linked _ (hz z rfl))
  dsimp only
  split_ifs
  · exact hw.erase
  · exact hw

theorem fn_owned {spec : CommandSpec} (hmem : spec ∈ CommandTable.specs) (har : spec.arity.natAbs ≤ argv.length)
    (h : Owned db) : Owned (spec.fn env argv db).db := by
  cases orderly_specs hmem with
  | zadd hspec =>
    subst hspec
    exact (zadd_ordered (P := fun _ => True) (fun _ _ => trivial) h.inOrder fun _ _ _ _ => trivial).owned
  | keeps hk => exact (hk _ env argv db (fun _ _ => trivial) har h.inOrder).owned

/-- A command keeps every sorted set well formed. -/
theorem fn_linked {spec : CommandSpec} (hmem : spec ∈ CommandTable.specs) (har : spec.arity.natAbs ≤ argv.length)
    (h : InOrder LinkedObject db) : InOrder LinkedObject (spec.fn env argv db).db := by
  have howned : Owned (spec.fn env argv db).db := fn_owned hmem har h.owned
  cases tidy_specs hmem with
  | zadd hspec =>
    subst hspec
    exact ⟨howned, zadd_linked ((show 2 ≤ 4 by omega).trans har) h.all⟩
  | zrem hf => exact ⟨howned, hf ▸ zrem_linked h.all⟩
  | zincrby hf => exact ⟨howned, hf ▸ zincrby_linked h.all⟩
  | keeps hk =>
    refine hk LinkedObject env argv db (fun o _ hz => ?_) har h
    cases o with
    | zset z => exact absurd hz (by simp [Object.zset?])
    | _ => trivial

namespace Snapshot

theorem getMany_keeps {α : Type} {P : α → Prop} {item : α → Bytes → Option (α × Bytes)}
    (hitem : ∀ a s r, P a → item a s = some r → P r.1) (n : ℕ) {a : α} {s : Bytes} {r : α × Bytes} (ha : P a)
    (h : getMany item n a s = some r) : P r.1 := by
  induction n generalizing a s with
  | zero => exact Option.some.inj h ▸ ha
  | succ n ih =>
    obtain ⟨b, hb, h⟩ := Option.bind_eq_some_iff.1 h
    exact ih (hitem _ _ _ ha hb) h

/-- A sorted set that is read from a snapshot is built by insertions. -/
theorem readValue_linked (levels : Levels) (type : ℕ) (s : Bytes) (r : Object × Bytes) (h : readValue levels type s = some r) :
    LinkedObject r.1 := by
  have hitem : ∀ (z : ZSet) (s : Bytes) (r : ZSet × Bytes), z.Linked → zsetItem levels z s = some r → r.1.Linked := by
    intro z s r hz hr
    obtain ⟨m, -, hr⟩ := Option.bind_eq_some_iff.1 hr
    obtain ⟨d, -, rfl⟩ := Option.map_eq_some_iff.1 hr
    exact (hz.set_runs _ _ _).2
  unfold readValue at h
  split_ifs at h
  · obtain ⟨a, -, rfl⟩ := Option.map_eq_some_iff.1 h
    trivial
  · obtain ⟨n, -, h⟩ := Option.bind_eq_some_iff.1 h
    obtain ⟨a, -, rfl⟩ := Option.map_eq_some_iff.1 h
    trivial
  · obtain ⟨n, -, h⟩ := Option.bind_eq_some_iff.1 h
    obtain ⟨a, -, rfl⟩ := Option.map_eq_some_iff.1 h
    trivial
  · obtain ⟨n, -, h⟩ := Option.bind_eq_some_iff.1 h
    obtain ⟨a, -, rfl⟩ := Option.map_eq_some_iff.1 h
    trivial
  · obtain ⟨n, -, h⟩ := Option.bind_eq_some_iff.1 h
    obtain ⟨a, ha, rfl⟩ := Option.map_eq_some_iff.1 h
    exact getMany_keeps hitem _ ZSet.linked_empty ha

end Snapshot

end BlazeKV
