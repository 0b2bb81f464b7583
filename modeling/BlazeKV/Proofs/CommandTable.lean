import BlazeKV.Proofs.ZAddEffects

/-! The table of commands: for every entry, what its handler does to the keyspace, and
that the keys it touches are those that `extract_keys` returns. -/

namespace BlazeKV

open Keyspace

section Keys

variable {spec : CommandSpec} {argv : List Bytes}

theorem arity_le {argc : ℕ} (h : arityOk spec argc) : spec.arity.natAbs ≤ argc := by
  unfold arityOk at h
  split_ifs at h
  · have : (argc : ℤ) = spec.arity := by simpa using h
    omega
  · have : (argc : ℤ) ≥ -spec.arity := by simpa using h
    omega

theorem mem_extractKeys {i : ℕ} (h : i ∈ keyIndexes spec argv.length) : arg argv i ∈ extractKeys spec argv :=
  List.mem_map_of_mem h

/-- The positions of a descriptor that ends at a given key. -/
theorem mem_keyIndexes_fixed {i argc : ℕ} (last : ℕ) (hf : spec.firstKey = 1) (hl : spec.lastKey = last)
    (hs : spec.keyStep = 1) (h1 : 1 ≤ i) (hi : i ≤ last) (hargc : last < argc) : i ∈ keyIndexes spec argc := by
  unfold keyIndexes
  have h0 : ¬(last : ℤ) < 0 := by omega
  have h1 : ¬(last : ℤ) ≥ argc := by omega
  simp only [hf, hl, hs, one_ne_zero, if_false, h0, h1, List.mem_range', Nat.cast_one, Int.ediv_one]
  exact ⟨i - 1, by omega, by omega⟩

/-- The positions of a descriptor that ends at the last argument. -/
theorem mem_keyIndexes_last (spec : CommandSpec) (i step argc : ℕ) (hf : spec.firstKey = 1) (hl : spec.lastKey = -1)
    (hs : spec.keyStep = step) (hstep : 0 < step) (hi : i * step + 1 < argc) :
    i * step + 1 ∈ keyIndexes spec argc := by
  unfold keyIndexes
  have h1 : ¬((argc : ℤ) + -1 ≥ argc) := by omega
  simp only [hf, hl, hs, one_ne_zero, if_false, h1, List.mem_range', if_true,
    show (-1 : ℤ) < 0 by decide]
  refine ⟨i, ?_, by rw [mul_comm, add_comm]⟩
  have hle : (i : ℤ) ≤ (argc + -1 - 1) / step := by
    rw [Int.le_ediv_iff_mul_le (by exact_mod_cast hstep)]
    have : ((i * step : ℕ) : ℤ) + 1 < argc := by exact_mod_cast hi
    push_cast at this
    omega
  push_cast
  omega

theorem arg_one_mem (hf : spec.firstKey = 1) (hl : spec.lastKey = 1) (hs : spec.keyStep = 1)
    (h : 2 ≤ argv.length) : arg argv 1 ∈ extractKeys spec argv :=
  mem_extractKeys (mem_keyIndexes_fixed 1 hf hl hs (le_refl 1) (le_refl 1) h)

theorem tail_mem (spec : CommandSpec) (argv : List Bytes) (hf : spec.firstKey = 1) (hl : spec.lastKey = -1) (hs : spec.keyStep = 1) :
    ∀ k ∈ argv.tail, k ∈ extractKeys spec argv := by
  intro k hk
  obtain ⟨i, hi, rfl⟩ := List.mem_iff_getElem.1 hk
  rw [List.length_tail] at hi
  have hmem := mem_keyIndexes_last spec i 1 argv.length hf hl hs Nat.one_pos (by omega)
  have := mem_extractKeys hmem
  have hget : arg argv (i * 1 + 1) = argv.tail[i] := by
    simp only [arg, mul_one, List.getElem_tail]
    exact (List.getElem_eq_getD _).symm
  rwa [hget] at this

theorem mem_pairs {p : Bytes × Bytes} {xs : List Bytes} (h : p ∈ pairs xs) :
    ∃ i, 2 * i + 1 < xs.length ∧ p = (xs.getD (2 * i) [], xs.getD (2 * i + 1) []) := by
  induction xs using pairs.induct with
  | case1 a b rest ih =>
    rw [pairs, List.mem_cons] at h
    rcases h with rfl | h
    · exact ⟨0, by simp, rfl⟩
    · obtain ⟨i, hi, rfl⟩ := ih h
      exact ⟨i + 1, by simp; omega, rfl⟩
  | case2 xs hxs => simp [pairs] at h

end Keys

/-- The command drops a key without being marked dirty: it finds an empty container. -/
def quietlyErases (name : Bytes) (env : Env) (argv : List Bytes) (db : Keyspace) : Bool :=
  if name = ascii "hdel" then Cmd.emptyAt Object.hash? Dict.size env argv db
  else if name = ascii "srem" then Cmd.emptyAt Object.set? Dict.size env argv db
  else if name = ascii "spop" then
    (Cmd.popCount argv).isSome && Cmd.emptyAt Object.set? Dict.size env argv db
  else if name = ascii "zrem" then Cmd.emptyAt Object.zset? ZSet.size env argv db
  else if name = ascii "zadd" then Cmd.zaddVain env argv db
  else false

/-- The commands of `quietlyErases`. -/
def shrinkers : List Bytes := [ascii "hdel", ascii "srem", ascii "spop", ascii "zrem", ascii "zadd"]

/-- What a command does, by its kind. -/
inductive Deed (spec : CommandSpec) : Prop
  | reads (hw : spec.write = false) (hn : spec.name ∉ shrinkers)
      (h : ∀ env argv db, arityOk spec argv.length →
        Reads (· ∈ extractKeys spec argv) env.now db (spec.fn env argv db))
  | tame (hw : spec.write = true) (hn : spec.name ∉ shrinkers)
      (h : ∀ env argv db, arityOk spec argv.length →
        Tame (· ∈ extractKeys spec argv) env.now db (spec.fn env argv db))
  | shrinks (hw : spec.write = true) (hn : spec.name ≠ ascii "zadd")
      (h : ∀ env argv db, arityOk spec argv.length →
        Cmd.Shrinks (· ∈ extractKeys spec argv) env.now db (quietlyErases spec.name env argv db)
          (spec.fn env argv db))
  | zadd (h : spec = ⟨ascii "zadd", Cmd.zadd, -4, true, 1, 1, 1⟩)
  | flush (hn : spec.name = ascii "flushall" ∨ spec.name = ascii "flushdb") (hw : spec.write = false)
      (h : spec.fn = Cmd.flushall)

section Kinds

variable {spec : CommandSpec}

theorem reads_one (hw : spec.write = false) (hn : spec.name ∉ shrinkers) (hf : spec.firstKey = 1)
    (hl : spec.lastKey = 1) (hs : spec.keyStep = 1) (ha : 2 ≤ spec.arity.natAbs)
    (h : ∀ (K : Bytes → Prop) (env : Env) (argv : List Bytes) (db : Keyspace), K (arg argv 1) →
      Reads K env.now db (spec.fn env argv db)) : Deed spec :=
  .reads hw hn fun env argv db har => h _ env argv db (arg_one_mem hf hl hs (ha.trans (arity_le har)))

theorem tame_one (hw : spec.write = true) (hn : spec.name ∉ shrinkers) (hf : spec.firstKey = 1)
    (hl : spec.lastKey = 1) (hs : spec.keyStep = 1) (ha : 2 ≤ spec.arity.natAbs)
    (h : ∀ (K : Bytes → Prop) (env : Env) (argv : List Bytes) (db : Keyspace), K (arg argv 1) →
      Tame K env.now db (spec.fn env argv db)) : Deed spec :=
  .tame hw hn fun env argv db har => h _ env argv db (arg_one_mem hf hl hs (ha.trans (arity_le har)))

theorem shrinks_one (hw : spec.write = true) (hn : spec.name ≠ ascii "zadd") (hf : spec.firstKey = 1)
    (hl : spec.lastKey = 1) (hs : spec.keyStep = 1) (ha : 2 ≤ spec.arity.natAbs)
    (h : ∀ (K : Bytes → Prop) (env : Env) (argv : List Bytes) (db : Keyspace), K (arg argv 1) →
      Cmd.Shrinks K env.now db (quietlyErases spec.name env argv db) (spec.fn env argv db)) : Deed spec :=
  .shrinks hw hn fun env argv db har => h _ env argv db (arg_one_mem hf hl hs (ha.trans (arity_le har)))

theorem reads_all (hw : spec.write = false) (hn : spec.name ∉ shrinkers) (hf : spec.firstKey = 1)
    (hl : spec.lastKey = -1) (hs : spec.keyStep = 1)
    (h : ∀ (K : Bytes → Prop) (env : Env) (argv : List Bytes) (db : Keyspace),
      (∀ k ∈ argv.tail, K k) → Reads K env.now db (spec.fn env argv db)) : Deed spec :=
  .reads hw hn fun env argv db _ => h _ env argv db (tail_mem _ argv hf hl hs)

theorem tame_all (hw : spec.write = true) (hn : spec.name ∉ shrinkers) (hf : spec.firstKey = 1)
    (hl : spec.lastKey = -1) (hs : spec.keyStep = 1)
    (h : ∀ (K : Bytes → Prop) (env : Env) (argv : List Bytes) (db : Keyspace),
      (∀ k ∈ argv.tail, K k) → Tame K env.now db (spec.fn env argv db)) : Deed spec :=
  .tame hw hn fun env argv db _ => h _ env argv db (tail_mem _ argv hf hl hs)

theorem reads_none (hw : spec.write = false) (hn : spec.name ∉ shrinkers)
    (h : ∀ (K : Bytes → Prop) (env : Env) (argv : List Bytes) (db : Keyspace),
      Reads K env.now db (spec.fn env argv db)) : Deed spec :=
  .reads hw hn fun env argv db _ => h _ env argv db

theorem tame_pfmerge : Deed ⟨ascii "pfmerge", Cmd.pfmerge, -2, true, 1, -1, 1⟩ := by
  refine .tame rfl (by decide) fun env argv db har => ?_
  have hall := tail_mem ⟨ascii "pfmerge", Cmd.pfmerge, -2, true, 1, -1, 1⟩ argv rfl rfl rfl
  have hlen : 2 ≤ argv.length := arity_le har
  refine Cmd.pfmerge_tame db env argv hall (hall _ ?_)
  match argv, hlen with
  | _ :: b :: rest, _ => simp [arg]

theorem tame_mset : Deed ⟨ascii "mset", Cmd.mset, -3, true, 1, -1, 2⟩ := by
  refine .tame rfl (by decide) fun env argv db har => Cmd.mset_tame db env argv fun p hp => ?_
  obtain ⟨i, hi, rfl⟩ := mem_pairs hp
  rw [List.length_tail] at hi
  have hmem := mem_keyIndexes_last ⟨ascii "mset", Cmd.mset, -3, true, 1, -1, 2⟩ i 2 argv.length
    rfl rfl rfl Nat.two_pos (by omega)
  have := mem_extractKeys hmem
  have hget : arg argv (i * 2 + 1) = argv.tail.getD (2 * i) [] := by
    rw [mul_comm, arg]
    cases argv <;> simp
  rwa [hget] at this

theorem tame_rename : Deed ⟨ascii "rename", Cmd.rename, 3, true, 1, 2, 1⟩ := by
  refine .tame rfl (by decide) fun env argv db har => ?_
  have hlen : 3 ≤ argv.length := arity_le har
  refine Cmd.rename_tame db env argv ?_ ?_ <;>
    exact mem_extractKeys (mem_keyIndexes_fixed 2 rfl rfl rfl (by decide) (by decide) hlen)

theorem tame_sadd : Deed ⟨ascii "sadd", Cmd.sadd, -3, true, 1, 1, 1⟩ := by
  refine .tame rfl (by decide) fun env argv db har => ?_
  have hlen : 3 ≤ argv.length := arity_le har
  refine Cmd.sadd_tame db env argv (arg_one_mem rfl rfl rfl (by omega)) fun hnil => ?_
  have := congrArg List.length hnil
  simp at this
  omega

theorem reads_object : Deed ⟨ascii "object", Cmd.object, -2, false, 2, 2, 1⟩ := by
  refine .reads rfl (by decide) fun env argv db _ => Cmd.object_reads db env argv fun hlen => mem_extractKeys ?_
  have h0 : ¬((2 : ℤ) < 0) := by decide
  have h1 : ¬((2 : ℤ) ≥ (argv.length : ℤ)) := by omega
  simp [keyIndexes, h1]

theorem tame_vector (K : Bytes → Prop) (db : Keyspace) (now : ℕ) {dirty : Bool} (reply : Bytes) :
    Tame K now db (.markedIf dirty db reply) := ⟨.refl db, rfl, fun _ => .refl db, fun _ => .refl db⟩

end Kinds

theorem deeds_first : ∀ spec ∈ CommandTable.specs.take 31, Deed spec := by
  simp only [CommandTable.specs, specsWith, List.take_succ_cons, List.take_zero, List.forall_mem_cons]
  refine ⟨
    reads_one rfl (by decide) rfl rfl rfl (by decide) fun _ env argv db hk => Cmd.get_reads db env argv hk,
    tame_one rfl (by decide) rfl rfl rfl (by decide) fun _ env argv db hk => Cmd.set_tame db env argv hk,
    tame_one rfl (by decide) rfl rfl rfl (by decide) fun _ env argv db hk => Cmd.setnx_tame db env argv hk,
    tame_one rfl (by decide) rfl rfl rfl (by decide) fun _ env argv db hk => Cmd.setex_tame db env argv hk,
    tame_one rfl (by decide) rfl rfl rfl (by decide) fun _ env argv db hk => Cmd.setex_tame db env argv hk,
    tame_one rfl (by decide) rfl rfl rfl (by decide) fun _ env argv db hk => Cmd.getset_tame db env argv hk,
    tame_one rfl (by decide) rfl rfl rfl (by decide) fun _ env argv db hk => Cmd.append_tame db env argv hk,
    reads_one rfl (by decide) rfl rfl rfl (by decide) fun _ env argv db hk => Cmd.strlen_reads db env argv hk,
    tame_one rfl (by decide) rfl rfl rfl (by decide) fun _ env argv db hk => Cmd.incrBy_tame db env argv 1 hk,
    tame_one rfl (by decide) rfl rfl rfl (by decide) fun _ env argv db hk => Cmd.incrBy_tame db env argv (-1) hk,
    tame_one rfl (by decide) rfl rfl rfl (by decide) fun _ env argv db hk => Cmd.incrby_tame db env argv hk,
    tame_one rfl (by decide) rfl rfl rfl (by decide) fun _ env argv db hk => Cmd.decrby_tame db env argv hk,
    tame_one rfl (by decide) rfl rfl rfl (by decide) fun _ env argv db hk => Cmd.incrbyfloat_tame db env argv hk,
    reads_all rfl (by decide) rfl rfl rfl fun _ env argv db hk => Cmd.mget_reads db env argv hk,
    tame_mset,
    reads_one rfl (by decide) rfl rfl rfl (by decide) fun _ env argv db hk => Cmd.getrange_reads db env argv hk,
    tame_one rfl (by decide) rfl rfl rfl (by decide) fun _ env argv db hk => Cmd.setrange_tame db env argv hk,
    tame_all rfl (by decide) rfl rfl rfl fun _ env argv db hk => Cmd.del_tame db env argv hk,
    tame_all rfl (by decide) rfl rfl rfl fun _ env argv db hk => Cmd.del_tame db env argv hk,
    reads_all rfl (by decide) rfl rfl rfl fun _ env argv db hk => Cmd.exists'_reads db env argv hk,
    reads_all rfl (by decide) rfl rfl rfl fun _ env argv db hk => Cmd.exists'_reads db env argv hk,
    tame_one rfl (by decide) rfl rfl rfl (by decide) fun _ env argv db hk =>
      Cmd.expireBy_tame db env argv (fun now secs => u64 (now + u64 (secs * 1000))) hk,
    tame_one rfl (by decide) rfl rfl rfl (by decide) fun _ env argv db hk =>
      Cmd.expireBy_tame db env argv (fun now ms => u64 (now + ms)) hk,
    tame_one rfl (by decide) rfl rfl rfl (by decide) fun _ env argv db hk =>
      Cmd.expireBy_tame db env argv (fun _ at' => u64 (at' * 1000)) hk,
    reads_one rfl (by decide) rfl rfl rfl (by decide) fun _ env argv db hk => Cmd.ttl_reads db env argv hk,
    reads_one rfl (by decide) rfl rfl rfl (by decide) fun _ env argv db hk => Cmd.pttl_reads db env argv hk,
    tame_one rfl (by decide) rfl rfl rfl (by decide) fun _ env argv db hk => Cmd.persist_tame db env argv hk,
    reads_one rfl (by decide) rfl rfl rfl (by decide) fun _ env argv db hk => Cmd.type_reads db env argv hk,
    reads_none rfl (by decide) fun _ env argv db => .clean (.refl _ db) _,
    reads_none rfl (by decide) fun _ env argv db => .clean (.refl _ db) _,
    tame_rename, by simp⟩

theorem deeds_second : ∀ spec ∈ (CommandTable.specs.drop 31).take 29, Deed spec := by
  simp only [CommandTable.specs, specsWith, List.take_succ_cons, List.take_zero, List.drop_succ_cons,
    List.drop_zero, List.forall_mem_cons]
  refine ⟨
    reads_none rfl (by decide) fun _ env argv db => .clean (.refl _ db) _,
    reads_object,
    tame_one rfl (by decide) rfl rfl rfl (by decide) fun _ env argv db hk => Cmd.hset_tame db env argv hk,
    tame_one rfl (by decide) rfl rfl rfl (by decide) fun _ env argv db hk => Cmd.hset_tame db env argv hk,
    reads_one rfl (by decide) rfl rfl rfl (by decide) fun _ env argv db hk => Cmd.hget_reads db env argv hk,
    shrinks_one rfl (by decide) rfl rfl rfl (by decide) fun _ env argv db hk =>
      Cmd.hdel_shrinks db env argv hk,
    reads_one rfl (by decide) rfl rfl rfl (by decide) fun _ env argv db hk => Cmd.hexists_reads db env argv hk,
    reads_one rfl (by decide) rfl rfl rfl (by decide) fun _ env argv db hk =>
      Cmd.hashEntries_reads db env argv 2 (fun e => Reply.bulk e.1 ++ Reply.bulk e.2) hk,
    reads_one rfl (by decide) rfl rfl rfl (by decide) fun _ env argv db hk =>
      Cmd.hashEntries_reads db env argv 1 (fun e => Reply.bulk e.1) hk,
    reads_one rfl (by decide) rfl rfl rfl (by decide) fun _ env argv db hk =>
      Cmd.hashEntries_reads db env argv 1 (fun e => Reply.bulk e.2) hk,
    reads_one rfl (by decide) rfl rfl rfl (by decide) fun _ env argv db hk => Cmd.hlen_reads db env argv hk,
    tame_one rfl (by decide) rfl rfl rfl (by decide) fun _ env argv db hk => Cmd.hincrby_tame db env argv hk,
    reads_one rfl (by decide) rfl rfl rfl (by decide) fun _ env argv db hk => Cmd.hmget_reads db env argv hk,
    tame_one rfl (by decide) rfl rfl rfl (by decide) fun _ env argv db hk => Cmd.push_tame db env argv true hk,
    tame_one rfl (by decide) rfl rfl rfl (by decide) fun _ env argv db hk => Cmd.push_tame db env argv false hk,
    tame_one rfl (by decide) rfl rfl rfl (by decide) fun _ env argv db hk => Cmd.pop_tame db env argv true hk,
    tame_one rfl (by decide) rfl rfl rfl (by decide) fun _ env argv db hk => Cmd.pop_tame db env argv false hk,
    reads_one rfl (by decide) rfl rfl rfl (by decide) fun _ env argv db hk => Cmd.llen_reads db env argv hk,
    reads_one rfl (by decide) rfl rfl rfl (by decide) fun _ env argv db hk => Cmd.lrange_reads db env argv hk,
    reads_one rfl (by decide) rfl rfl rfl (by decide) fun _ env argv db hk => Cmd.lindex_reads db env argv hk,
    tame_one rfl (by decide) rfl rfl rfl (by decide) fun _ env argv db hk => Cmd.lset_tame db env argv hk,
    tame_sadd,
    shrinks_one rfl (by decide) rfl rfl rfl (by decide) fun _ env argv db hk =>
      Cmd.srem_shrinks db env argv hk,
    reads_one rfl (by decide) rfl rfl rfl (by decide) fun _ env argv db hk => Cmd.sismember_reads db env argv hk,
    reads_one rfl (by decide) rfl rfl rfl (by decide) fun _ env argv db hk => Cmd.scard_reads db env argv hk,
    reads_one rfl (by decide) rfl rfl rfl (by decide) fun _ env argv db hk => Cmd.smembers_reads db env argv hk,
    shrinks_one rfl (by decide) rfl rfl rfl (by decide) fun _ env argv db hk =>
      Cmd.spop_shrinks db env argv hk,
    .zadd rfl,
    shrinks_one rfl (by decide) rfl rfl rfl (by decide) fun _ env argv db hk =>
      Cmd.zrem_shrinks db env argv hk, by simp⟩

theorem deeds_third : ∀ spec ∈ CommandTable.specs.drop 60, Deed spec := by
  simp only [CommandTable.specs, specsWith, List.drop_succ_cons, List.drop_zero, List.forall_mem_cons]
  refine ⟨
    reads_one rfl (by decide) rfl rfl rfl (by decide) fun _ env argv db hk => Cmd.zscore_reads db env argv hk,
    reads_one rfl (by decide) rfl rfl rfl (by decide) fun _ env argv db hk => Cmd.zcard_reads db env argv hk,
    reads_one rfl (by decide) rfl rfl rfl (by decide) fun _ env argv db hk => Cmd.zrank_reads db env argv hk,
    reads_one rfl (by decide) rfl rfl rfl (by decide) fun _ env argv db hk => Cmd.zrange_reads db env argv hk,
    reads_one rfl (by decide) rfl rfl rfl (by decide) fun _ env argv db hk => Cmd.zrangebyscore_reads db env argv hk,
    tame_one rfl (by decide) rfl rfl rfl (by decide) fun _ env argv db hk => Cmd.zincrby_tame db env argv hk,
    tame_one rfl (by decide) rfl rfl rfl (by decide) fun _ env argv db hk => Cmd.pfadd_tame db env argv hk,
    reads_all rfl (by decide) rfl rfl rfl fun _ env argv db hk => Cmd.pfcount_reads db env argv hk,
    tame_pfmerge,
    tame_one rfl (by decide) rfl rfl rfl (by decide) fun _ env argv db hk => tame_vector _ db _ _,
    reads_one rfl (by decide) rfl rfl rfl (by decide) fun _ env argv db hk => .clean (.refl _ db) _,
    reads_one rfl (by decide) rfl rfl rfl (by decide) fun _ env argv db hk => .clean (.refl _ db) _,
    tame_one rfl (by decide) rfl rfl rfl (by decide) fun _ env argv db hk => tame_vector _ db _ _,
    reads_none rfl (by decide) fun _ env argv db => .clean (.refl _ db) _,
    reads_none rfl (by decide) fun _ env argv db => .clean (.refl _ db) _,
    reads_none rfl (by decide) fun _ env argv db => .clean (.refl _ db) _,
    reads_none rfl (by decide) fun _ env argv db => .clean (.refl _ db) _,
    reads_none rfl (by decide) fun _ env argv db => .clean (.refl _ db) _,
    reads_none rfl (by decide) fun _ env argv db => .clean (.refl _ db) _,
    .flush (by decide) rfl rfl,
    .flush (by decide) rfl rfl,
    reads_none rfl (by decide) fun _ env argv db => Cmd.config_reads db env argv,
    reads_none rfl (by decide) fun _ env argv db => .clean (.refl _ db) _,
    reads_none rfl (by decide) fun _ env argv db => .clean (.refl _ db) _,
    reads_none rfl (by decide) fun _ env argv db => .clean (.refl _ db) _,
    reads_none rfl (by decide) fun _ env argv db => .clean (.refl _ db) _,
    reads_none rfl (by decide) fun _ env argv db => .clean (.refl _ db) _, by simp⟩

theorem deeds : ∀ spec ∈ CommandTable.specs, Deed spec := by
  intro spec h
  rw [← List.take_append_drop 31 CommandTable.specs, ← List.take_append_drop 29 (CommandTable.specs.drop 31),
    List.drop_drop, List.mem_append, List.mem_append] at h
  rcases h with h | h | h
  · exact deeds_first spec h
  · exact deeds_second spec h
  · exact deeds_third spec h

/-- The entries that are marked as writes. -/
def CommandTable.writers : List CommandSpec := [
  ⟨ascii "set", Cmd.set, -3, true, 1, 1, 1⟩,
  ⟨ascii "setnx", Cmd.setnx, 3, true, 1, 1, 1⟩,
  ⟨ascii "setex", Cmd.setex, 4, true, 1, 1, 1⟩,
  ⟨ascii "psetex", Cmd.setex, 4, true, 1, 1, 1⟩,
  ⟨ascii "getset", Cmd.getset, 3, true, 1, 1, 1⟩,
  ⟨ascii "append", Cmd.append, 3, true, 1, 1, 1⟩,
  ⟨ascii "incr", Cmd.incr, 2, true, 1, 1, 1⟩,
  ⟨ascii "decr", Cmd.decr, 2, true, 1, 1, 1⟩,
  ⟨ascii "incrby", Cmd.incrby, 3, true, 1, 1, 1⟩,
  ⟨ascii "decrby", Cmd.decrby, 3, true, 1, 1, 1⟩,
  ⟨ascii "incrbyfloat", Cmd.incrbyfloat, 3, true, 1, 1, 1⟩,
  ⟨ascii "mset", Cmd.mset, -3, true, 1, -1, 2⟩,
  ⟨ascii "setrange", Cmd.setrange, 4, true, 1, 1, 1⟩,
  ⟨ascii "del", Cmd.del, -2, true, 1, -1, 1⟩,
  ⟨ascii "unlink", Cmd.unlink, -2, true, 1, -1, 1⟩,
  ⟨ascii "expire", Cmd.expire, 3, true, 1, 1, 1⟩,
  ⟨ascii "pexpire", Cmd.pexpire, 3, true, 1, 1, 1⟩,
  ⟨ascii "expireat", Cmd.expireat, 3, true, 1, 1, 1⟩,
  ⟨ascii "persist", Cmd.persist, 2, true, 1, 1, 1⟩,
  ⟨ascii "rename", Cmd.rename, 3, true, 1, 2, 1⟩,
  ⟨ascii "hset", Cmd.hset, -4, true, 1, 1, 1⟩,
  ⟨ascii "hmset", Cmd.hset, -4, true, 1, 1, 1⟩,
  ⟨ascii "hdel", Cmd.hdel, -3, true, 1, 1, 1⟩,
  ⟨ascii "hincrby", Cmd.hincrby, 4, true, 1, 1, 1⟩,
  ⟨ascii "lpush", Cmd.lpush, -3, true, 1, 1, 1⟩,
  ⟨ascii "rpush", Cmd.rpush, -3, true, 1, 1, 1⟩,
  ⟨ascii "lpop", Cmd.lpop, -2, true, 1, 1, 1⟩,
  ⟨ascii "rpop", Cmd.rpop, -2, true, 1, 1, 1⟩,
  ⟨ascii "lset", Cmd.lset, 4, true, 1, 1, 1⟩,
  ⟨ascii "sadd", Cmd.sadd, -3, true, 1, 1, 1⟩,
  ⟨ascii "srem", Cmd.srem, -3, true, 1, 1, 1⟩,
  ⟨ascii "spop", Cmd.spop, -2, true, 1, 1, 1⟩,
  ⟨ascii "zadd", Cmd.zadd, -4, true, 1, 1, 1⟩,
  ⟨ascii "zrem", Cmd.zrem, -3, true, 1, 1, 1⟩,
  ⟨ascii "zincrby", Cmd.zincrby, 4, true, 1, 1, 1⟩,
  ⟨ascii "pfadd", Cmd.pfadd, -2, true, 1, 1, 1⟩,
  ⟨ascii "pfmerge", Cmd.pfmerge, -2, true, 1, -1, 1⟩,
  ⟨ascii "vadd", Cmd.vadd, -4, true, 1, 1, 1⟩,
  ⟨ascii "vrem", Cmd.vrem, 3, true, 1, 1, 1⟩]

theorem writers_eq : CommandTable.specs.filter (·.write) = CommandTable.writers := rfl

theorem mem_writers {spec : CommandSpec} (h : spec ∈ CommandTable.specs) (hw : spec.write) :
    spec ∈ CommandTable.writers := by
  rw [← writers_eq]
  exact List.mem_filter.2 ⟨h, hw⟩

end BlazeKV
