import BlazeKV.Lib.Machine
import BlazeKV.Proofs.Containers
import BlazeKV.Proofs.FanOut
import BlazeKV.Proofs.PlainValues
import BlazeKV.Proofs.SortedSets

/-! Keyspaces as abstract stores over whole runs: the commands of strings, lists, sets, hashes,
sorted sets and keys are those of the store that they are for, also while deadlines pass. -/

namespace BlazeKV

open Keyspace Lib Abstract

section Stores

variable {env : Env} {argv : List Bytes} {db : Keyspace}

/-- Time takes from a keyspace what it takes from the store. -/
theorem holdings_at {now later : ℕ} (hle : now ≤ later) : (holdings now db).at later = holdings later db := by
  funext k
  unfold Holdings.at holdings
  unfold live peek dead
  cases db.dict.find k with
  | none => simp [cellOf]
  | some o =>
    cases hd : db.expires.find k with
    | none => simp [cellOf, alive]
    | some dl =>
      by_cases h1 : dl ≤ now <;> by_cases h2 : dl ≤ later <;> simp [cellOf, alive, h1, h2] <;> omega

theorem Becomes.holdings {now : ℕ} {key : Bytes} {e : Option Entry} {db' : Keyspace}
    (h : Becomes now key db db' e) :
    holdings now db' = Function.update (holdings now db) key (cellOf e) := by
  funext k
  unfold BlazeKV.holdings
  rw [h k, Function.update_apply]
  split_ifs <;> rfl

/-- A handler obeys its command. -/
def Obeys (C : List Bytes → Command) (f : Handler) (env : Env) (argv : List Bytes) (db : Keyspace) : Prop :=
  C argv env.now (holdings env.now db) (holdings env.now (f env argv db).db) (f env argv db).reply

theorem Performs.obeys {E : List Bytes → Effect} {f : Handler}
    (h : Performs (E argv) env argv db (f env argv db)) :
    Obeys (onKey E) f env argv db := by
  obtain ⟨e, ht, he⟩ := h
  exact ⟨cellOf e, he, ht.holdings⟩

theorem stringOf_holdings (k : Bytes) :
    stringOf (holdings env.now db k) = (db.peek env.now k).bind Object.string? := by
  rw [← lookup_snd, (lookup_sees db env.now k).1]
  rfl

theorem isSome_holdings (k : Bytes) : (holdings env.now db k).isSome = (db.peek env.now k).isSome := by
  unfold holdings live cellOf
  cases db.peek env.now k <;> rfl

theorem del_obeys : Obeys Abstract.del Cmd.del env argv db := by
  obtain ⟨hlive, hcount⟩ := erase_fold env argv.tail db
  unfold Obeys Cmd.del Abstract.del
  refine ⟨?_, storedCount (fun k => (db.dict.find k).isSome) argv.tail, ?_, Finset.card_filter_le _ _, ?_⟩
  · funext k
    unfold holdings
    dsimp only [Result.markedIf]
    rw [hlive k]
    split_ifs <;> rfl
  · refine Finset.card_le_card fun k hk => ?_
    rw [Finset.mem_filter] at hk ⊢
    refine ⟨hk.1, ?_⟩
    obtain ⟨o, ho⟩ := Option.isSome_iff_exists.1 ((isSome_holdings k).symm.trans hk.2)
    show (db.dict.find k).isSome = true
    rw [find_of_peek _ _ _ _ ho]
    rfl
  · rw [← hcount]
    rfl

theorem exists_obeys : Obeys Abstract.exists' Cmd.exists' env argv db := by
  obtain ⟨hlive, hcount⟩ := exists_fold env argv.tail db db fun _ => rfl
  unfold Obeys Cmd.exists' Abstract.exists'
  refine ⟨?_, ?_⟩
  · funext k
    exact congrArg cellOf (hlive k)
  · dsimp only [Result.clean]
    rw [hcount]
    simp only [isSome_holdings]

theorem mget_obeys : Obeys Abstract.mget Cmd.mget env argv db := by
  obtain ⟨hlive, hreply⟩ := mget_fold env argv.tail db (db, Reply.arrayHeader (argv.length - 1)) fun _ => rfl
  unfold Obeys Cmd.mget Abstract.mget
  refine ⟨?_, ?_⟩
  · funext k
    exact congrArg cellOf (hlive k)
  · refine hreply.trans ?_
    rw [← List.flatMap_def]
    simp only [stringOf_holdings]

theorem holdings_set (db : Keyspace) (now : ℕ) (k s : Bytes) :
    holdings now (db.set k (.string s)) = Function.update (holdings now db) k (some (.string s, none)) := by
  funext k'
  unfold holdings
  rw [live_set, Function.update_apply]
  split_ifs <;> rfl

theorem holdings_setAll (ps : List (Bytes × Bytes)) (db : Keyspace) (now : ℕ) :
    holdings now (ps.foldl (fun db p => db.set p.1 (.string p.2)) db) = storeAll (holdings now db) ps := by
  induction ps generalizing db with
  | nil => rfl
  | cons p ps ih => rw [List.foldl_cons, ih, holdings_set]; rfl

theorem mset_obeys : Obeys Abstract.mset Cmd.mset env argv db := by
  unfold Obeys Cmd.mset Abstract.mset
  by_cases hodd : argv.length % 2 ≠ 1
  · rw [if_pos hodd, if_pos hodd]
    exact ⟨rfl, rfl⟩
  · rw [if_neg hodd, if_neg hodd]
    exact ⟨holdings_setAll _ _ _, rfl⟩

theorem rename_obeys : Obeys Abstract.rename Cmd.rename env argv db := by
  unfold Obeys Cmd.rename Abstract.rename
  rcases lookup_cases db env.now (arg argv 1) with ⟨hfind, hlive⟩ | ⟨o, hfind, hlive⟩
  · have hnone : (holdings env.now db (arg argv 1)).isNone = true := by
      unfold holdings
      rw [hlive]
      rfl
    rw [hfind, if_pos hnone]
    refine ⟨?_, rfl⟩
    funext k
    exact congrArg cellOf (live_lookup db env.now (arg argv 1) k)
  · have hsome : ¬(holdings env.now db (arg argv 1)).isNone = true := by
      unfold holdings
      rw [hlive]
      exact Bool.false_ne_true
    have hfrom : Becomes env.now (arg argv 1) db db _ := becomes_same
    have hto : Becomes env.now (arg argv 2) (db.erase (arg argv 1)) (db.erase (arg argv 1)) _ := becomes_same
    have herase := hfrom.erase.holdings
    have hset := hto.set o
    have hcell : holdings env.now db (arg argv 1) = some (valueOf o, db.expires.find (arg argv 1)) := by
      unfold holdings
      rw [hlive]
      rfl
    rw [hfind, if_neg hsome, hcell]
    dsimp only [deadlineOrZero]
    refine ⟨?_, rfl⟩
    generalize db.expires.find (arg argv 1) = d at hlive
    cases d with
    | none =>
      rw [Option.getD_none, if_neg (by decide)]
      refine hset.holdings.trans ?_
      rw [herase]
      rfl
    | some dl =>
      have hlt := live_before hlive
      rw [Option.getD_some, if_pos (by omega)]
      refine (hset.setDeadline dl).holdings.trans ?_
      rw [herase, if_pos hlt]
      rfl

theorem holdings_clear (db : Keyspace) (now : ℕ) : holdings now db.clear = fun _ => none := by
  funext k
  unfold holdings
  rw [live_of_none (by simp [Keyspace.clear])]
  rfl

theorem flushall_obeys : Obeys (fun _ => Abstract.flushall) Cmd.flushall env argv db :=
  ⟨holdings_clear db env.now, rfl⟩

end Stores

/-! The table. -/

section Table

/-- A command of the store and the handler of the same name. -/
def Obeyed (p : Bytes × (List Bytes → Command)) : Prop :=
  ∃ spec, CommandTable.find p.1 = some spec ∧ ∀ env argv db, arityOk spec argv.length = true →
    InOrder Object.Filled db → Obeys p.2 spec.fn env argv db

theorem obeyed_of {name : Bytes} {C : List Bytes → Command} {spec : CommandSpec}
    (hf : CommandTable.find name = some spec)
    (h : ∀ env argv db, spec.arity.natAbs ≤ argv.length → InOrder Object.Filled db →
      Obeys C spec.fn env argv db) :
    Obeyed (name, C) :=
  ⟨spec, hf, fun env argv db har => h env argv db (arity_le har)⟩

theorem obeyed_key {name : Bytes} {E : List Bytes → Effect} {spec : CommandSpec}
    (hf : CommandTable.find name = some spec)
    (h : ∀ env argv db, spec.arity.natAbs ≤ argv.length → InOrder Object.Filled db →
      Performs (E argv) env argv db (spec.fn env argv db)) : Obeyed (name, onKey E) :=
  obeyed_of hf fun env argv db har hdb => (h env argv db har hdb).obeys

theorem commands_obeyed : ∀ p ∈ commands, Obeyed p := by
  unfold commands
  simp only [List.forall_mem_cons, List.not_mem_nil, false_imp_iff, implies_true, and_true]
  exact ⟨obeyed_key rfl fun _ _ _ _ _ => get_performs,
    obeyed_key rfl fun _ _ _ _ h => set_performs h.owned,
    obeyed_key rfl fun _ _ _ _ _ => setnx_performs,
    obeyed_key rfl fun _ _ _ _ _ => setex_performs,
    obeyed_key rfl fun _ _ _ _ _ => setex_performs,
    obeyed_key rfl fun _ _ _ _ _ => getset_performs,
    obeyed_key rfl fun _ _ _ _ _ => append_performs,
    obeyed_key rfl fun _ _ _ _ _ => strlen_performs,
    obeyed_key rfl fun _ _ _ _ _ => incrBy_performs rfl,
    obeyed_key rfl fun _ _ _ _ _ => incrBy_performs rfl,
    obeyed_key rfl fun _ _ _ _ _ => incrby_performs,
    obeyed_key rfl fun _ _ _ _ _ => decrby_performs,
    obeyed_key rfl fun _ _ _ _ _ => incrbyfloat_performs,
    obeyed_of rfl fun _ _ _ _ _ => mget_obeys,
    obeyed_of rfl fun _ _ _ _ _ => mset_obeys,
    obeyed_key rfl fun _ _ _ _ _ => getrange_performs,
    obeyed_key rfl fun _ _ _ _ _ => setrange_performs,
    obeyed_of rfl fun _ _ _ _ _ => del_obeys,
    obeyed_of rfl fun _ _ _ _ _ => del_obeys,
    obeyed_of rfl fun _ _ _ _ _ => exists_obeys,
    obeyed_of rfl fun _ _ _ _ _ => exists_obeys,
    obeyed_key rfl fun _ _ _ _ _ => expireBy_performs _,
    obeyed_key rfl fun _ _ _ _ _ => expireBy_performs _,
    obeyed_key rfl fun _ _ _ _ _ => expireBy_performs _,
    obeyed_key rfl fun _ _ _ _ _ => ttl_performs,
    obeyed_key rfl fun _ _ _ _ _ => pttl_performs,
    obeyed_key rfl fun _ _ _ _ _ => persist_performs,
    obeyed_key rfl fun _ _ _ _ _ => type_performs,
    obeyed_of rfl fun _ _ _ _ _ => rename_obeys,
    obeyed_key rfl fun _ _ _ ha _ => hset_performs ha,
    obeyed_key rfl fun _ _ _ ha _ => hset_performs ha,
    obeyed_key rfl fun _ _ _ _ h => hget_performs h.all,
    obeyed_key rfl fun _ _ _ _ _ => hdel_performs,
    obeyed_key rfl fun _ _ _ _ h => hexists_performs h.all,
    obeyed_key rfl fun _ _ _ _ h => hentries_performs h.all (fun _ => rfl) fun _ => by simp,
    obeyed_key rfl fun _ _ _ _ h => hentries_performs h.all (fun _ => rfl) fun _ => by simp,
    obeyed_key rfl fun _ _ _ _ h => hentries_performs h.all (fun _ => rfl) fun _ => by simp,
    obeyed_key rfl fun _ _ _ _ h => hlen_performs h.all,
    obeyed_key rfl fun _ _ _ _ h => hincrby_performs h.all,
    obeyed_key rfl fun _ _ _ _ h => hmget_performs h.all,
    obeyed_key rfl fun _ _ _ ha _ => push_performs true ha,
    obeyed_key rfl fun _ _ _ ha _ => push_performs false ha,
    obeyed_key rfl fun _ _ _ _ h => pop_performs true h.all,
    obeyed_key rfl fun _ _ _ _ h => pop_performs false h.all,
    obeyed_key rfl fun _ _ _ _ h => llen_performs h.all,
    obeyed_key rfl fun _ _ _ _ h => lrange_performs h.all,
    obeyed_key rfl fun _ _ _ _ h => lindex_performs h.all,
    obeyed_key rfl fun _ _ _ _ h => lset_performs h.all,
    obeyed_key rfl fun _ _ _ ha _ => sadd_performs ha,
    obeyed_key rfl fun _ _ _ _ _ => srem_performs,
    obeyed_key rfl fun _ _ _ _ h => sismember_performs h.all,
    obeyed_key rfl fun _ _ _ _ h => scard_performs h.all,
    obeyed_key rfl fun _ _ _ _ h => smembers_performs h.all,
    obeyed_key rfl fun _ _ _ _ h => spop_performs h.all,
    obeyed_key rfl fun _ _ _ _ _ => zadd_performs,
    obeyed_key rfl fun _ _ _ _ _ => zrem_performs,
    obeyed_key rfl fun _ _ _ _ _ => zscore_performs,
    obeyed_key rfl fun _ _ _ _ _ => zcard_performs,
    obeyed_key rfl fun _ _ _ _ _ => zrank_performs,
    obeyed_key rfl fun _ _ _ _ _ => zrange_performs,
    obeyed_key rfl fun _ _ _ _ _ => zrangebyscore_performs,
    obeyed_key rfl fun _ _ _ _ _ => zincrby_performs,
    obeyed_of rfl fun _ _ _ _ _ => flushall_obeys,
    obeyed_of rfl fun _ _ _ _ _ => flushall_obeys⟩

/-- A handler that only reads leaves what is held. -/
theorem holdings_reads {spec : CommandSpec} {env : Env} {argv : List Bytes} {db : Keyspace}
    (hr : route argv = .ok spec)
    (hn : spec.name ∉ commands.map Prod.fst) (hw : spec.write = false) :
    holdings env.now (spec.fn env argv db).db = holdings env.now db := by
  have hmem := (find_mem (route_ok hr).1).1
  cases deeds spec hmem with
  | reads _ _ h =>
    funext k
    exact congrArg cellOf ((h env argv db (route_ok hr).2).looked.live _ le_rfl k)
  | flush hflush =>
    refine absurd ?_ hn
    rcases hflush with hname | hname <;> rw [hname] <;> decide
  | tame ht => exact absurd (ht.symm.trans hw) (by decide)
  | shrinks ht => exact absurd (ht.symm.trans hw) (by decide)
  | zadd hz => exact absurd ((congrArg CommandSpec.write hz).symm.trans hw) (by decide)

/-- One request is one of the abstract store, at its time. -/
theorem exec_refines {env : Env} {argv : List Bytes} {db : Keyspace} {t : ℕ} (h : InOrder Object.Filled db)
    (ht : t ≤ env.now) :
    (holdings t db).Step env.now argv (execCore env argv db).reply
      (holdings env.now (execCore env argv db).db) := by
  unfold Holdings.Step execCore
  rw [holdings_at ht]
  cases hr : route argv with
  | error e => exact ⟨rfl, rfl⟩
  | ok spec =>
    refine ⟨fun C hC => ?_, fun hn hw => holdings_reads hr hn hw⟩
    obtain ⟨spec', hfind, hobeys⟩ := commands_obeyed _ hC
    obtain rfl : spec = spec' := route_spec hr rfl hfind
    exact hobeys env argv db (route_ok hr).2 h

end Table

end BlazeKV
