import BlazeKV.Proofs.Expiry

/-! While no key has a deadline, the clock does not matter to a command, and the commands
that set no deadline leave it so. -/

namespace BlazeKV

open Keyspace

/-- No key has a deadline, and no value the type that no command makes. -/
structure Bare (db : Keyspace) : Prop where
  deadline : ∀ k, db.expires.find k = none
  plain : db.All fun o => o.type ≠ .hll

attribute [grind =] Object.type

namespace Bare

variable {db : Keyspace} {α : Type}

theorem dead (h : Bare db) (now : ℕ) (key : Bytes) : db.dead now key = false := by simp [Keyspace.dead, h.deadline key]

theorem peek (h : Bare db) (now : ℕ) (key : Bytes) : db.peek now key = db.dict.find key := by simp [Keyspace.peek, h.dead]

theorem live (h : Bare db) (now : ℕ) (key : Bytes) : db.live now key = (db.dict.find key).map fun o => (o, none) := by
  rw [Keyspace.live, h.peek, h.deadline key]

theorem lookup (h : Bare db) (now : ℕ) (key : Bytes) : db.lookup now key = (db, db.dict.find key) := by
  have h0 : db.expires.size = 0 := (Dict.size_eq_zero _).2 h.deadline
  unfold Keyspace.lookup
  cases db.dict.find key <;> simp [h0]

theorem existsKey (h : Bare db) (now : ℕ) (key : Bytes) : db.existsKey now key = (db, (db.dict.find key).isSome) := by
  rw [Keyspace.existsKey, h.lookup]

theorem getAs (h : Bare db) (view : Object → Option α) (now : ℕ) (key : Bytes) : getAs view db now key = (db, found view (db.dict.find key)) := by
  rw [getAs_eq, h.lookup, h.peek]

theorem getOrMake (h : Bare db) (view : Object → Option α) (make : α → Object) (fresh : α) (now : ℕ) (key : Bytes) :
    getOrMake view make fresh db now key =
    match found view (db.dict.find key) with
    | .absent => (db.set key (make fresh), some fresh)
    | .wrongType => (db, none)
    | .present a => (db, some a) := by
  cases hf : found view (db.dict.find key) <;> simp [getOrMake_eq, h.lookup, h.peek, hf]

@[grind .] theorem set (h : Bare db) (key : Bytes) {o : Object} (ho : o.type ≠ .hll) : Bare (db.set key o) :=
  ⟨fun k => by rw [find_expires_set, h.deadline k, ite_self], h.plain.set ho⟩

@[grind .] theorem write (h : Bare db) (key : Bytes) {o : Object} (ho : o.type ≠ .hll) : Bare (db.write key o) :=
  ⟨h.deadline, h.plain.write ho⟩

@[grind .] theorem erase (h : Bare db) (key : Bytes) : Bare (db.erase key) :=
  ⟨fun k => by rw [find_expires_erase, h.deadline k, ite_self], h.plain.erase⟩

@[grind .] theorem persist (h : Bare db) (key : Bytes) : Bare (db.persist key).1 :=
  ⟨fun k => by simp [Keyspace.persist, h.deadline k], h.plain⟩

@[grind →] theorem found (h : Bare db) {key : Bytes} {o : Object} (ho : db.dict.find key = some o) : o.type ≠ .hll :=
  h.plain key o ho

theorem deadlineOrZero (h : Bare db) (key : Bytes) : db.deadlineOrZero key = 0 := by
  simp [Keyspace.deadlineOrZero, h.deadline key]

end Bare

/-- A handler that sets no deadline. -/
structure Timeless (f : Handler) (argv : List Bytes) : Prop where
  clock : ∀ env db t, Bare db → f { env with now := t } argv db = f env argv db
  bare : ∀ env db, Bare db → Bare (f env argv db).db

namespace Cmd

variable (argv : List Bytes)

theorem append_timeless : Timeless append argv := by
  refine ⟨fun env db t h => ?_, fun env db h => ?_⟩ <;> simp only [append, getString, h.getAs]
  grind

theorem getset_timeless : Timeless getset argv := by
  refine ⟨fun env db t h => ?_, fun env db h => ?_⟩ <;> simp only [getset, getString, h.getAs]
  grind

theorem setnx_timeless : Timeless setnx argv := by
  refine ⟨fun env db t h => ?_, fun env db h => ?_⟩ <;> simp only [setnx, h.lookup]
  grind

theorem incrBy_timeless (delta : ℤ) : Timeless (incrBy delta) argv := by
  refine ⟨fun env db t h => ?_, fun env db h => ?_⟩ <;> simp only [incrBy, getString, h.getAs]
  grind

theorem incrbyfloat_timeless : Timeless incrbyfloat argv := by
  refine ⟨fun env db t h => ?_, fun env db h => ?_⟩ <;> simp only [incrbyfloat, getString, h.getAs]
  grind

theorem setrange_timeless : Timeless setrange argv := by
  refine ⟨fun env db t h => ?_, fun env db h => ?_⟩ <;> simp only [setrange, getString, h.getAs]
  grind

theorem hset_timeless : Timeless hset argv := by
  refine ⟨fun env db t h => ?_, fun env db h => ?_⟩ <;> simp only [hset, makeHash, h.getOrMake]
  grind

theorem hdel_timeless : Timeless hdel argv := by
  refine ⟨fun env db t h => ?_, fun env db h => ?_⟩ <;> simp only [hdel, getHash, h.getAs]
  grind

theorem hincrby_timeless : Timeless hincrby argv := by
  refine ⟨fun env db t h => ?_, fun env db h => ?_⟩ <;> simp only [hincrby, makeHash, h.getOrMake]
  cases parseInt (arg argv 3) with
  | none => exact h
  | some delta => cases found Object.hash? (db.dict.find (arg argv 1)) <;> dsimp only <;> grind

theorem push_timeless (head : Bool) : Timeless (push head) argv := by
  refine ⟨fun env db t h => ?_, fun env db h => ?_⟩ <;> simp only [push, makeList, h.getOrMake]
  grind

theorem pop_timeless (head : Bool) : Timeless (pop head) argv := by
  refine ⟨fun env db t h => ?_, fun env db h => ?_⟩ <;> simp only [pop, getList, h.getAs]
  grind

theorem lset_timeless : Timeless lset argv := by
  refine ⟨fun env db t h => ?_, fun env db h => ?_⟩ <;> simp only [lset, getList, h.getAs]
  grind

theorem sadd_timeless : Timeless sadd argv := by
  refine ⟨fun env db t h => ?_, fun env db h => ?_⟩ <;> simp only [sadd, makeSet, h.getOrMake]
  grind

theorem srem_timeless : Timeless srem argv := by
  refine ⟨fun env db t h => ?_, fun env db h => ?_⟩ <;> simp only [srem, getSet, h.getAs]
  grind

theorem spop_timeless : Timeless spop argv := by
  refine ⟨fun env db t h => ?_, fun env db h => ?_⟩ <;> simp only [spop, getSet, h.getAs]
  grind

theorem zadd_timeless : Timeless zadd argv := by
  refine ⟨fun env db t h => ?_, fun env db h => ?_⟩ <;> simp only [zadd, makeZSet, h.getOrMake]
  grind

theorem zrem_timeless : Timeless zrem argv := by
  refine ⟨fun env db t h => ?_, fun env db h => ?_⟩ <;> simp only [zrem, getZSet, h.getAs]
  grind

theorem zincrby_timeless : Timeless zincrby argv := by
  refine ⟨fun env db t h => ?_, fun env db h => ?_⟩ <;> simp only [zincrby, makeZSet, h.getOrMake]
  grind

theorem pfadd_timeless : Timeless pfadd argv := by
  refine ⟨fun env db t h => ?_, fun env db h => ?_⟩ <;> simp only [pfadd, getHll, h.getAs]
  grind

theorem rename_timeless : Timeless rename argv := by
  refine ⟨fun env db t h => ?_, fun env db h => ?_⟩ <;> simp only [rename, h.lookup]
  have := h.deadlineOrZero (arg argv 1)
  grind

theorem persist_timeless : Timeless persist argv := by
  refine ⟨fun env db t h => ?_, fun env db h => ?_⟩ <;> simp only [persist, h.existsKey]
  grind

theorem incrby_timeless : Timeless incrby argv := by
  refine ⟨fun env db t h => ?_, fun env db h => ?_⟩ <;> simp only [incrby] <;> split
  · rfl
  · exact (incrBy_timeless argv _).clock env db t h
  · exact h
  · exact (incrBy_timeless argv _).bare env db h

theorem decrby_timeless : Timeless decrby argv := by
  refine ⟨fun env db t h => ?_, fun env db h => ?_⟩ <;> simp only [decrby] <;> split
  · rfl
  · exact (incrBy_timeless argv _).clock env db t h
  · exact h
  · exact (incrBy_timeless argv _).bare env db h

theorem del_timeless : Timeless del argv :=
  ⟨fun _ _ _ _ => rfl, fun _ _ h => countLoop_keeps (P := Bare) argv.tail (fun _ k _ h => h.erase k) h⟩

theorem mset_timeless : Timeless mset argv := by
  refine ⟨fun _ _ _ _ => rfl, fun env db h => ?_⟩
  have hfold : ∀ (ps : List (Bytes × Bytes)) (db : Keyspace), Bare db →
      Bare (ps.foldl (fun db p => db.set p.1 (.string p.2)) db) := by
    intro ps
    induction ps with
    | nil => exact fun _ h => h
    | cons p ps ih => exact fun db h => ih _ (h.set p.1 (by simp [Object.type]))
  unfold mset
  split_ifs
  · exact h
  · exact hfold _ _ h

theorem mergeRound_bare {db : Keyspace} (h : Bare db) (now : ℕ) (regs : Bytes) (ks : List Bytes) :
    ks.foldl (mergeRound now) (db, regs) =
      (db, ks.foldl (fun regs k => ((db.dict.find k).bind Object.str?).elim regs (Hll.merge regs)) regs) := by
  induction ks generalizing regs with
  | nil => rfl
  | cons k ks ih =>
    rw [List.foldl_cons, mergeRound, h.lookup]
    exact ih _

theorem pfmerge_timeless : Timeless pfmerge argv := by
  refine ⟨fun env db t h => ?_, fun env db h => ?_⟩ <;> simp only [pfmerge, h.lookup, mergeRound_bare h]
  exact h.set _ (by simp [Object.type])

/-- Without an expiry option the clock does not matter to the options of `SET`. -/
theorem setOpts_free {args : List Bytes} (hfree : ∀ a ∈ args, isExpireOpt (lowercase a) = false) (now t : ℕ) (o : SetOpts) :
    setOpts t o args = setOpts now o args ∧ ∀ o', setOpts now o args = .ok o' → o'.deadline = o.deadline := by
  induction args generalizing o with
  | nil =>
    refine ⟨rfl, fun o' h => ?_⟩
    rw [setOpts] at h
    rw [Except.ok.inj h]
  | cons a args ih =>
    have ih := fun o => ih (fun b hb => hfree b (List.mem_cons_of_mem _ hb)) o
    have ha := hfree a List.mem_cons_self
    unfold setOpts
    dsimp only
    rw [ha]
    simp only [Bool.false_eq_true, if_false]
    split_ifs
    · exact ih _
    · exact ih _
    · exact ih _
    · exact ih _
    · exact ⟨rfl, fun o' h => by cases h⟩

theorem setWrite_bare {db : Keyspace} (h : Bare db) {o : SetOpts} (ho : o.deadline = 0) (key val : Bytes) :
    Bare (setWrite o db key val) := by
  simp only [setWrite, ho, h.deadlineOrZero, ite_self, ne_eq, not_true_eq_false, if_false]
  exact h.set _ (by simp [Object.type])

theorem set_timeless (hfree : ∀ a ∈ argv.drop 3, isExpireOpt (lowercase a) = false) : Timeless set argv := by
  refine ⟨fun env db t h => ?_, fun env db h => ?_⟩
  · simp only [set, h.lookup, (setOpts_free hfree env.now t _).1]
  · have hopts := (setOpts_free hfree env.now 0 ⟨0, false, false, false, false⟩).2
    simp only [set, h.lookup]
    cases ho : setOpts env.now ⟨0, false, false, false, false⟩ (argv.drop 3) with
    | error e => exact h
    | ok o =>
      have hw := setWrite_bare h (hopts o ho) (arg argv 1) (arg argv 2)
      grind

theorem vadd_timeless : Timeless vadd argv := ⟨fun _ _ _ _ => rfl, fun _ _ h => h⟩

theorem vrem_timeless : Timeless vrem argv := ⟨fun _ _ _ _ => rfl, fun _ _ h => h⟩

end Cmd

/-- A handler that only looks. -/
def Unmoved (f : Handler) : Prop := ∀ env argv db, Bare db → (f env argv db).db = db

namespace Cmd

theorem strings_unmoved : ∀ f ∈ [get, strlen, getrange], Unmoved f := by
  simp only [List.forall_mem_cons]
  refine ⟨?_, ?_, ?_, by simp⟩ <;> intro env argv db h <;>
    simp only [get, strlen, getrange, getString, h.getAs] <;> grind

theorem hashes_unmoved : ∀ f ∈ [hget, hexists, hlen, hmget], Unmoved f := by
  simp only [List.forall_mem_cons]
  refine ⟨?_, ?_, ?_, ?_, by simp⟩ <;> intro env argv db h <;>
    simp only [hget, hexists, hlen, hmget, getHash, h.getAs] <;> grind

theorem hashEntries_unmoved (width : ℕ) (entry : Bytes × Bytes → Bytes) : Unmoved (hashEntries width entry) := by
  intro env argv db h
  simp only [hashEntries, getHash, h.getAs]
  grind

theorem lists_unmoved : ∀ f ∈ [llen, lrange, lindex], Unmoved f := by
  simp only [List.forall_mem_cons]
  refine ⟨?_, ?_, ?_, by simp⟩ <;> intro env argv db h <;>
    simp only [llen, lrange, lindex, getList, h.getAs] <;> grind

theorem sets_unmoved : ∀ f ∈ [sismember, scard, smembers], Unmoved f := by
  simp only [List.forall_mem_cons]
  refine ⟨?_, ?_, ?_, by simp⟩ <;> intro env argv db h <;>
    simp only [sismember, scard, smembers, getSet, h.getAs] <;> grind

theorem zsets_unmoved : ∀ f ∈ [zscore, zcard, zrank, zrange, zrangebyscore], Unmoved f := by
  simp only [List.forall_mem_cons]
  refine ⟨?_, ?_, ?_, ?_, ?_, by simp⟩ <;> intro env argv db h <;>
    simp only [zscore, zcard, zrank, zrange, zrangebyscore, getZSet, h.getAs] <;> grind

theorem mget_unmoved : Unmoved mget := by
  intro env argv db h
  have hloop : ∀ (ks : List Bytes) (out : Bytes), (ks.foldl (mgetRound env.now) (db, out)).1 = db := by
    intro ks
    induction ks with
    | nil => exact fun _ => rfl
    | cons k ks ih =>
      intro out
      rw [List.foldl_cons, mgetRound, h.lookup]
      exact ih _
  exact hloop _ _

theorem exists'_unmoved : Unmoved exists' := by
  intro env argv db h
  have hstep : ∀ d k, k ∈ argv.tail → d = db → (d.existsKey env.now k).1 = db := fun d k _ hd => by
    rw [hd, h.existsKey]
  exact countLoop_keeps (P := (· = db)) argv.tail hstep rfl

theorem ttlMs_unmoved {db : Keyspace} (h : Bare db) (now : ℕ) (key : Bytes) : (db.ttlMs now key).1 = db := by
  simp only [ttlMs, h.existsKey, h.deadline]
  split_ifs <;> rfl

theorem ttl_unmoved : Unmoved ttl := fun env argv _ h => ttlMs_unmoved h env.now (arg argv 1)

theorem pttl_unmoved : Unmoved pttl := fun env argv _ h => ttlMs_unmoved h env.now (arg argv 1)

theorem type_unmoved : Unmoved type := fun env argv db h => by
  simp only [type, h.lookup, Result.clean_db]

theorem object_unmoved : Unmoved object := fun env argv db h => by
  simp only [object, h.lookup]
  grind

theorem pfcount_unmoved : Unmoved pfcount := fun env argv db h => by
  simp only [pfcount, mergeRound_bare h, Result.clean_db]

theorem config_unmoved : Unmoved config := fun env argv db _ => by
  simp only [config]
  split_ifs <;> rfl

end Cmd

/-- The commands that are about deadlines. -/
def deadlineSetters : List Bytes :=
  [ascii "setex", ascii "psetex", ascii "expire", ascii "pexpire", ascii "expireat"]

theorem unmoved : ∀ spec ∈ CommandTable.readers, spec.name ∉ [ascii "flushall", ascii "flushdb"] → Unmoved spec.fn := by
  simp only [CommandTable.readers, List.forall_mem_cons]
  exact ⟨
    fun _ => Cmd.strings_unmoved _ (by simp), fun _ => Cmd.strings_unmoved _ (by simp),
    fun _ => Cmd.mget_unmoved, fun _ => Cmd.strings_unmoved _ (by simp), fun _ => Cmd.exists'_unmoved,
    fun _ => Cmd.exists'_unmoved, fun _ => Cmd.ttl_unmoved, fun _ => Cmd.pttl_unmoved,
    fun _ => Cmd.type_unmoved, fun _ => fun _ _ _ _ => rfl, fun _ => fun _ _ _ _ => rfl,
    fun _ => fun _ _ _ _ => rfl, fun _ => Cmd.object_unmoved, fun _ => Cmd.hashes_unmoved _ (by simp),
    fun _ => Cmd.hashes_unmoved _ (by simp), fun _ => Cmd.hashEntries_unmoved _ _,
    fun _ => Cmd.hashEntries_unmoved _ _, fun _ => Cmd.hashEntries_unmoved _ _,
    fun _ => Cmd.hashes_unmoved _ (by simp), fun _ => Cmd.hashes_unmoved _ (by simp),
    fun _ => Cmd.lists_unmoved _ (by simp), fun _ => Cmd.lists_unmoved _ (by simp),
    fun _ => Cmd.lists_unmoved _ (by simp), fun _ => Cmd.sets_unmoved _ (by simp),
    fun _ => Cmd.sets_unmoved _ (by simp), fun _ => Cmd.sets_unmoved _ (by simp),
    fun _ => Cmd.zsets_unmoved _ (by simp), fun _ => Cmd.zsets_unmoved _ (by simp),
    fun _ => Cmd.zsets_unmoved _ (by simp), fun _ => Cmd.zsets_unmoved _ (by simp),
    fun _ => Cmd.zsets_unmoved _ (by simp), fun _ => Cmd.pfcount_unmoved, fun _ => fun _ _ _ _ => rfl,
    fun _ => fun _ _ _ _ => rfl, fun _ => fun _ _ _ _ => rfl, fun _ => fun _ _ _ _ => rfl,
    fun _ => fun _ _ _ _ => rfl, fun _ => fun _ _ _ _ => rfl, fun _ => fun _ _ _ _ => rfl,
    fun _ => fun _ _ _ _ => rfl, fun h => absurd (by decide) h, fun h => absurd (by decide) h,
    fun _ => Cmd.config_unmoved, fun _ => fun _ _ _ _ => rfl, fun _ => fun _ _ _ _ => rfl,
    fun _ => fun _ _ _ _ => rfl, fun _ => fun _ _ _ _ => rfl, fun _ => fun _ _ _ _ => rfl,
    by simp⟩

/-- A command that sets no deadline: none of these, and no `SET` with an expiry option. -/
def TtlFree (argv : List Bytes) : Prop :=
  lowercase (cmdName argv) ∉ deadlineSetters ∧
    (lowercase (cmdName argv) = ascii "set" → ∀ a ∈ argv.drop 3, Cmd.isExpireOpt (lowercase a) = false)

theorem timeless {argv : List Bytes} : ∀ spec ∈ CommandTable.writers, spec.name ∉ deadlineSetters →
    (spec.name = ascii "set" → ∀ a ∈ argv.drop 3, Cmd.isExpireOpt (lowercase a) = false) → Timeless spec.fn argv := by
  simp only [CommandTable.writers, List.forall_mem_cons]
  exact ⟨fun _ h => Cmd.set_timeless argv (h trivial), fun _ _ => Cmd.setnx_timeless argv,
    fun h => absurd (by decide) h, fun h => absurd (by decide) h, fun _ _ => Cmd.getset_timeless argv,
    fun _ _ => Cmd.append_timeless argv, fun _ _ => Cmd.incrBy_timeless argv 1,
    fun _ _ => Cmd.incrBy_timeless argv (-1), fun _ _ => Cmd.incrby_timeless argv,
    fun _ _ => Cmd.decrby_timeless argv, fun _ _ => Cmd.incrbyfloat_timeless argv,
    fun _ _ => Cmd.mset_timeless argv, fun _ _ => Cmd.setrange_timeless argv, fun _ _ => Cmd.del_timeless argv,
    fun _ _ => Cmd.del_timeless argv, fun h => absurd (by decide) h, fun h => absurd (by decide) h,
    fun h => absurd (by decide) h, fun _ _ => Cmd.persist_timeless argv, fun _ _ => Cmd.rename_timeless argv,
    fun _ _ => Cmd.hset_timeless argv, fun _ _ => Cmd.hset_timeless argv, fun _ _ => Cmd.hdel_timeless argv,
    fun _ _ => Cmd.hincrby_timeless argv, fun _ _ => Cmd.push_timeless argv true,
    fun _ _ => Cmd.push_timeless argv false, fun _ _ => Cmd.pop_timeless argv true,
    fun _ _ => Cmd.pop_timeless argv false, fun _ _ => Cmd.lset_timeless argv, fun _ _ => Cmd.sadd_timeless argv,
    fun _ _ => Cmd.srem_timeless argv, fun _ _ => Cmd.spop_timeless argv, fun _ _ => Cmd.zadd_timeless argv,
    fun _ _ => Cmd.zrem_timeless argv, fun _ _ => Cmd.zincrby_timeless argv, fun _ _ => Cmd.pfadd_timeless argv,
    fun _ _ => Cmd.pfmerge_timeless argv, fun _ _ => Cmd.vadd_timeless argv, fun _ _ => Cmd.vrem_timeless argv,
    by simp⟩

end BlazeKV
