import BlazeKV.Proofs.LiveView
import BlazeKV.Spec.Registry

/-! The commands that only read: they leave what is live as it is, and their reply
depends only on the live entries of their keys. -/

namespace BlazeKV

open Keyspace

/-- A handler that has made lookups, of some keys, and nothing else. -/
structure Looked (K : Bytes → Prop) (now : ℕ) (db db' : Keyspace) : Prop where
  only : Only K db db'
  live : ∀ later, now ≤ later → ∀ k, db'.live later k = db.live later k

namespace Looked

variable {K : Bytes → Prop} {now : ℕ} {db db' : Keyspace} {key : Bytes}

theorem refl (now : ℕ) (db : Keyspace) : Looked K now db db := ⟨.refl db, fun _ _ _ => rfl⟩

theorem lookup (h : Looked K now db db') (hk : K key) : Looked K now db (db'.lookup now key).1 :=
  ⟨h.only.lookup _ now hk, fun later hle k =>
    (live_lookup_later db' now key k hle).trans (h.live later hle k)⟩

theorem one (now : ℕ) (db : Keyspace) (hk : K key) : Looked K now db (db.lookup now key).1 :=
  (refl now db).lookup hk

end Looked

/-- What a read gives: a result with no mark. -/
structure Reads (K : Bytes → Prop) (now : ℕ) (db : Keyspace) (r : Result) : Prop where
  looked : Looked K now db r.db
  dirty : r.dirty = false
  flush : r.flush = false

variable {K : Bytes → Prop} {now : ℕ} {db db' : Keyspace}

@[grind .] theorem Reads.clean (h : Looked K now db db') (reply : Bytes) :
    Reads K now db (.clean db' reply) := ⟨h, rfl, rfl⟩

@[simp, grind =] theorem Result.clean_reply (db : Keyspace) (reply : Bytes) :
    (Result.clean db reply).reply = reply := rfl

/-- Two keyspaces that show the same entry at some keys. -/
def SameAt (K : Bytes → Prop) (now : ℕ) (db db' : Keyspace) : Prop :=
  ∀ k, K k → db'.live now k = db.live now k

theorem SameAt.peek (h : SameAt K now db db') {k : Bytes} (hk : K k) : db'.peek now k = db.peek now k := by
  have := congrArg (Option.map Prod.fst) (h k hk)
  simpa [live, Function.comp_def] using this

/-- A reply that depends on the entries of some keys only. -/
def RepliesBy (K : Bytes → Prop) (now : ℕ) (run : Keyspace → Result) : Prop :=
  ∀ db db', SameAt K now db db' → (run db').reply = (run db).reply

/-! Loops over keys that look each one up. -/

section Loops

variable {β : Type} (step : Keyspace × β → Bytes → Keyspace × β) {keys : List Bytes}

theorem looked_foldl (hstep : ∀ r key, (step r key).1 = (r.1.lookup now key).1) (hK : ∀ k ∈ keys, K k)
    (r : Keyspace × β) (h : Looked K now db r.1) : Looked K now db (keys.foldl step r).1 := by
  induction keys generalizing r with
  | nil => exact h
  | cons key keys ih =>
    refine ih (fun k hk => hK k (by simp [hk])) _ ?_
    rw [hstep]
    exact h.lookup (hK key (by simp))

theorem SameAt.lookup (h : SameAt K now db db') (key : Bytes) :
    SameAt K now (db.lookup now key).1 (db'.lookup now key).1 := by
  intro k hk
  simpa using h k hk

/-- What the loop collects depends on what the lookups find. -/
theorem foldl_sees (hstep : ∀ r key, (step r key).1 = (r.1.lookup now key).1)
    (hsee : ∀ r r' key, r'.2 = r.2 → r'.1.peek now key = r.1.peek now key → (step r' key).2 = (step r key).2)
    (hK : ∀ k ∈ keys, K k) (r r' : Keyspace × β) (h2 : r'.2 = r.2) (h : SameAt K now r.1 r'.1) :
    (keys.foldl step r').2 = (keys.foldl step r).2 := by
  induction keys generalizing r r' with
  | nil => exact h2
  | cons key keys ih =>
    have hkey := hK key (by simp)
    refine ih (fun k hk => hK k (by simp [hk])) _ _ (hsee r r' key h2 (h.peek hkey)) ?_
    rw [hstep, hstep]
    exact h.lookup key

end Loops

namespace Cmd

variable (env : Env) (argv : List Bytes) (db)

theorem get_reads (hk : K (arg argv 1)) : Reads K env.now db (get env argv db) := by
  have hl := Looked.one env.now db hk
  simp only [get, getString, getAs_eq]
  grind

theorem get_sees (hk : K (arg argv 1)) : RepliesBy K env.now (get env argv) := by
  intro db db' h
  simp only [get, getString, getAs_eq, h.peek hk]
  grind

theorem strlen_reads (hk : K (arg argv 1)) : Reads K env.now db (strlen env argv db) := by
  have hl := Looked.one env.now db hk
  simp only [strlen, getString, getAs_eq]
  grind

theorem strlen_sees (hk : K (arg argv 1)) : RepliesBy K env.now (strlen env argv) := by
  intro db db' h
  simp only [strlen, getString, getAs_eq, h.peek hk]
  grind

theorem getrange_reads (hk : K (arg argv 1)) : Reads K env.now db (getrange env argv db) := by
  have hl := Looked.one env.now db hk
  simp only [getrange, getString, getAs_eq]
  grind

theorem getrange_sees (hk : K (arg argv 1)) : RepliesBy K env.now (getrange env argv) := by
  intro db db' h
  simp only [getrange, getString, getAs_eq, h.peek hk]
  grind

theorem hget_reads (hk : K (arg argv 1)) : Reads K env.now db (hget env argv db) := by
  have hl := Looked.one env.now db hk
  simp only [hget, getHash, getAs_eq]
  grind

theorem hget_sees (hk : K (arg argv 1)) : RepliesBy K env.now (hget env argv) := by
  intro db db' h
  simp only [hget, getHash, getAs_eq, h.peek hk]
  grind

theorem hexists_reads (hk : K (arg argv 1)) : Reads K env.now db (hexists env argv db) := by
  have hl := Looked.one env.now db hk
  simp only [hexists, getHash, getAs_eq]
  grind

theorem hexists_sees (hk : K (arg argv 1)) : RepliesBy K env.now (hexists env argv) := by
  intro db db' h
  simp only [hexists, getHash, getAs_eq, h.peek hk]
  grind

theorem hlen_reads (hk : K (arg argv 1)) : Reads K env.now db (hlen env argv db) := by
  have hl := Looked.one env.now db hk
  simp only [hlen, getHash, getAs_eq]
  grind

theorem hlen_sees (hk : K (arg argv 1)) : RepliesBy K env.now (hlen env argv) := by
  intro db db' h
  simp only [hlen, getHash, getAs_eq, h.peek hk]
  grind

theorem hmget_reads (hk : K (arg argv 1)) : Reads K env.now db (hmget env argv db) := by
  have hl := Looked.one env.now db hk
  simp only [hmget, getHash, getAs_eq]
  grind

theorem hmget_sees (hk : K (arg argv 1)) : RepliesBy K env.now (hmget env argv) := by
  intro db db' h
  simp only [hmget, getHash, getAs_eq, h.peek hk]
  grind

theorem llen_reads (hk : K (arg argv 1)) : Reads K env.now db (llen env argv db) := by
  have hl := Looked.one env.now db hk
  simp only [llen, getList, getAs_eq]
  grind

theorem llen_sees (hk : K (arg argv 1)) : RepliesBy K env.now (llen env argv) := by
  intro db db' h
  simp only [llen, getList, getAs_eq, h.peek hk]
  grind

theorem lrange_reads (hk : K (arg argv 1)) : Reads K env.now db (lrange env argv db) := by
  have hl := Looked.one env.now db hk
  simp only [lrange, getList, getAs_eq]
  grind

theorem lrange_sees (hk : K (arg argv 1)) : RepliesBy K env.now (lrange env argv) := by
  intro db db' h
  simp only [lrange, getList, getAs_eq, h.peek hk]
  grind

theorem lindex_reads (hk : K (arg argv 1)) : Reads K env.now db (lindex env argv db) := by
  have hl := Looked.one env.now db hk
  simp only [lindex, getList, getAs_eq]
  grind

theorem lindex_sees (hk : K (arg argv 1)) : RepliesBy K env.now (lindex env argv) := by
  intro db db' h
  simp only [lindex, getList, getAs_eq, h.peek hk]
  grind

theorem sismember_reads (hk : K (arg argv 1)) : Reads K env.now db (sismember env argv db) := by
  have hl := Looked.one env.now db hk
  simp only [sismember, getSet, getAs_eq]
  grind

theorem sismember_sees (hk : K (arg argv 1)) : RepliesBy K env.now (sismember env argv) := by
  intro db db' h
  simp only [sismember, getSet, getAs_eq, h.peek hk]
  grind

theorem scard_reads (hk : K (arg argv 1)) : Reads K env.now db (scard env argv db) := by
  have hl := Looked.one env.now db hk
  simp only [scard, getSet, getAs_eq]
  grind

theorem scard_sees (hk : K (arg argv 1)) : RepliesBy K env.now (scard env argv) := by
  intro db db' h
  simp only [scard, getSet, getAs_eq, h.peek hk]
  grind

theorem smembers_reads (hk : K (arg argv 1)) : Reads K env.now db (smembers env argv db) := by
  have hl := Looked.one env.now db hk
  simp only [smembers, getSet, getAs_eq]
  grind

theorem smembers_sees (hk : K (arg argv 1)) : RepliesBy K env.now (smembers env argv) := by
  intro db db' h
  simp only [smembers, getSet, getAs_eq, h.peek hk]
  grind

theorem zscore_reads (hk : K (arg argv 1)) : Reads K env.now db (zscore env argv db) := by
  have hl := Looked.one env.now db hk
  simp only [zscore, getZSet, getAs_eq]
  grind

theorem zscore_sees (hk : K (arg argv 1)) : RepliesBy K env.now (zscore env argv) := by
  intro db db' h
  simp only [zscore, getZSet, getAs_eq, h.peek hk]
  grind

theorem zcard_reads (hk : K (arg argv 1)) : Reads K env.now db (zcard env argv db) := by
  have hl := Looked.one env.now db hk
  simp only [zcard, getZSet, getAs_eq]
  grind

theorem zcard_sees (hk : K (arg argv 1)) : RepliesBy K env.now (zcard env argv) := by
  intro db db' h
  simp only [zcard, getZSet, getAs_eq, h.peek hk]
  grind

theorem zrank_reads (hk : K (arg argv 1)) : Reads K env.now db (zrank env argv db) := by
  have hl := Looked.one env.now db hk
  simp only [zrank, getZSet, getAs_eq]
  grind

theorem zrank_sees (hk : K (arg argv 1)) : RepliesBy K env.now (zrank env argv) := by
  intro db db' h
  simp only [zrank, getZSet, getAs_eq, h.peek hk]
  grind

theorem zrange_reads (hk : K (arg argv 1)) : Reads K env.now db (zrange env argv db) := by
  have hl := Looked.one env.now db hk
  simp only [zrange, getZSet, getAs_eq]
  grind

theorem zrange_sees (hk : K (arg argv 1)) : RepliesBy K env.now (zrange env argv) := by
  intro db db' h
  simp only [zrange, getZSet, getAs_eq, h.peek hk]
  grind

theorem zrangebyscore_reads (hk : K (arg argv 1)) : Reads K env.now db (zrangebyscore env argv db) := by
  have h0 := Looked.refl (K := K) env.now db
  have hl := Looked.one env.now db hk
  simp only [zrangebyscore, getZSet, getAs_eq]
  grind

theorem zrangebyscore_sees (hk : K (arg argv 1)) : RepliesBy K env.now (zrangebyscore env argv) := by
  intro db db' h
  simp only [zrangebyscore, getZSet, getAs_eq, h.peek hk]
  grind

theorem hashEntries_reads (width : ℕ) (entry : Bytes × Bytes → Bytes) (hk : K (arg argv 1)) :
    Reads K env.now db (hashEntries width entry env argv db) := by
  have hl := Looked.one env.now db hk
  simp only [hashEntries, getHash, getAs_eq]
  grind

theorem hashEntries_sees (width : ℕ) (entry : Bytes × Bytes → Bytes) (hk : K (arg argv 1)) :
    RepliesBy K env.now (hashEntries width entry env argv) := by
  intro db db' h
  simp only [hashEntries, getHash, getAs_eq, h.peek hk]
  grind

theorem type_reads (hk : K (arg argv 1)) : Reads K env.now db (type env argv db) :=
  .clean (.one _ db hk) _

theorem type_sees (hk : K (arg argv 1)) : RepliesBy K env.now (type env argv) := by
  intro db db' h
  simp only [type, lookup_snd, Result.clean_reply, h.peek hk]

theorem object_reads (hk : argv.length ≥ 3 → K (arg argv 2)) :
    Reads K env.now db (object env argv db) := by
  unfold object
  by_cases hlen : argv.length < 3
  · simp only [hlen, if_true]
    exact .clean (.refl _ db) _
  · have hl := Looked.one env.now db (hk (by omega))
    simp only [hlen, if_false]
    rw [lookup_eq] at hl ⊢
    cases db.peek env.now (arg argv 2) <;> exact .clean hl _

theorem object_sees (hk : argv.length ≥ 3 → K (arg argv 2)) : RepliesBy K env.now (object env argv) := by
  intro db db' h
  unfold object
  by_cases hlen : argv.length < 3
  · simp only [hlen, if_true, Result.clean_reply]
  · simp only [hlen, if_false]
    rw [lookup_eq, lookup_eq, h.peek (hk (by omega))]
    cases db.peek env.now (arg argv 2) <;> rfl

theorem ttlMs_looked (now : ℕ) (key : Bytes) (hk : K key) : Looked K now db (db.ttlMs now key).1 := by
  have hl := Looked.one now db hk
  simp only [ttlMs, existsKey]
  grind

/-- The remaining time by the live entry. -/
theorem ttlMs_snd (now : ℕ) (key : Bytes) : (db.ttlMs now key).2 = match db.live now key with
    | none => -2
    | some (_, none) => -1
    | some (_, some dl) => if dl > now then i64 (u64 (dl - now)) else 0 := by
  simp only [ttlMs, existsKey, live, lookup_snd]
  cases hp : db.peek now key with
  | none => rfl
  | some o =>
    rw [lookup_of_peek db now key o hp]
    cases db.expires.find key <;> simp

theorem ttl_reads (hk : K (arg argv 1)) : Reads K env.now db (ttl env argv db) :=
  .clean (ttlMs_looked db env.now _ hk) _

theorem ttl_sees (hk : K (arg argv 1)) : RepliesBy K env.now (ttl env argv) := by
  intro db db' h
  simp only [ttl, ttlMs_snd, h _ hk, Result.clean_reply]

theorem pttl_reads (hk : K (arg argv 1)) : Reads K env.now db (pttl env argv db) :=
  .clean (ttlMs_looked db env.now _ hk) _

theorem pttl_sees (hk : K (arg argv 1)) : RepliesBy K env.now (pttl env argv) := by
  intro db db' h
  simp only [pttl, ttlMs_snd, h _ hk, Result.clean_reply]

theorem mget_reads (hk : ∀ k ∈ argv.tail, K k) : Reads K env.now db (mget env argv db) :=
  .clean (looked_foldl (mgetRound env.now) (fun _ _ => rfl) hk _ (.refl _ db)) _

theorem mget_sees (hk : ∀ k ∈ argv.tail, K k) : RepliesBy K env.now (mget env argv) := by
  intro db db' h
  refine foldl_sees (mgetRound env.now) (fun _ _ => rfl) (fun r r' key h2 hp => ?_) hk (db, _) (db', _) rfl h
  simp only [mgetRound, lookup_snd, h2, hp]

/-- A round of the loop of `EXISTS`. -/
def existsRound (now : ℕ) (r : Keyspace × ℕ) (key : Bytes) : Keyspace × ℕ :=
  ((r.1.existsKey now key).1, if (r.1.existsKey now key).2 then r.2 + 1 else r.2)

theorem exists'_reads (hk : ∀ k ∈ argv.tail, K k) : Reads K env.now db (exists' env argv db) :=
  .clean (looked_foldl (existsRound env.now) (fun _ _ => rfl) hk _ (.refl _ db)) _

theorem exists'_sees (hk : ∀ k ∈ argv.tail, K k) : RepliesBy K env.now (exists' env argv) := by
  intro db db' h
  have hcount : (countLoop (fun db key => db.existsKey env.now key) db' argv.tail).2 =
      (countLoop (fun db key => db.existsKey env.now key) db argv.tail).2 := by
    refine foldl_sees (existsRound env.now) (fun _ _ => rfl) (fun r r' key h2 hp => ?_) hk (db, 0) (db', 0) rfl h
    simp only [existsRound, existsKey, lookup_snd, h2, hp]
  simp only [exists', hcount, Result.clean_reply]

theorem pfcount_reads (hk : ∀ k ∈ argv.tail, K k) : Reads K env.now db (pfcount env argv db) :=
  .clean (looked_foldl (mergeRound env.now) (fun _ _ => rfl) hk _ (.refl _ db)) _

theorem mergeRound_sees (now : ℕ) (r r' : Keyspace × Bytes) (key : Bytes) (h2 : r'.2 = r.2)
    (hp : r'.1.peek now key = r.1.peek now key) :
    (mergeRound now r' key).2 = (mergeRound now r key).2 := by
  simp only [mergeRound, lookup_snd, h2, hp]

theorem pfcount_sees (hk : ∀ k ∈ argv.tail, K k) : RepliesBy K env.now (pfcount env argv) := by
  intro db db' h
  have hregs := foldl_sees (mergeRound env.now) (fun _ _ => rfl) (mergeRound_sees env.now) hk (db, Hll.ensure []) (db', Hll.ensure [])
    rfl h
  simp only [pfcount, hregs, Result.clean_reply]

/-! The commands about the server. -/

theorem config_reads : Reads K env.now db (config env argv db) := by
  unfold config
  split_ifs <;> exact .clean (.refl _ db) _

end Cmd

end BlazeKV
