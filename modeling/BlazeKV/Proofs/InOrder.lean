import BlazeKV.Proofs.Expiry
import BlazeKV.Proofs.SetOptions

/-! What every command keeps: a deadline belongs to a value, and no container is left empty. -/

namespace BlazeKV

open Keyspace

/-- Every deadline is that of a value. -/
def Owned (db : Keyspace) : Prop := ∀ k, db.dict.find k = none → db.expires.find k = none

namespace Owned

variable {db : Keyspace} {now : ℕ} {key : Bytes} {o : Object}

theorem empty : Owned .empty := fun k _ => find_expires_empty k

@[grind .] theorem lookup (h : Owned db) : Owned (db.lookup now key).1 := by
  intro k hk
  rw [lookup_find_expires]
  split_ifs with he
  · rfl
  · rw [lookup_find_dict] at hk
    split_ifs at hk with hd
    · exact h k (Option.not_isSome_iff_eq_none.1 fun hs => he ⟨hd.1, hd.1 ▸ hs, hd.2⟩)
    · exact h k hk

@[grind .] theorem set (h : Owned db) : Owned (db.set key o) := by
  intro k hk
  rw [find_dict_set] at hk
  rw [find_expires_set]
  split_ifs at hk ⊢
  exact h k hk

@[grind .] theorem write (h : Owned db) : Owned (db.write key o) := by
  intro k hk
  rw [find_dict_write] at hk
  rw [expires_write]
  split_ifs at hk
  exact h k hk

@[grind .] theorem erase (h : Owned db) (key : Bytes) : Owned (db.erase key) := by
  intro k hk
  rw [find_dict_erase] at hk
  rw [find_expires_erase]
  split_ifs at hk ⊢
  · rfl
  · exact h k hk

@[grind .] theorem persist (h : Owned db) : Owned (db.persist key).1 := by
  intro k hk
  rw [find_expires_persist, h k hk, ite_self]

@[grind .] theorem setDeadline (h : Owned db) (hk : (db.dict.find key).isSome) (dl : ℕ) : Owned (db.setDeadline key dl) := by
  intro k hn
  rw [dict_setDeadline] at hn
  rw [find_expires_setDeadline]
  split_ifs with he
  · rw [he] at hn
    simp [hn] at hk
  · exact h k hn

/-- No deadline is left of a key that a lookup does not find. -/
theorem keptDeadline (h : Owned db) (hk : db.peek now key = none) : Cmd.keptDeadline now db key = 0 := by
  rw [Cmd.keptDeadline, deadlineOrZero, h.lookup key (lookup_none hk)]
  rfl

end Owned

/-- A container with something in it, or a string. -/
def Object.NonEmpty : Object → Prop
  | .list l => l ≠ []
  | .hash h => h.size ≠ 0
  | .set s => s.size ≠ 0
  | .zset z => z.size ≠ 0
  | _ => True

/-- Deadlines belong to values, and the values have a property. -/
structure InOrder (P : Object → Prop) (db : Keyspace) : Prop where
  owned : Owned db
  all : db.All P

/-- The same but for the value of one key, which a handler is about to fill or to erase. -/
structure InOrderBut (P : Object → Prop) (key : Bytes) (db : Keyspace) : Prop where
  owned : Owned db
  all : ∀ k o, k ≠ key → db.dict.find k = some o → P o

namespace InOrder

variable {P : Object → Prop} {db : Keyspace} {now : ℕ} {key : Bytes} {o : Object}

theorem empty : InOrder P .empty := ⟨.empty, all_empty⟩

theorem clear (db : Keyspace) : InOrder P db.clear :=
  ⟨fun k _ => by simp [Keyspace.clear], fun k o hk => by simp [Keyspace.clear] at hk⟩

theorem lookup (h : InOrder P db) : InOrder P (db.lookup now key).1 := ⟨h.owned.lookup, h.all.lookup⟩

theorem set (h : InOrder P db) (ho : P o) : InOrder P (db.set key o) := ⟨h.owned.set, h.all.set ho⟩

theorem write (h : InOrder P db) (ho : P o) : InOrder P (db.write key o) := ⟨h.owned.write, h.all.write ho⟩

theorem erase (h : InOrder P db) (key : Bytes) : InOrder P (db.erase key) := ⟨h.owned.erase key, h.all.erase⟩

theorem persist (h : InOrder P db) : InOrder P (db.persist key).1 := ⟨h.owned.persist, h.all⟩

theorem setDeadline (h : InOrder P db) (hk : (db.dict.find key).isSome) (dl : ℕ) : InOrder P (db.setDeadline key dl) :=
  ⟨h.owned.setDeadline hk dl, h.all⟩

theorem but (h : InOrder P db) (key : Bytes) : InOrderBut P key db := ⟨h.owned, fun k o _ => h.all k o⟩

end InOrder

/-- Deadlines belong to values, whatever the values are. -/
theorem Owned.inOrder {db : Keyspace} (h : Owned db) : InOrder (fun _ => True) db := ⟨h, fun _ _ _ => trivial⟩

namespace InOrderBut

variable {P : Object → Prop} {db : Keyspace} {key : Bytes}

theorem set (h : InOrderBut P key db) (o : Object) : InOrderBut P key (db.set key o) :=
  ⟨h.owned.set, fun k x hne hk => h.all k x hne (by simpa [hne] using hk)⟩

theorem write (h : InOrderBut P key db) (o : Object) : InOrderBut P key (db.write key o) :=
  ⟨h.owned.write, fun k x hne hk => h.all k x hne (by simpa [hne] using hk)⟩

/-- The value that is missing is written. -/
theorem fill (h : InOrderBut P key db) {o : Object} (ho : P o) (hk : (db.dict.find key).isSome) :
    InOrder P (db.write key o) := by
  refine ⟨h.owned.write, fun k x hx => ?_⟩
  rw [find_dict_write] at hx
  split_ifs at hx with he
  · exact Option.some.inj hx ▸ ho
  · exact h.all k x (fun hke => he ⟨hke, hk⟩) hx

theorem drop (h : InOrderBut P key db) : InOrder P (db.erase key) := by
  refine ⟨h.owned.erase key, fun k x hx => ?_⟩
  rw [find_dict_erase] at hx
  split_ifs at hx with he
  exact h.all k x he hx

/-- A container that may have become empty is dropped if it has. -/
theorem settle (h : InOrderBut P key db) {o : Object} {gone : Prop} [Decidable gone] (ho : ¬gone → P o)
    (hk : (db.dict.find key).isSome) :
    InOrder P (if gone then (db.write key o).erase key else db.write key o) := by
  split_ifs with hg
  · exact (h.write o).drop
  · exact h.fill (ho hg) hk

end InOrderBut

section Filled

variable {α : Type} [Inhabited α]

theorem Dict.size_insert_ne (d : Dict α) (k : Bytes) (v : α) : (d.insert k v).size ≠ 0 := by
  intro h
  have := (Dict.size_eq_zero _).1 h k
  simp at this

theorem Dict.size_write (d : Dict α) (k : Bytes) (v : α) (h : (d.find k).isSome) : (d.write k v).size ≠ 0 := by
  intro h0
  have := (Dict.size_eq_zero _).1 h0 k
  simp [h] at this

/-- A loop of insertions leaves something, unless there is nothing to insert. -/
theorem countLoop_insert_size {β : Type} (f : β → Bytes) (g : β → α) {xs : List β} (hne : xs ≠ []) (d : Dict α) :
    (countLoop (fun d x => d.insertOrAssign (f x) (g x)) d xs).1.size ≠ 0 := by
  have hmono : ∀ (xs : List β) (r : Dict α × ℕ), r.1.size ≠ 0 →
      (xs.foldl (fun r x => ((r.1.insertOrAssign (f x) (g x)).1,
        if (r.1.insertOrAssign (f x) (g x)).2 then r.2 + 1 else r.2)) r).1.size ≠ 0 := by
    intro xs
    induction xs with
    | nil => exact fun _ h => h
    | cons x xs ih => exact fun r _ => ih _ (Dict.size_insert_ne r.1 (f x) (g x))
  cases xs with
  | nil => exact absurd rfl hne
  | cons x xs => exact hmono xs _ (Dict.size_insert_ne d (f x) (g x))

theorem ZSet.size_set (z : ZSet) (levels : Levels) (member : Bytes) (score : Double) :
    (z.set levels member score).1.size ≠ 0 := by
  unfold ZSet.set
  split
  · next cur hcur =>
    split_ifs
    · intro h0
      have := (Dict.size_eq_zero _).1 h0 member
      simp [hcur] at this
    · exact Dict.size_write _ _ _ (by simp [hcur])
  · exact Dict.size_insert_ne _ _ _

end Filled

namespace Cmd

variable {P : Object → Prop} {env : Env} {db : Keyspace} (argv : List Bytes)

/-! The commands that read. -/

section Readers

variable (h : InOrder P db)
include h

theorem get_ordered : InOrder P (get env argv db).db := by
  simp only [get, getString, getAs_eq]
  cases found Object.string? (db.peek env.now (arg argv 1)) <;> exact h.lookup

theorem strlen_ordered : InOrder P (strlen env argv db).db := by
  simp only [strlen, getString, getAs_eq]
  cases found Object.string? (db.peek env.now (arg argv 1)) <;> exact h.lookup

theorem getrange_ordered : InOrder P (getrange env argv db).db := by
  simp only [getrange, getString, getAs_eq]
  have hl : InOrder P (db.lookup env.now (arg argv 1)).1 := h.lookup
  cases found Object.string? (db.peek env.now (arg argv 1)) with
  | absent => exact hl
  | wrongType => exact hl
  | present s =>
    dsimp only
    split
    · split_ifs <;> exact hl
    · exact hl

theorem foldl_lookup_ordered {β : Type} (step : Keyspace × β → Bytes → Keyspace × β)
    (hstep : ∀ r key, (step r key).1 = (r.1.lookup env.now key).1) (keys : List Bytes) (b : β) :
    InOrder P (keys.foldl step (db, b)).1 := by
  suffices hfold : ∀ r : Keyspace × β, InOrder P r.1 → InOrder P (keys.foldl step r).1 from hfold (db, b) h
  induction keys with
  | nil => exact fun _ hr => hr
  | cons key keys ih =>
    intro r hr
    refine ih _ ?_
    rw [hstep]
    exact hr.lookup

theorem mget_ordered : InOrder P (mget env argv db).db := foldl_lookup_ordered h (mgetRound env.now) (fun _ _ => rfl) _ _

theorem pfcount_ordered : InOrder P (pfcount env argv db).db :=
  foldl_lookup_ordered h (mergeRound env.now) (fun _ _ => rfl) _ _

theorem exists'_ordered : InOrder P (exists' env argv db).db :=
  foldl_lookup_ordered h (fun r key => ((r.1.existsKey env.now key).1,
    if (r.1.existsKey env.now key).2 then r.2 + 1 else r.2)) (fun _ _ => rfl) _ _

theorem ttlMs_ordered (key : Bytes) : InOrder P (db.ttlMs env.now key).1 := by
  have hl : InOrder P (db.lookup env.now key).1 := h.lookup
  simp only [ttlMs, existsKey]
  grind

theorem type_ordered : InOrder P (type env argv db).db := h.lookup

theorem object_ordered : InOrder P (object env argv db).db := by
  have hl : InOrder P (db.lookup env.now (arg argv 2)).1 := h.lookup
  unfold object
  generalize db.lookup env.now (arg argv 2) = r at hl ⊢
  obtain ⟨d, _ | o⟩ := r <;> dsimp only <;> split
  · exact h
  · exact hl
  · exact h
  · exact hl

theorem hget_ordered : InOrder P (hget env argv db).db := by
  simp only [hget, getHash, getAs_eq]
  cases found Object.hash? (db.peek env.now (arg argv 1)) <;> exact h.lookup

theorem hexists_ordered : InOrder P (hexists env argv db).db := by
  simp only [hexists, getHash, getAs_eq]
  cases found Object.hash? (db.peek env.now (arg argv 1)) <;> exact h.lookup

theorem hashEntries_ordered (width : ℕ) (entry : Bytes × Bytes → Bytes) :
    InOrder P (hashEntries width entry env argv db).db := by
  simp only [hashEntries, getHash, getAs_eq]
  cases found Object.hash? (db.peek env.now (arg argv 1)) <;> exact h.lookup

theorem hlen_ordered : InOrder P (hlen env argv db).db := by
  simp only [hlen, getHash, getAs_eq]
  cases found Object.hash? (db.peek env.now (arg argv 1)) <;> exact h.lookup

theorem hmget_ordered : InOrder P (hmget env argv db).db := by
  simp only [hmget, getHash, getAs_eq]
  cases found Object.hash? (db.peek env.now (arg argv 1)) <;> exact h.lookup

theorem llen_ordered : InOrder P (llen env argv db).db := by
  simp only [llen, getList, getAs_eq]
  cases found Object.list? (db.peek env.now (arg argv 1)) <;> exact h.lookup

theorem lrange_ordered : InOrder P (lrange env argv db).db := by
  have hl : InOrder P (db.lookup env.now (arg argv 1)).1 := h.lookup
  simp only [lrange, getList, getAs_eq]
  grind

theorem lindex_ordered : InOrder P (lindex env argv db).db := by
  have hl : InOrder P (db.lookup env.now (arg argv 1)).1 := h.lookup
  simp only [lindex, getList, getAs_eq]
  grind

theorem sismember_ordered : InOrder P (sismember env argv db).db := by
  simp only [sismember, getSet, getAs_eq]
  cases found Object.set? (db.peek env.now (arg argv 1)) <;> exact h.lookup

theorem scard_ordered : InOrder P (scard env argv db).db := by
  simp only [scard, getSet, getAs_eq]
  cases found Object.set? (db.peek env.now (arg argv 1)) <;> exact h.lookup

theorem smembers_ordered : InOrder P (smembers env argv db).db := by
  simp only [smembers, getSet, getAs_eq]
  cases found Object.set? (db.peek env.now (arg argv 1)) <;> exact h.lookup

theorem zscore_ordered : InOrder P (zscore env argv db).db := by
  simp only [zscore, getZSet, getAs_eq]
  cases found Object.zset? (db.peek env.now (arg argv 1)) <;> exact h.lookup

theorem zcard_ordered : InOrder P (zcard env argv db).db := by
  simp only [zcard, getZSet, getAs_eq]
  cases found Object.zset? (db.peek env.now (arg argv 1)) <;> exact h.lookup

theorem zrank_ordered : InOrder P (zrank env argv db).db := by
  have hl : InOrder P (db.lookup env.now (arg argv 1)).1 := h.lookup
  simp only [zrank, getZSet, getAs_eq]
  grind

theorem zrange_ordered : InOrder P (zrange env argv db).db := by
  have hl : InOrder P (db.lookup env.now (arg argv 1)).1 := h.lookup
  simp only [zrange, getZSet, getAs_eq]
  grind

theorem zrangebyscore_ordered : InOrder P (zrangebyscore env argv db).db := by
  have hl : InOrder P (db.lookup env.now (arg argv 1)).1 := h.lookup
  simp only [zrangebyscore, getZSet, getAs_eq]
  grind

theorem config_ordered : InOrder P (config env argv db).db := by
  unfold config
  dsimp only
  split_ifs <;> exact h

end Readers

/-! The commands that write strings and deadlines. -/

section Strings

variable (hP : ∀ s, P (.string s)) (h : InOrder P db)
include hP h

theorem incrBy_ordered (delta : ℤ) : InOrder P (incrBy delta env argv db).db := by
  have hl : InOrder P (db.lookup env.now (arg argv 1)).1 := h.lookup
  have hs : ∀ s, InOrder P ((db.lookup env.now (arg argv 1)).1.set (arg argv 1) (.string s)) := fun s => hl.set (hP s)
  simp only [incrBy, getString, getAs_eq]
  grind

theorem incrby_ordered : InOrder P (incrby env argv db).db := by
  unfold incrby
  split
  · exact h
  · exact incrBy_ordered argv hP h _

theorem decrby_ordered : InOrder P (decrby env argv db).db := by
  unfold decrby
  split
  · exact h
  · exact incrBy_ordered argv hP h _

theorem incrbyfloat_ordered : InOrder P (incrbyfloat env argv db).db := by
  have hl : InOrder P (db.lookup env.now (arg argv 1)).1 := h.lookup
  have hs : ∀ s, InOrder P ((db.lookup env.now (arg argv 1)).1.set (arg argv 1) (.string s)) := fun s => hl.set (hP s)
  simp only [incrbyfloat, getString, getAs_eq]
  grind

theorem append_ordered : InOrder P (append env argv db).db := by
  have hl : InOrder P (db.lookup env.now (arg argv 1)).1 := h.lookup
  simp only [append, getString, getAs_eq]
  cases found Object.string? (db.peek env.now (arg argv 1)) with
  | absent => exact hl.set (hP _)
  | wrongType => exact hl
  | present s => exact hl.write (hP _)

theorem setrange_ordered : InOrder P (setrange env argv db).db := by
  have hl : InOrder P (db.lookup env.now (arg argv 1)).1 := h.lookup
  have hs : ∀ s, InOrder P ((db.lookup env.now (arg argv 1)).1.set (arg argv 1) (.string s)) := fun s => hl.set (hP s)
  simp only [setrange, getString, getAs_eq]
  grind

theorem getset_ordered : InOrder P (getset env argv db).db := by
  have hl : InOrder P (db.lookup env.now (arg argv 1)).1 := h.lookup
  simp only [getset, getString, getAs_eq]
  cases found Object.string? (db.peek env.now (arg argv 1)) with
  | absent => exact hl.set (hP _)
  | wrongType => exact hl
  | present s => exact hl.set (hP _)

theorem setnx_ordered : InOrder P (setnx env argv db).db := by
  have hl : InOrder P (db.lookup env.now (arg argv 1)).1 := h.lookup
  unfold setnx
  rw [lookup_eq] at hl ⊢
  cases db.peek env.now (arg argv 1) with
  | none => exact hl.set (hP _)
  | some o => exact hl

theorem setWrite_ordered (o : SetOpts) (key val : Bytes) : InOrder P (setWrite o db key val) := by
  have hs : InOrder P (db.set key (.string val)) := h.set (hP val)
  have hd : ∀ dl, InOrder P ((db.set key (.string val)).setDeadline key dl) := fun dl => hs.setDeadline (by simp) dl
  unfold setWrite
  dsimp only
  split_ifs <;> first | exact hs | exact hd _

theorem set_ordered : InOrder P (set env argv db).db := by
  cases ho : setArgs env argv with
  | error e =>
    unfold setArgs at ho
    simp only [set, ho]
    exact h
  | ok o =>
    rw [set_eq ho]
    split_ifs
    · exact h.lookup
    · exact h.lookup
    · exact setWrite_ordered hP h.lookup o _ _
    · exact setWrite_ordered hP h.lookup o _ _

theorem setex_ordered : InOrder P (setex env argv db).db := by
  have hd : ∀ dl, InOrder P ((db.set (arg argv 1) (.string (arg argv 3))).setDeadline (arg argv 1) dl) :=
    fun dl => (h.set (hP _)).setDeadline (by simp) dl
  simp only [setex]
  grind

theorem mset_ordered : InOrder P (mset env argv db).db := by
  unfold mset
  split_ifs
  · exact h
  · have hfold : ∀ (ps : List (Bytes × Bytes)) (d : Keyspace), InOrder P d →
        InOrder P (ps.foldl (fun db p => db.set p.1 (.string p.2)) d) := by
      intro ps
      induction ps with
      | nil => exact fun _ hd => hd
      | cons p ps ih => exact fun d hd => ih _ (hd.set (hP _))
    exact hfold _ db h

theorem pfadd_ordered : InOrder P (pfadd env argv db).db := by
  have hl : InOrder P (db.lookup env.now (arg argv 1)).1 := h.lookup
  have hs : ∀ s, InOrder P ((db.lookup env.now (arg argv 1)).1.set (arg argv 1) (.string s)) := fun s => hl.set (hP s)
  simp only [pfadd, getHll, getAs_eq]
  grind

theorem pfmerge_ordered : InOrder P (pfmerge env argv db).db := by
  have hl : InOrder P (db.lookup env.now (arg argv 1)).1 := h.lookup
  exact (foldl_lookup_ordered hl (mergeRound env.now) (fun _ _ => rfl) _ _).set (hP _)

end Strings

/-! The commands that write deadlines and keys. -/

section Keys

variable (h : InOrder P db)
include h

theorem del_ordered : InOrder P (del env argv db).db :=
  countLoop_keeps (P := InOrder P) argv.tail (fun _ k _ hd => hd.erase k) h

theorem expireBy_ordered (deadline : ℕ → ℕ → ℕ) : InOrder P (expireBy deadline env argv db).db := by
  unfold expireBy
  split
  · exact h
  · next n _ =>
    simp only [setExpire, existsKey, lookup_snd]
    cases hp : db.peek env.now (arg argv 1) with
    | none => exact h.lookup
    | some o =>
      rw [lookup_of_peek _ _ _ _ hp]
      exact h.setDeadline (by simp [find_of_peek _ _ _ _ hp]) _

theorem persist_ordered : InOrder P (persist env argv db).db := by
  simp only [persist, existsKey, lookup_snd]
  cases db.peek env.now (arg argv 1) with
  | none => exact h.lookup
  | some o => exact h.lookup.persist

theorem rename_ordered : InOrder P (rename env argv db).db := by
  unfold rename
  cases hp : db.peek env.now (arg argv 1) with
  | none =>
    have hl : InOrder P (db.lookup env.now (arg argv 1)).1 := h.lookup
    rw [lookup_eq, hp] at hl ⊢
    exact hl
  | some o =>
    rw [lookup_of_peek _ _ _ _ hp]
    have hs : InOrder P ((db.erase (arg argv 1)).set (arg argv 2) o) := (h.erase _).set (h.all _ _ (find_of_peek _ _ _ _ hp))
    dsimp only
    split_ifs
    · exact hs.setDeadline (by simp) _
    · exact hs

/-- A handler that makes a missing container and writes one that is not empty. -/
theorem make_ordered {α : Type} {view : Object → Option α} {make : α → Object} {fresh : α} {key : Bytes}
    {r : Keyspace × Option α} (hr : getOrMake view make fresh db env.now key = r) :
    match r.2 with
    | none => InOrder P r.1
    | some _ => InOrderBut P key r.1 ∧ (r.1.dict.find key).isSome := by
  rw [getOrMake_eq] at hr
  subst hr
  cases hf : found view (db.peek env.now key) with
  | absent => exact ⟨(h.lookup.but key).set _, by simp⟩
  | wrongType => exact h.lookup
  | present a =>
    obtain ⟨o, ho, -⟩ := (found_present view).1 hf
    rw [lookup_of_peek _ _ _ _ ho]
    exact ⟨h.but key, by simp [find_of_peek _ _ _ _ ho]⟩

/-- A container that a handler has found, written back or dropped. -/
theorem settled {α : Type} {view : Object → Option α} {key : Bytes} {a : α}
    (hf : found view (db.peek env.now key) = .present a) {o : Object} {gone : Prop} [Decidable gone]
    (ho : ¬gone → P o) :
    InOrder P (if gone then (((db.lookup env.now key).1.write key o).erase key) else (db.lookup env.now key).1.write key o) := by
  obtain ⟨x, hx, -⟩ := (found_present view).1 hf
  rw [lookup_of_peek _ _ _ _ hx]
  exact (h.but key).settle ho (by simp [find_of_peek _ _ _ _ hx])

end Keys

/-! The commands that write containers other than sorted sets. -/

section Containers

variable (hP : ∀ o, Object.NonEmpty o → o.zset? = none → P o) (h : InOrder P db)
include hP h

theorem hset_ordered (har : 4 ≤ argv.length) : InOrder P (hset env argv db).db := by
  unfold hset
  split
  · exact h
  · next hodd =>
    generalize hr : makeHash db env.now (arg argv 1) = r
    have hm := make_ordered h hr
    obtain ⟨d, _ | x⟩ := r
    · exact hm
    · have hne : pairs (argv.drop 2) ≠ [] := by
        refine pairs_ne_nil ?_ (by rw [List.length_drop]; omega)
        rw [← List.length_pos_iff, List.length_drop]
        omega
      exact hm.1.fill (hP _ (countLoop_insert_size Prod.fst Prod.snd hne x) rfl) hm.2

theorem hincrby_ordered : InOrder P (hincrby env argv db).db := by
  unfold hincrby
  split
  · exact h
  · have hl : InOrder P (db.lookup env.now (arg argv 1)).1 := h.lookup
    simp only [makeHash, getOrMake_eq]
    cases found Object.hash? (db.peek env.now (arg argv 1)) with
    | absent =>
      -- a hash that was made for the command has no field that is not a number
      simp only [fieldInt, Dict.find_empty]
      exact ((hl.but _).set _).fill (hP _ (Dict.size_insert_ne _ _ _) rfl) (by simp)
    | wrongType => exact hl
    | present x =>
      dsimp only
      split
      · exact hl
      · exact hl.write (hP _ (Dict.size_insert_ne _ _ _) rfl)

theorem push_ordered (head : Bool) (har : 3 ≤ argv.length) : InOrder P (push head env argv db).db := by
  unfold push
  generalize hr : makeList db env.now (arg argv 1) = r
  have hm := make_ordered h hr
  obtain ⟨d, _ | l⟩ := r
  · exact hm
  · refine hm.1.fill (hP _ ?_ rfl) hm.2
    have hne : argv.drop 2 ≠ [] := by
      rw [← List.length_pos_iff, List.length_drop]
      omega
    show (argv.drop 2).foldl (fun l x => if head then x :: l else l ++ [x]) l ≠ []
    rw [← List.dropLast_append_getLast hne, List.foldl_append]
    cases head <;> simp

theorem sadd_ordered (har : 3 ≤ argv.length) : InOrder P (sadd env argv db).db := by
  unfold sadd
  generalize hr : makeSet db env.now (arg argv 1) = r
  have hm := make_ordered h hr
  obtain ⟨d, _ | x⟩ := r
  · exact hm
  · have hne : argv.drop 2 ≠ [] := by
      rw [← List.length_pos_iff, List.length_drop]
      omega
    exact hm.1.fill (hP _ (countLoop_insert_size id (fun _ => 1) hne x) rfl) hm.2

theorem hdel_ordered : InOrder P (hdel env argv db).db := by
  simp only [hdel, getHash, getAs_eq]
  cases hf : found Object.hash? (db.peek env.now (arg argv 1)) with
  | absent => exact h.lookup
  | wrongType => exact h.lookup
  | present x => exact settled h hf fun hg => hP _ hg rfl

theorem srem_ordered : InOrder P (srem env argv db).db := by
  simp only [srem, getSet, getAs_eq]
  cases hf : found Object.set? (db.peek env.now (arg argv 1)) with
  | absent => exact h.lookup
  | wrongType => exact h.lookup
  | present x => exact settled h hf fun hg => hP _ hg rfl

theorem pop_ordered (head : Bool) : InOrder P (pop head env argv db).db := by
  simp only [pop, getList, getAs_eq]
  cases hf : found Object.list? (db.peek env.now (arg argv 1)) with
  | absent => cases popCount argv <;> exact h.lookup
  | wrongType => exact h.lookup
  | present l =>
    cases popCount argv with
    | none => exact h.lookup
    | some count => exact settled h hf fun hg => hP _ hg rfl

theorem spop_ordered : InOrder P (spop env argv db).db := by
  simp only [spop, getSet, getAs_eq]
  cases hf : found Object.set? (db.peek env.now (arg argv 1)) with
  | absent => cases popCount argv <;> exact h.lookup
  | wrongType => exact h.lookup
  | present s =>
    cases popCount argv with
    | none => exact h.lookup
    | some count => exact settled h hf fun hg => hP _ hg rfl

theorem lset_ordered : InOrder P (lset env argv db).db := by
  simp only [lset, getList, getAs_eq]
  have hl : InOrder P (db.lookup env.now (arg argv 1)).1 := h.lookup
  cases found Object.list? (db.peek env.now (arg argv 1)) with
  | absent => exact hl
  | wrongType => exact hl
  | present l =>
    dsimp only
    split
    · exact hl
    · split
      · exact hl
      · next i hi =>
        refine hl.write (hP _ (fun hnil => ?_) rfl)
        -- an index is in range, so that the list is not empty
        obtain rfl : l = [] := List.length_eq_zero_iff.1 (by simpa using congrArg List.length hnil)
        simp only [listIndex, List.length_nil] at hi
        split_ifs at hi <;> omega

end Containers

section SortedSets

variable (hP : ∀ z : ZSet, z.size ≠ 0 → P (.zset z)) (h : InOrder P db)
include hP h

theorem zincrby_ordered : InOrder P (zincrby env argv db).db := by
  unfold zincrby
  split
  · exact h
  · generalize hr : makeZSet db env.now (arg argv 1) = r
    have hm := make_ordered h hr
    obtain ⟨d, _ | x⟩ := r
    · exact hm
    · exact hm.1.fill (hP _ (ZSet.size_set x _ _ _)) hm.2

theorem zrem_ordered : InOrder P (zrem env argv db).db := by
  simp only [zrem, getZSet, getAs_eq]
  cases hf : found Object.zset? (db.peek env.now (arg argv 1)) with
  | absent => exact h.lookup
  | wrongType => exact h.lookup
  | present x => exact settled h hf (hP _)

end SortedSets

/-! `ZADD` writes what it has stored before it meets a score that does not parse. -/

section ZAdd

variable {f : ZAddFlags} {levels : Levels} {st : ZAddState}

theorem zaddRound_size {score : Double} {member : Bytes} (h : st.z.size ≠ 0) :
    (zaddRound f levels st score member).z.size ≠ 0 := by
  unfold zaddRound
  dsimp only
  split
  · split_ifs <;> first | exact h | exact ZSet.size_set _ _ _ _
  · split_ifs <;> first | exact h | exact ZSet.size_set _ _ _ _

theorem zaddLoop_size (ps : List (Bytes × Bytes)) (h : st.z.size ≠ 0) : (zaddLoop f levels st ps).1.z.size ≠ 0 := by
  induction ps generalizing st with
  | nil => exact h
  | cons p ps ih =>
    unfold zaddLoop
    cases parseDouble p.1 with
    | none => exact h
    | some score => exact ih (zaddRound_size h)

/-- The first score parses, and `XX` does not refuse the member: it is stored. -/
theorem zaddLoop_first {ps : List (Bytes × Bytes)} (hxx : f.xx = false) (hp : ∃ p ∈ ps.head?, (parseDouble p.1).isSome)
    (hz : st.z.dict.find = fun _ => none) : (zaddLoop f levels st ps).1.z.size ≠ 0 := by
  obtain ⟨p, hp, hs⟩ := hp
  cases ps with
  | nil => cases hp
  | cons q ps =>
    obtain rfl := Option.some.inj hp
    obtain ⟨score, hs⟩ := Option.isSome_iff_exists.1 hs
    unfold zaddLoop
    rw [hs]
    refine zaddLoop_size ps ?_
    unfold zaddRound
    rw [hz]
    dsimp only
    rw [if_neg (by simp [hxx])]
    exact ZSet.size_set _ _ _ _

variable {P : Object → Prop} {env : Env} {db : Keyspace} {argv : List Bytes}

/-- What `ZADD` has stored when its loop ends. -/
def zaddStored (env : Env) (argv : List Bytes) (z : ZSet) : ZSet :=
  (zaddLoop (zaddArgs argv).1 env.levels ⟨z, 0, 0, none⟩ (pairs (zaddArgs argv).2)).1.z

theorem zaddOn_ordered (hP : ∀ o, Object.NonEmpty o → P o) {z : ZSet} (h : InOrderBut P (arg argv 1) db)
    (hk : (db.dict.find (arg argv 1)).isSome)
    (hz : allParse (pairs (zaddArgs argv).2) = false → P (.zset (zaddStored env argv z))) :
    InOrder P (zaddOn env argv db z).db := by
  have hok := zaddLoop_ok (zaddArgs argv).1 env.levels ⟨z, 0, 0, none⟩ (pairs (zaddArgs argv).2)
  unfold zaddOn
  simp only [hok]
  cases hall : allParse (pairs (zaddArgs argv).2) with
  | false => exact h.fill (hz hall) hk
  | true => exact h.settle (fun hg => hP _ hg) hk

theorem zadd_ordered (hP : ∀ o, Object.NonEmpty o → P o) (h : InOrder P db)
    (hz : allParse (pairs (zaddArgs argv).2) = false → zaddSyntax argv → ∀ z,
      (db.peek env.now (arg argv 1) = none ∧ z = .empty ∨ db.peek env.now (arg argv 1) = some (.zset z)) →
        P (.zset (zaddStored env argv z))) : InOrder P (zadd env argv db).db := by
  rw [zadd_eq]
  split_ifs with hsyn
  · cases hf : found Object.zset? (db.peek env.now (arg argv 1)) with
    | absent =>
      exact zaddOn_ordered hP ((h.lookup.but _).set _) (by simp)
        fun hall => hz hall hsyn _ (.inl ⟨(found_absent _).1 hf, rfl⟩)
    | wrongType => exact h.lookup
    | present z =>
      have hpeek := zset_of_found hf
      rw [lookup_of_peek _ _ _ _ hpeek]
      exact zaddOn_ordered hP (h.but _) (by simp [find_of_peek _ _ _ _ hpeek])
        fun hall => hz hall hsyn _ (.inr hpeek)
  · exact h

end ZAdd

end Cmd

/-- What a command leaves in order, by its kind. -/
inductive Orderly (spec : CommandSpec) : Prop
  | zadd (h : spec = ⟨ascii "zadd", Cmd.zadd, -4, true, 1, 1, 1⟩)
  | keeps (h : ∀ (P : Object → Prop) env argv db, (∀ o, Object.NonEmpty o → P o) → spec.arity.natAbs ≤ argv.length →
      InOrder P db → InOrder P (spec.fn env argv db).db)

/-- The same, with the commands that write sorted sets set apart: the others write none but those
that they find. -/
inductive Tidy (spec : CommandSpec) : Prop
  | zadd (h : spec = ⟨ascii "zadd", Cmd.zadd, -4, true, 1, 1, 1⟩)
  | zrem (h : spec.fn = Cmd.zrem)
  | zincrby (h : spec.fn = Cmd.zincrby)
  | keeps (h : ∀ (P : Object → Prop) env argv db, (∀ o, Object.NonEmpty o → o.zset? = none → P o) →
      spec.arity.natAbs ≤ argv.length → InOrder P db → InOrder P (spec.fn env argv db).db)

section Table

variable {spec : CommandSpec}

theorem Tidy.orderly (h : Tidy spec) : Orderly spec := by
  cases h with
  | zadd h => exact .zadd h
  | zrem h => exact .keeps fun P env argv db hP _ hd => h ▸ Cmd.zrem_ordered argv (fun _ hz => hP _ hz) hd
  | zincrby h => exact .keeps fun P env argv db hP _ hd => h ▸ Cmd.zincrby_ordered argv (fun _ hz => hP _ hz) hd
  | keeps h => exact .keeps fun P env argv db hP har hd => h P env argv db (fun o ho _ => hP o ho) har hd

theorem tidy_reads (h : ∀ (P : Object → Prop) env argv db, InOrder P db → InOrder P (spec.fn env argv db).db) :
    Tidy spec := .keeps fun P env argv db _ _ hd => h P env argv db hd

theorem tidy_strings (h : ∀ (P : Object → Prop) env argv db, (∀ s, P (.string s)) → InOrder P db →
    InOrder P (spec.fn env argv db).db) : Tidy spec :=
  .keeps fun P env argv db hP _ hd => h P env argv db (fun _ => hP _ trivial rfl) hd

theorem tidy_containers (h : ∀ (P : Object → Prop) env argv db, (∀ o, Object.NonEmpty o → o.zset? = none → P o) →
    InOrder P db → InOrder P (spec.fn env argv db).db) : Tidy spec :=
  .keeps fun P env argv db hP _ hd => h P env argv db hP hd

open Cmd in
theorem tidy_readers : ∀ spec ∈ CommandTable.readers, Tidy spec := by
  simp only [CommandTable.readers, List.forall_mem_cons]
  exact ⟨tidy_reads fun _ _ argv _ h => get_ordered argv h,
    tidy_reads fun _ _ argv _ h => strlen_ordered argv h,
    tidy_reads fun _ _ argv _ h => mget_ordered argv h,
    tidy_reads fun _ _ argv _ h => getrange_ordered argv h,
    tidy_reads fun _ _ argv _ h => exists'_ordered argv h,
    tidy_reads fun _ _ argv _ h => exists'_ordered argv h,
    tidy_reads fun _ _ argv _ h => ttlMs_ordered h (arg argv 1),
    tidy_reads fun _ _ argv _ h => ttlMs_ordered h (arg argv 1),
    tidy_reads fun _ _ argv _ h => type_ordered argv h,
    tidy_reads fun _ _ _ _ h => h,
    tidy_reads fun _ _ _ _ h => h,
    tidy_reads fun _ _ _ _ h => h,
    tidy_reads fun _ _ argv _ h => object_ordered argv h,
    tidy_reads fun _ _ argv _ h => hget_ordered argv h,
    tidy_reads fun _ _ argv _ h => hexists_ordered argv h,
    tidy_reads fun _ _ argv _ h => hashEntries_ordered argv h _ _,
    tidy_reads fun _ _ argv _ h => hashEntries_ordered argv h _ _,
    tidy_reads fun _ _ argv _ h => hashEntries_ordered argv h _ _,
    tidy_reads fun _ _ argv _ h => hlen_ordered argv h,
    tidy_reads fun _ _ argv _ h => hmget_ordered argv h,
    tidy_reads fun _ _ argv _ h => llen_ordered argv h,
    tidy_reads fun _ _ argv _ h => lrange_ordered argv h,
    tidy_reads fun _ _ argv _ h => lindex_ordered argv h,
    tidy_reads fun _ _ argv _ h => sismember_ordered argv h,
    tidy_reads fun _ _ argv _ h => scard_ordered argv h,
    tidy_reads fun _ _ argv _ h => smembers_ordered argv h,
    tidy_reads fun _ _ argv _ h => zscore_ordered argv h,
    tidy_reads fun _ _ argv _ h => zcard_ordered argv h,
    tidy_reads fun _ _ argv _ h => zrank_ordered argv h,
    tidy_reads fun _ _ argv _ h => zrange_ordered argv h,
    tidy_reads fun _ _ argv _ h => zrangebyscore_ordered argv h,
    tidy_reads fun _ _ argv _ h => pfcount_ordered argv h,
    tidy_reads fun _ _ _ _ h => h,
    tidy_reads fun _ _ _ _ h => h,
    tidy_reads fun _ _ _ _ h => h,
    tidy_reads fun _ _ _ _ h => h,
    tidy_reads fun _ _ _ _ h => h,
    tidy_reads fun _ _ _ _ h => h,
    tidy_reads fun _ _ _ _ h => h,
    tidy_reads fun _ _ _ _ h => h,
    tidy_reads fun _ _ _ db _ => .clear db,
    tidy_reads fun _ _ _ db _ => .clear db,
    tidy_reads fun _ _ argv _ h => config_ordered argv h,
    tidy_reads fun _ _ _ _ h => h,
    tidy_reads fun _ _ _ _ h => h,
    tidy_reads fun _ _ _ _ h => h,
    tidy_reads fun _ _ _ _ h => h,
    tidy_reads fun _ _ _ _ h => h, by simp⟩

open Cmd in
theorem tidy_writers : ∀ spec ∈ CommandTable.writers, Tidy spec := by
  simp only [CommandTable.writers, List.forall_mem_cons]
  exact ⟨tidy_strings fun _ _ argv _ hP h => set_ordered argv hP h,
    tidy_strings fun _ _ argv _ hP h => setnx_ordered argv hP h,
    tidy_strings fun _ _ argv _ hP h => setex_ordered argv hP h,
    tidy_strings fun _ _ argv _ hP h => setex_ordered argv hP h,
    tidy_strings fun _ _ argv _ hP h => getset_ordered argv hP h,
    tidy_strings fun _ _ argv _ hP h => append_ordered argv hP h,
    tidy_strings fun _ _ argv _ hP h => incrBy_ordered argv hP h 1,
    tidy_strings fun _ _ argv _ hP h => incrBy_ordered argv hP h (-1),
    tidy_strings fun _ _ argv _ hP h => incrby_ordered argv hP h,
    tidy_strings fun _ _ argv _ hP h => decrby_ordered argv hP h,
    tidy_strings fun _ _ argv _ hP h => incrbyfloat_ordered argv hP h,
    tidy_strings fun _ env argv _ hP h => @mset_ordered _ env _ argv hP h,
    tidy_strings fun _ _ argv _ hP h => setrange_ordered argv hP h,
    tidy_reads fun _ env argv _ h => @del_ordered _ env _ argv h,
    tidy_reads fun _ env argv _ h => @del_ordered _ env _ argv h,
    tidy_reads fun _ _ argv _ h => expireBy_ordered argv h (fun now secs => u64 (now + u64 (secs * 1000))),
    tidy_reads fun _ _ argv _ h => expireBy_ordered argv h (fun now ms => u64 (now + ms)),
    tidy_reads fun _ _ argv _ h => expireBy_ordered argv h (fun _ at' => u64 (at' * 1000)),
    tidy_reads fun _ _ argv _ h => persist_ordered argv h,
    tidy_reads fun _ _ argv _ h => rename_ordered argv h,
    .keeps fun _ _ argv _ hP har h => hset_ordered argv hP h har,
    .keeps fun _ _ argv _ hP har h => hset_ordered argv hP h har,
    tidy_containers fun _ _ argv _ hP h => hdel_ordered argv hP h,
    tidy_containers fun _ _ argv _ hP h => hincrby_ordered argv hP h,
    .keeps fun _ _ argv _ hP har h => push_ordered argv hP h true har,
    .keeps fun _ _ argv _ hP har h => push_ordered argv hP h false har,
    tidy_containers fun _ _ argv _ hP h => pop_ordered argv hP h true,
    tidy_containers fun _ _ argv _ hP h => pop_ordered argv hP h false,
    tidy_containers fun _ _ argv _ hP h => lset_ordered argv hP h,
    .keeps fun _ _ argv _ hP har h => sadd_ordered argv hP h har,
    tidy_containers fun _ _ argv _ hP h => srem_ordered argv hP h,
    tidy_containers fun _ _ argv _ hP h => spop_ordered argv hP h,
    .zadd rfl,
    .zrem rfl,
    .zincrby rfl,
    tidy_strings fun _ _ argv _ hP h => pfadd_ordered argv hP h,
    tidy_strings fun _ _ argv _ hP h => pfmerge_ordered argv hP h,
    tidy_reads fun _ _ _ _ h => h,
    tidy_reads fun _ _ _ _ h => h, by simp⟩

theorem tidy_specs (h : spec ∈ CommandTable.specs) : Tidy spec := by
  cases hw : spec.write with
  | false => exact tidy_readers spec (mem_readers h hw)
  | true => exact tidy_writers spec (mem_writers h hw)

theorem orderly_specs (h : spec ∈ CommandTable.specs) : Orderly spec := (tidy_specs h).orderly

/-- A command leaves things in order, where what `ZADD` stores before it meets a bad score is. -/
theorem execCore_ordered {P : Object → Prop} {env : Env} {argv : List Bytes} {db : Keyspace}
    (hP : ∀ o, Object.NonEmpty o → P o) (h : InOrder P db)
    (hz : lowercase (cmdName argv) = ascii "zadd" → allParse (pairs (Cmd.zaddArgs argv).2) = false → Cmd.zaddSyntax argv →
      ∀ z, (db.peek env.now (arg argv 1) = none ∧ z = .empty ∨ db.peek env.now (arg argv 1) = some (.zset z)) →
        P (.zset (Cmd.zaddStored env argv z))) : InOrder P (execCore env argv db).db := by
  unfold execCore
  cases hr : route argv with
  | error e => exact h
  | ok spec =>
    have hmem := find_mem (route_ok hr).1
    cases orderly_specs hmem.1 with
    | zadd hspec =>
      subst hspec
      exact Cmd.zadd_ordered hP h (hz hmem.2.symm)
    | keeps hk => exact hk P env argv db hP (arity_le (route_ok hr).2) h

end Table

end BlazeKV
