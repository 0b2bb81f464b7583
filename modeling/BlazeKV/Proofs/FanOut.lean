import BlazeKV.Proofs.Framing
import BlazeKV.Proofs.ReadFrame

/-! Commands that are split over several shards, against the same command on one keyspace
that holds all keys. -/

namespace BlazeKV

open Keyspace

section Requests

variable {γ : Type} (g : HnswGraph γ) (env : Env) (key k : Bytes) (x : Node γ)

/-- The reply of `GET` from what is live. -/
def getReply (o : Option Object) : Bytes :=
  match found Object.string? o with
  | .absent => Reply.nullBulk
  | .wrongType => errWrongType
  | .present s => Reply.bulk s

theorem exec_get : (x.exec g env [ascii "GET", key]).1.store.db = (x.store.db.lookup env.now key).1 ∧
    (x.exec g env [ascii "GET", key]).2 = getReply (x.store.db.peek env.now key) := by
  have hr : route [ascii "GET", key] = .ok ⟨ascii "get", Cmd.get, 2, false, 1, 1, 1⟩ := rfl
  have harg : arg [ascii "GET", key] 1 = key := rfl
  unfold Node.exec getReply
  rw [execStore_ok g env _ x.store hr]
  simp only [Cmd.get, Cmd.getString, getAs_eq, harg, withVectors_now]
  cases found Object.string? (x.store.db.peek env.now key) <;> exact ⟨rfl, rfl⟩

theorem exec_exists : (x.exec g env [ascii "EXISTS", key]).1.store.db = (x.store.db.lookup env.now key).1 ∧
    (x.exec g env [ascii "EXISTS", key]).2 =
      Reply.integer (if (x.store.db.peek env.now key).isSome then 1 else 0) := by
  have hr : route [ascii "EXISTS", key] = .ok ⟨ascii "exists", Cmd.exists', -2, false, 1, -1, 1⟩ := rfl
  unfold Node.exec
  rw [execStore_ok g env _ x.store hr]
  cases h : (x.store.db.peek env.now key).isSome <;> simp [Cmd.exists', countLoop, existsKey, h]

theorem exec_set (v : Bytes) : (x.exec g env [ascii "SET", key, v]).1.store.db =
      ((x.store.db.lookup env.now key).1.set key (.string v)) ∧
    (x.exec g env [ascii "SET", key, v]).2 = Reply.simpleString (ascii "OK") := by
  have hr : route [ascii "SET", key, v] = .ok ⟨ascii "set", Cmd.set, -3, true, 1, 1, 1⟩ := rfl
  unfold Node.exec
  rw [execStore_ok g env _ x.store hr]
  exact ⟨rfl, rfl⟩

theorem exec_del_reply : (x.exec g env [ascii "DEL", key]).2 =
    Reply.integer (if (x.store.db.dict.find key).isSome then 1 else 0) := by
  have hr : route [ascii "DEL", key] = .ok ⟨ascii "del", Cmd.del, -2, true, 1, -1, 1⟩ := rfl
  unfold Node.exec
  rw [execStore_ok g env _ x.store hr]
  cases h : (x.store.db.dict.find key).isSome <;> simp [Cmd.del, countLoop, Cmd.eraseRound, Result.markedIf, h]

end Requests

section FanOut

variable {ι γ : Type} [DecidableEq ι] (g : HnswGraph γ) (env : Env) {reqs : List (ι × List Bytes)} {s : ι → Node γ}

/-- What has arrived after some of the requests. -/
theorem fanOut_snoc (order : List ℕ) (i : ℕ) : fanOut g env reqs s (order ++ [i]) =
    fanStep g env reqs (fanOut g env reqs s order) i := by
  rw [fanOut, List.foldl_append]
  rfl

theorem fanOut_length (reqs : List (ι × List Bytes)) (s : ι → Node γ) (order : List ℕ) :
    (fanOut g env reqs s order).2.length = reqs.length := by
  induction order using List.reverseRecOn with
  | nil => simp [fanOut]
  | append_singleton order i ih =>
    rw [fanOut_snoc, fanStep]
    split
    · exact ih
    · rwa [List.length_set]

/-- The requests that only look: what is live stays, and each fragment is what its request
would bring at once. -/
theorem fanOut_looks (reqs : List (ι × List Bytes)) (s : ι → Node γ) (F : ι × List Bytes → Bytes)
    (hlive : ∀ r ∈ reqs, ∀ x : Node γ, ∀ k, (x.exec g env r.2).1.store.db.live env.now k = x.store.db.live env.now k)
    (hF : ∀ r ∈ reqs, ∀ x : Node γ, (∀ k, x.store.db.live env.now k = (s r.1).store.db.live env.now k) →
      (x.exec g env r.2).2 = F r) (order : List ℕ) :
    (∀ j k, ((fanOut g env reqs s order).1 j).store.db.live env.now k = (s j).store.db.live env.now k) ∧
      ∀ i, (fanOut g env reqs s order).2[i]? = (reqs[i]?).map fun r => if i ∈ order then some (F r) else none := by
  induction order using List.reverseRecOn with
  | nil =>
    refine ⟨fun _ _ => rfl, fun i => ?_⟩
    simp only [fanOut, List.foldl_nil, List.getElem?_replicate, List.not_mem_nil, if_false]
    split_ifs with hi
    · rw [List.getElem?_eq_getElem hi]
      rfl
    · rw [List.getElem?_eq_none (by omega)]
      rfl
  | append_singleton order i ih =>
    obtain ⟨ih1, ih2⟩ := ih
    have hlen := fanOut_length g env reqs s order
    rw [fanOut_snoc, fanStep]
    cases hr : reqs[i]? with
    | none =>
      refine ⟨ih1, fun i' => ?_⟩
      rw [ih2]
      by_cases hi : i' = i
      · rw [hi, hr]
        rfl
      · simp [hi]
    | some r =>
      obtain ⟨hi, hget⟩ := List.getElem?_eq_some_iff.1 hr
      have hmem : r ∈ reqs := hget ▸ List.getElem_mem hi
      refine ⟨fun j k => ?_, fun i' => ?_⟩
      · dsimp only
        by_cases hj : j = r.1
        · subst hj
          rw [Function.update_self, hlive r hmem, ih1]
        · rw [Function.update_of_ne hj, ih1]
      · dsimp only
        rw [List.getElem?_set]
        by_cases hi' : i = i'
        · subst hi'
          rw [if_pos rfl, if_pos (by omega), hr, hF r hmem _ (ih1 r.1)]
          simp
        · rw [if_neg hi', ih2]
          simp [Ne.symm hi']

omit [DecidableEq ι] in
/-- The fragments of requests that only look, once all have been executed. -/
theorem fanOut_looks_all {F : ι × List Bytes → Bytes} {frags : List (Option Bytes)} {order : List ℕ}
    (ho : order.Perm (List.range reqs.length))
    (h : ∀ i, frags[i]? = (reqs[i]?).map fun r => if i ∈ order then some (F r) else none) :
    frags = (reqs.map F).map some := by
  refine List.ext_getElem? fun i => ?_
  rw [h, List.getElem?_map, List.getElem?_map]
  cases hr : reqs[i]? with
  | none => rfl
  | some r =>
    have hi : i < reqs.length := (List.getElem?_eq_some_iff.1 hr).1
    simp [ho.mem_iff, hi]

/-- The fragments that have arrived are those of the requests that were executed. -/
theorem fanOut_filled (reqs : List (ι × List Bytes)) (s : ι → Node γ) (order : List ℕ) (i : ℕ) :
    ((fanOut g env reqs s order).2[i]?).map Option.isSome = (reqs[i]?).map fun _ => decide (i ∈ order) := by
  induction order using List.reverseRecOn with
  | nil =>
    simp only [fanOut, List.foldl_nil, List.getElem?_replicate, List.not_mem_nil, decide_false]
    split_ifs with hi
    · rw [List.getElem?_eq_getElem hi]
      rfl
    · rw [List.getElem?_eq_none (by omega)]
      rfl
  | append_singleton order j ih =>
    have hlen := fanOut_length g env reqs s order
    rw [fanOut_snoc, fanStep]
    cases hr : reqs[j]? with
    | none =>
      dsimp only
      rw [ih]
      by_cases hi : i = j
      · rw [hi, hr]
        rfl
      · simp [hi]
    | some r =>
      have hj := (List.getElem?_eq_some_iff.1 hr).1
      dsimp only
      rw [List.getElem?_set]
      by_cases hi : j = i
      · subst hi
        rw [if_pos rfl, if_pos (by omega), hr]
        simp
      · rw [if_neg hi, ih]
        simp [Ne.symm hi]

theorem fanOut_complete {order : List ℕ} (ho : order.Perm (List.range reqs.length)) :
    missing (fanOut g env reqs s order).2 = 0 := by
  refine List.countP_eq_zero.2 fun f hf => ?_
  obtain ⟨i, hi, rfl⟩ := List.mem_iff_getElem.1 hf
  have hlen := fanOut_length g env reqs s order
  have := fanOut_filled g env reqs s order i
  rw [List.getElem?_eq_getElem hi, List.getElem?_eq_getElem (by omega)] at this
  have hmem : i ∈ order := ho.mem_iff.2 (List.mem_range.2 (by omega))
  simp only [Option.map_some, hmem, decide_true, Option.some.injEq] at this
  rw [Option.isNone_iff_eq_none]
  intro hnone
  rw [hnone] at this
  cases this

variable (shardFor : Bytes → ι) (keys : List Bytes)

/-- The keys of the requests that were executed. -/
abbrev doneOf {α : Type} (xs : List α) (order : List ℕ) : List α := order.filterMap (xs[·]?)

theorem doneOf_all {α : Type} (xs : List α) : doneOf xs (List.range xs.length) = xs := by
  induction xs using List.reverseRecOn with
  | nil => rfl
  | append_singleton xs a ih =>
    have hfront : (List.range xs.length).filterMap ((xs ++ [a])[·]?) = doneOf xs (List.range xs.length) := by
      refine List.filterMap_congr fun i hi => ?_
      rw [List.getElem?_append_left (List.mem_range.1 hi)]
    rw [doneOf, List.length_append, List.length_singleton, List.range_succ, List.filterMap_append, hfront, ih]
    simp

theorem doneOf_perm {α : Type} (xs : List α) {order : List ℕ} (ho : order.Perm (List.range xs.length)) :
    (doneOf xs order).Perm xs := (ho.filterMap _).trans (.of_eq (doneOf_all xs))

/-- The stored keys among some. -/
def storedCount (stored : Bytes → Bool) (ks : List Bytes) : ℕ := (ks.toFinset.filter fun k => stored k).card

theorem storedCount_snoc (stored : Bytes → Bool) (ks : List Bytes) (k : Bytes) : storedCount stored (ks ++ [k]) =
    storedCount stored ks + if k ∉ ks ∧ stored k then 1 else 0 := by
  unfold storedCount
  rw [List.toFinset_append, List.toFinset_cons, List.toFinset_nil, insert_empty_eq, Finset.union_comm,
    ← Finset.insert_eq, Finset.filter_insert]
  by_cases hs : stored k
  · by_cases hk : k ∈ ks
    · rw [if_pos hs, Finset.insert_eq_of_mem (by simp [hk, hs])]
      simp [hk]
    · rw [if_pos hs, Finset.card_insert_of_notMem (by simp [hk])]
      simp [hk, hs]
  · simp [hs]

/-- The run lemma of `DEL`: the keys are gone, and the counts add up. -/
theorem fanOut_del {order : List ℕ} (hn : order.Nodup) :
    let r := fanOut g env (keys.map fun k => (shardFor k, [ascii "DEL", k])) s order
    (∀ k, (r.1 (shardFor k)).store.db.dict.find k =
        if k ∈ doneOf keys order then none else (s (shardFor k)).store.db.dict.find k) ∧
      (∀ k, (r.1 (shardFor k)).store.db.live env.now k =
        if k ∈ doneOf keys order then none else (s (shardFor k)).store.db.live env.now k) ∧
      tally r.2 = storedCount (fun k => ((s (shardFor k)).store.db.dict.find k).isSome) (doneOf keys order) := by
  induction order using List.reverseRecOn with
  | nil =>
    refine ⟨fun k => by simp [fanOut], fun k => by simp [fanOut], ?_⟩
    have h0 : parseRespInteger [] = 0 := rfl
    simp [fanOut, tally, given, h0, storedCount]
  | append_singleton order i ih =>
    obtain ⟨hnd, -, hi⟩ := List.nodup_append.1 hn
    obtain ⟨ih1, ih2, ih3⟩ := ih hnd
    have hi : i ∉ order := fun h => hi i h i (List.mem_singleton_self i) rfl
    have hfill := fanOut_filled g env (keys.map fun k => (shardFor k, [ascii "DEL", k])) s order i
    dsimp only
    rw [fanOut_snoc, fanStep, List.getElem?_map]
    rw [List.getElem?_map] at hfill
    cases hk : keys[i]? with
    | none =>
      have hdone : doneOf keys (order ++ [i]) = doneOf keys order := by simp [doneOf, hk]
      rw [hdone]
      exact ⟨ih1, ih2, ih3⟩
    | some key =>
      have hdone : doneOf keys (order ++ [i]) = doneOf keys order ++ [key] := by simp [doneOf, hk]
      have hempty : (fanOut g env (keys.map fun k => (shardFor k, [ascii "DEL", k])) s order).2[i]? = some none := by
        rw [hk] at hfill
        simp only [Option.map_some, hi, decide_false] at hfill
        obtain ⟨f, hf, hnone⟩ := Option.map_eq_some_iff.1 hfill
        rw [hf, Option.isSome_eq_false_iff.1 hnone |> Option.isNone_iff_eq_none.1]
      rw [hdone]
      simp only [Option.map_some, exec_del, exec_del_reply]
      have hmem : ∀ k, k ∈ doneOf keys order ++ [key] ↔ k = key ∨ k ∈ doneOf keys order := fun k => by
        rw [List.mem_append, List.mem_singleton, or_comm]
      refine ⟨fun k => ?_, fun k => ?_, ?_⟩
      · simp only [hmem]
        by_cases hsh : shardFor k = shardFor key
        · rw [hsh, Function.update_self, find_dict_erase, ← hsh, ih1]
          by_cases hkey : k = key <;> simp [hkey]
        · have hne : k ≠ key := fun h => hsh (congrArg shardFor h)
          rw [Function.update_of_ne hsh, ih1]
          simp [hne]
      · simp only [hmem]
        by_cases hsh : shardFor k = shardFor key
        · rw [hsh, Function.update_self, live_erase, ← hsh, ih2]
          by_cases hkey : k = key <;> simp [hkey]
        · have hne : k ≠ key := fun h => hsh (congrArg shardFor h)
          rw [Function.update_of_ne hsh, ih2]
          simp [hne]
      · rw [tally_set _ hempty, ih3, storedCount_snoc, ih1]
        have hone : parseRespInteger (Reply.integer 1) = 1 := by decide
        have hzero : parseRespInteger (Reply.integer 0) = 0 := by decide
        by_cases hd : key ∈ doneOf keys order
        · simp [hd, hzero]
        · cases hst : ((s (shardFor key)).store.db.dict.find key).isSome <;> simp [hd, hst, hone, hzero]

/-- The value that the last of some assignments gives a key. -/
def assigned (init : Option Entry) (ps : List (Bytes × Bytes)) (k : Bytes) : Option Entry :=
  ps.foldl (fun e p => if p.1 = k then some (.string p.2, none) else e) init

theorem assigned_filter (init : Option Entry) (ps : List (Bytes × Bytes)) (k : Bytes) :
    assigned init ps k = assigned init (ps.filter fun p => p.1 = k) k := by
  unfold assigned
  induction ps generalizing init with
  | nil => rfl
  | cons p ps ih =>
    rw [List.foldl_cons, ih, List.filter_cons]
    by_cases hp : p.1 = k <;> simp [hp]

/-- The run lemma of `SET`: the last assignment of a key stays. -/
theorem fanOut_set (ps : List (Bytes × Bytes)) (order : List ℕ) (k : Bytes) :
    ((fanOut g env (ps.map fun p => (shardFor p.1, [ascii "SET", p.1, p.2])) s order).1 (shardFor k)).store.db.live
      env.now k = assigned ((s (shardFor k)).store.db.live env.now k) (doneOf ps order) k := by
  induction order using List.reverseRecOn with
  | nil => rfl
  | append_singleton order i ih =>
    rw [fanOut_snoc, fanStep, List.getElem?_map]
    cases hp : ps[i]? with
    | none =>
      have hdone : doneOf ps (order ++ [i]) = doneOf ps order := by simp [doneOf, hp]
      rw [hdone]
      exact ih
    | some p =>
      have hdone : doneOf ps (order ++ [i]) = doneOf ps order ++ [p] := by simp [doneOf, hp]
      have hstep : assigned ((s (shardFor k)).store.db.live env.now k) (doneOf ps order ++ [p]) k =
          if p.1 = k then some (.string p.2, none)
          else assigned ((s (shardFor k)).store.db.live env.now k) (doneOf ps order) k := by
        rw [assigned, List.foldl_append]
        rfl
      rw [hdone, hstep]
      simp only [Option.map_some]
      by_cases hsh : shardFor k = shardFor p.1
      · rw [hsh, Function.update_self, (exec_set g env p.1 _ p.2).1, live_set, live_lookup, ← hsh, ih]
        by_cases hk : k = p.1
        · rw [if_pos hk, if_pos hk.symm]
        · rw [if_neg hk, if_neg fun h => hk h.symm]
      · have hne : ¬p.1 = k := fun h => hsh (congrArg shardFor h.symm)
        rw [Function.update_of_ne hsh, ih, if_neg hne]

/-- Each shard executes its requests in the order in which they were posted. -/
def MailboxOrder (reqs : List (ι × List Bytes)) (order : List ℕ) : Prop :=
  order.Perm (List.range reqs.length) ∧ ∀ j : ι, order.filter (fun i => (reqs[i]?).map Prod.fst = some j) =
    (List.range reqs.length).filter fun i => (reqs[i]?).map Prod.fst = some j

theorem doneOf_filter {α : Type} (xs : List α) (p : α → Bool) (order : List ℕ) : (doneOf xs order).filter p =
    doneOf xs (order.filter fun i => (xs[i]?).any p) := by
  induction order with
  | nil => rfl
  | cons i order ih =>
    cases hi : xs[i]? with
    | none => simpa [doneOf, hi] using ih
    | some x =>
      cases hp : p x <;> simpa [doneOf, hi, hp] using ih

theorem fanOut_set_all {ps : List (Bytes × Bytes)} {order : List ℕ}
    (ho : MailboxOrder (ps.map fun p => (shardFor p.1, [ascii "SET", p.1, p.2])) order) (init : Option Entry) (k : Bytes) :
    assigned init (doneOf ps order) k = assigned init ps k := by
  have howner : ∀ os : List ℕ, os.filter (fun i => (ps[i]?).any fun p => p.1 = k) =
      (os.filter fun i => ((ps.map fun p => (shardFor p.1, [ascii "SET", p.1, p.2]))[i]?).map Prod.fst =
        some (shardFor k)).filter fun i => (ps[i]?).any fun p => p.1 = k := by
    intro os
    rw [List.filter_filter]
    refine List.filter_congr fun i _ => ?_
    rw [List.getElem?_map]
    cases ps[i]? with
    | none => rfl
    | some p => by_cases hp : p.1 = k <;> simp [hp]
  have hall := doneOf_all ps
  have hlen := ho.2 (shardFor k)
  rw [List.length_map] at hlen
  rw [assigned_filter, doneOf_filter, howner, hlen, ← howner, ← doneOf_filter, hall, ← assigned_filter]

end FanOut

section Handlers

variable (env : Env) (argv keys : List Bytes) (U : Keyspace)

theorem mget_fold (r : Keyspace × Bytes) (h : ∀ k, r.1.live env.now k = U.live env.now k) :
    (∀ k, (keys.foldl (Cmd.mgetRound env.now) r).1.live env.now k = U.live env.now k) ∧
      (keys.foldl (Cmd.mgetRound env.now) r).2 =
        r.2 ++ (keys.map fun k => Cmd.replyOpt ((U.peek env.now k).bind Object.string?)).flatten := by
  induction keys generalizing r with
  | nil => exact ⟨h, by simp⟩
  | cons key keys ih =>
    obtain ⟨h1, h2⟩ := ih (Cmd.mgetRound env.now r key) fun k => by
      rw [Cmd.mgetRound]
      dsimp only
      rw [live_lookup, h]
    refine ⟨h1, ?_⟩
    rw [List.foldl_cons, h2]
    simp [Cmd.mgetRound, peek_of_live_eq (h key)]

theorem exists_fold (db : Keyspace) (h : ∀ k, db.live env.now k = U.live env.now k) :
    (∀ k, (countLoop (fun db key => db.existsKey env.now key) db keys).1.live env.now k = U.live env.now k) ∧
      (countLoop (fun db key => db.existsKey env.now key) db keys).2 =
        keys.countP fun k => (U.peek env.now k).isSome := by
  induction keys generalizing db with
  | nil => exact ⟨h, rfl⟩
  | cons key keys ih =>
    obtain ⟨h1, h2⟩ := ih (db.existsKey env.now key).1 fun k => by
      rw [existsKey, live_lookup, h]
    rw [countLoop_cons]
    refine ⟨h1, ?_⟩
    dsimp only
    rw [h2, List.countP_cons, existsKey, lookup_snd, peek_of_live_eq (h key)]

theorem erase_fold (db : Keyspace) :
    (∀ k, (countLoop Cmd.eraseRound db keys).1.live env.now k = if k ∈ keys then none else db.live env.now k) ∧
      (countLoop Cmd.eraseRound db keys).2 = storedCount (fun k => (db.dict.find k).isSome) keys := by
  have hmain : (∀ k, (countLoop Cmd.eraseRound db keys).1.live env.now k = if k ∈ keys then none else db.live env.now k) ∧
      (∀ k, (countLoop Cmd.eraseRound db keys).1.dict.find k = if k ∈ keys then none else db.dict.find k) ∧
      (countLoop Cmd.eraseRound db keys).2 = storedCount (fun k => (db.dict.find k).isSome) keys := by
    induction keys using List.reverseRecOn with
    | nil => simp [storedCount]
    | append_singleton keys key ih =>
      obtain ⟨ih1, ih2, ih3⟩ := ih
      have hsnoc : countLoop Cmd.eraseRound db (keys ++ [key]) =
          ((countLoop Cmd.eraseRound db keys).1.erase key, if ((countLoop Cmd.eraseRound db keys).1.dict.find key).isSome
            then (countLoop Cmd.eraseRound db keys).2 + 1 else (countLoop Cmd.eraseRound db keys).2) := by
        rw [countLoop, List.foldl_append]
        simp [countLoop, Cmd.eraseRound]
      rw [hsnoc]
      refine ⟨fun k => ?_, fun k => ?_, ?_⟩
      · rw [live_erase, ih1]
        by_cases hk : k = key <;> simp [hk]
      · rw [find_dict_erase, ih2]
        by_cases hk : k = key <;> simp [hk]
      · rw [storedCount_snoc, ih2, ih3]
        by_cases hk : key ∈ keys
        · simp [hk]
        · cases h : (db.dict.find key).isSome <;> simp [hk, h]
  exact ⟨hmain.1, hmain.2.2⟩

theorem set_fold (ps : List (Bytes × Bytes)) (db : Keyspace) (k : Bytes) :
    (ps.foldl (fun db p => db.set p.1 (.string p.2)) db).live env.now k = assigned (db.live env.now k) ps k := by
  induction ps generalizing db with
  | nil => rfl
  | cons p ps ih =>
    rw [List.foldl_cons, ih, live_set, assigned, assigned, List.foldl_cons]
    by_cases hk : k = p.1
    · rw [if_pos hk, if_pos hk.symm]
    · rw [if_neg hk, if_neg fun h => hk h.symm]

end Handlers

section Keys

theorem mapIdx_const {α β : Type} (f : α → β) (xs : List α) : (xs.mapIdx fun _ x => f x) = xs.map f := by
  refine List.ext_getElem? fun i => ?_
  simp

/-- The keys of a command that takes nothing else. -/
theorem extractKeys_tail {spec : CommandSpec} {argv : List Bytes} (hf : spec.firstKey = 1) (hl : spec.lastKey = -1)
    (hs : spec.keyStep = 1) : extractKeys spec argv = argv.tail := by
  have h1 : ¬((argv.length : ℤ) + -1 ≥ argv.length) := by omega
  have hcount : (((argv.length : ℤ) + -1 - 1) / ((1 : ℕ) : ℤ) + 1).toNat = argv.length - 1 := by
    rw [Nat.cast_one, Int.ediv_one]
    omega
  unfold extractKeys keyIndexes
  simp only [hf, hl, hs, one_ne_zero, if_false, h1, show (-1 : ℤ) < 0 by decide, if_true]
  have hcount' : (((argv.length : ℤ) + -1 - ((1 : ℕ) : ℤ)) / ((1 : ℕ) : ℤ) + 1).toNat = argv.length - 1 := hcount
  rw [hcount']
  refine List.ext_getElem (by simp) fun i h h' => ?_
  simp only [List.getElem_map, List.getElem_range', List.getElem_tail, arg]
  rw [one_mul, add_comm]
  exact (List.getElem_eq_getD _).symm

/-- The keys of `MSET`, and its values. -/
theorem pairs_eq (xs : List Bytes) : pairs xs =
    (List.range (xs.length / 2)).map fun i => (xs.getD (2 * i) [], xs.getD (2 * i + 1) []) := by
  induction xs using pairs.induct with
  | case1 a b rest ih =>
    have hlen : (a :: b :: rest).length / 2 = rest.length / 2 + 1 := by
      simp only [List.length_cons]
      omega
    rw [pairs, ih, hlen, List.range_succ_eq_map, List.map_cons, List.map_map]
    congr 1
  | case2 xs h =>
    rcases xs with _ | ⟨a, _ | ⟨b, rest⟩⟩
    · rfl
    · simp [pairs]
    · exact absurd rfl (h a b rest)

theorem extractKeys_mset {spec : CommandSpec} {argv : List Bytes} (hf : spec.firstKey = 1) (hl : spec.lastKey = -1)
    (hs : spec.keyStep = 2) (hodd : argv.length % 2 = 1) : extractKeys spec argv = (pairs argv.tail).map Prod.fst := by
  have h1 : ¬((argv.length : ℤ) + -1 ≥ argv.length) := by omega
  have hcount : (((argv.length : ℤ) + -1 - ((1 : ℕ) : ℤ)) / ((2 : ℕ) : ℤ) + 1).toNat = argv.tail.length / 2 := by
    rw [List.length_tail]
    omega
  unfold extractKeys keyIndexes
  simp only [hf, hl, hs, one_ne_zero, if_false, h1, show (-1 : ℤ) < 0 by decide, if_true]
  rw [hcount, pairs_eq, List.map_map]
  refine List.ext_getElem (by simp) fun i h h' => ?_
  simp only [List.getElem_map, List.getElem_range', List.getElem_range, Function.comp_def, arg]
  cases argv with
  | nil => simp at h
  | cons a rest => rw [add_comm 1, List.getD_cons_succ, List.tail_cons]

variable {ι : Type} [DecidableEq ι] {shardFor : Bytes → ι} {self : ι} {argv keys : List Bytes}

theorem plan_fanOut (h : plan shardFor self argv = .fanOut keys) : ∃ spec, route argv = .ok spec ∧
    keys = extractKeys spec argv := by
  obtain ⟨spec, hr⟩ := plan_routed shardFor self argv h (fun e => by simp)
  refine ⟨spec, hr, ?_⟩
  unfold plan at h
  rw [hr] at h
  dsimp only at h
  split at h
  · cases h
  · next key rest heq =>
    split_ifs at h
    rw [heq]
    exact (Plan.fanOut.inj h).symm

theorem requests_fanOut (h : plan shardFor self argv = .fanOut keys) : requests shardFor self argv =
    keys.mapIdx fun i key => (shardFor key, subCommand (kindOf (lowercase (cmdName argv))) argv i key) := by
  rw [requests, h]

omit [DecidableEq ι] in
theorem requests_mset {ps : List (Bytes × Bytes)} (hps : ps = pairs argv.tail) :
    ((ps.map Prod.fst).mapIdx fun i key => (shardFor key, subCommand .mset argv i key)) =
      ps.map fun p => (shardFor p.1, [ascii "SET", p.1, p.2]) := by
  refine List.ext_getElem (by simp) fun i h h' => ?_
  have hi : i < (pairs argv.tail).length := by simpa [hps] using h'
  have hval : (pairs argv.tail)[i].2 = arg argv (2 * i + 2) := by
    simp only [pairs_eq, List.getElem_map, List.getElem_range]
    rw [arg]
    cases argv with
    | nil => rfl
    | cons a rest => rfl
  subst hps
  simp [subCommand, ← hval]

end Keys

section Agree

variable {ι γ : Type} [DecidableEq ι] (g : HnswGraph γ) (env : Env) (shardFor : Bytes → ι) (self : ι)
  (argv : List Bytes) (s : ι → Node γ) (U : Keyspace) (order : List ℕ)

/-- One keyspace that holds the keys of all shards. -/
def Whole : Prop := ∀ k, U.dict.find k = (s (shardFor k)).store.db.dict.find k ∧
  U.expires.find k = (s (shardFor k)).store.db.expires.find k

/-- The split command replies, and leaves, what its own handler does on one keyspace. -/
def SplitAgrees : Prop :=
  (Answer.parts (kindOf (lowercase (cmdName argv))) (fanOut g env (requests shardFor self argv) s order).2).reply =
      some (execCore env argv U).reply ∧
    ∀ k, ((fanOut g env (requests shardFor self argv) s order).1 (shardFor k)).store.db.live env.now k =
      (execCore env argv U).db.live env.now k

variable {shardFor self argv s U order}

omit [DecidableEq ι] in
theorem Whole.live (h : Whole shardFor s U) (now : ℕ) (k : Bytes) :
    (s (shardFor k)).store.db.live now k = U.live now k := live_congr (h k).1.symm (h k).2.symm now

theorem getReply_eq_iff (o : Option Object) : getReply o = Cmd.replyOpt (o.bind Object.string?) ↔
    ∀ o', o = some o' → (o'.string?).isSome := by
  have hne : errWrongType ≠ Reply.nullBulk := by decide
  cases o with
  | none => simp [getReply, found, Cmd.replyOpt]
  | some o =>
    cases hs : o.string? <;> simp [getReply, found, Cmd.replyOpt, hs, hne]

theorem isReply_getReply (o : Option Object) : IsReply (getReply o) := by
  unfold getReply
  cases found Object.string? o with
  | absent => exact .nullBulk
  | wrongType => exact isReply_texts.1
  | present v => exact .bulk v

theorem execCore_ok {spec : CommandSpec} (hr : route argv = .ok spec) :
    (execCore env argv U).reply = (spec.fn env argv U).reply ∧ (execCore env argv U).db = (spec.fn env argv U).db := by
  simp [execCore, hr]

theorem mget_agrees_iff {keys : List Bytes} (hr : route argv = .ok ⟨ascii "mget", Cmd.mget, -2, false, 1, -1, 1⟩)
    (hk : keys = argv.tail) (hreqs : requests shardFor self argv = keys.map fun k => (shardFor k, [ascii "GET", k]))
    (hkind : kindOf (lowercase (cmdName argv)) = .mget) (hU : Whole shardFor s U)
    (ho : order.Perm (List.range (requests shardFor self argv).length)) :
    SplitAgrees g env shardFor self argv s U order ↔
      ∀ k ∈ keys, ∀ o, U.peek env.now k = some o → (o.string?).isSome := by
  subst hk
  have hpos : 1 ≤ argv.length := le_trans (by decide) (arity_le (route_ok hr).2)
  obtain ⟨hlive, hfrags⟩ := fanOut_looks g env (requests shardFor self argv) s
    (fun r => getReply ((s r.1).store.db.peek env.now (arg r.2 1))) (fun r hmem x k => by
      rw [hreqs] at hmem
      obtain ⟨key, -, rfl⟩ := List.mem_map.1 hmem
      rw [(exec_get g env key x).1, live_lookup]) (fun r hmem x hx => by
      rw [hreqs] at hmem
      obtain ⟨key, -, rfl⟩ := List.mem_map.1 hmem
      rw [(exec_get g env key x).2, peek_of_live_eq (hx key)]
      rfl) order
  have hvals : (requests shardFor self argv).map (fun r => getReply ((s r.1).store.db.peek env.now (arg r.2 1))) =
      argv.tail.map fun k => getReply (U.peek env.now k) := by
    rw [hreqs, List.map_map]
    refine List.map_congr_left fun k _ => ?_
    have hpeek := peek_of_live_eq (hU.live env.now k)
    simp only [Function.comp_def, ← hpeek]
    rfl
  obtain ⟨hl, hrep⟩ := mget_fold env argv.tail U (U, Reply.arrayHeader (argv.length - 1)) fun _ => rfl
  have hlen : ((argv.tail.map fun k => getReply (U.peek env.now k)).length : ℤ) = argv.length - 1 := by
    rw [List.length_map, List.length_tail]
    omega
  unfold SplitAgrees
  rw [fanOut_looks_all ho hfrags, hvals, hkind, replyBytes_parts, (execCore_ok env hr).1, (execCore_ok env hr).2]
  simp only [assembled, hlen, Cmd.mget, Result.clean_reply, Result.clean_db, hrep]
  have hleft : ∀ k, ((fanOut g env (requests shardFor self argv) s order).1 (shardFor k)).store.db.live env.now k =
      (argv.tail.foldl (Cmd.mgetRound env.now) (U, Reply.arrayHeader (argv.length - 1))).1.live env.now k := by
    intro k
    rw [hlive, hU.live, hl]
  rw [Option.some.injEq, List.append_cancel_left_eq]
  constructor
  · rintro ⟨heq, -⟩ k hmem
    have hws : ∀ w ∈ argv.tail.map fun k => Cmd.replyOpt ((U.peek env.now k).bind Object.string?), IsReply w := by
      intro w hw
      obtain ⟨k, -, rfl⟩ := List.mem_map.1 hw
      exact isReply_replyOpt _
    have hvs : ∀ v ∈ argv.tail.map fun k => getReply (U.peek env.now k), ∀ w, IsReply w → ∀ x y, v ++ x = w ++ y → v = w := by
      intro v hv
      obtain ⟨k, -, rfl⟩ := List.mem_map.1 hv
      exact (isReply_getReply _).prefix_free
    have hall := flatten_inj hvs hws (by simp) (x := []) (y := []) (by simpa using heq)
    exact (getReply_eq_iff _).1 (List.map_inj_left.1 hall k hmem)
  · intro h
    refine ⟨?_, hleft⟩
    rw [List.map_congr_left fun k hmem => (getReply_eq_iff _).2 (h k hmem)]

theorem exists_agrees {keys : List Bytes} (hr : route argv = .ok ⟨ascii "exists", Cmd.exists', -2, false, 1, -1, 1⟩)
    (hk : keys = argv.tail) (hreqs : requests shardFor self argv = keys.map fun k => (shardFor k, [ascii "EXISTS", k]))
    (hkind : kindOf (lowercase (cmdName argv)) = .existsCount) (hU : Whole shardFor s U)
    (ho : order.Perm (List.range (requests shardFor self argv).length)) :
    SplitAgrees g env shardFor self argv s U order := by
  subst hk
  obtain ⟨hlive, hfrags⟩ := fanOut_looks g env (requests shardFor self argv) s
    (fun r => Reply.integer (if ((s r.1).store.db.peek env.now (arg r.2 1)).isSome then 1 else 0)) (fun r hmem x k => by
      rw [hreqs] at hmem
      obtain ⟨key, -, rfl⟩ := List.mem_map.1 hmem
      rw [(exec_exists g env key x).1, live_lookup]) (fun r hmem x hx => by
      rw [hreqs] at hmem
      obtain ⟨key, -, rfl⟩ := List.mem_map.1 hmem
      rw [(exec_exists g env key x).2, peek_of_live_eq (hx key)]
      rfl) order
  have hvals : (requests shardFor self argv).map
      (fun r => Reply.integer (if ((s r.1).store.db.peek env.now (arg r.2 1)).isSome then 1 else 0)) =
        argv.tail.map fun k => Reply.integer (if (U.peek env.now k).isSome then 1 else 0) := by
    rw [hreqs, List.map_map]
    refine List.map_congr_left fun k _ => ?_
    have hpeek := peek_of_live_eq (hU.live env.now k)
    simp only [Function.comp_def, ← hpeek]
    rfl
  have hsum : ∀ keys : List Bytes,
      ((keys.map fun k => Reply.integer (if (U.peek env.now k).isSome then 1 else 0)).map parseRespInteger).sum =
        ((keys.countP fun k => (U.peek env.now k).isSome : ℕ) : ℤ) := by
    intro keys
    have hone : parseRespInteger (Reply.integer 1) = 1 := by decide
    have hzero : parseRespInteger (Reply.integer 0) = 0 := by decide
    induction keys with
    | nil => rfl
    | cons k keys ih =>
      rw [List.map_cons, List.map_cons, List.sum_cons, ih, List.countP_cons]
      cases (U.peek env.now k).isSome <;> simp [hone, hzero, add_comm]
  obtain ⟨hl, hcount⟩ := exists_fold env argv.tail U U fun _ => rfl
  unfold SplitAgrees
  rw [fanOut_looks_all ho hfrags, hvals, hkind, replyBytes_parts, (execCore_ok env hr).1, (execCore_ok env hr).2]
  refine ⟨?_, fun k => ?_⟩
  · simp only [assembled, hsum, Cmd.exists', Result.clean_reply, hcount]
  · rw [hlive, hU.live]
    exact (hl k).symm

/-- The requests that are served by `DEL`. -/
theorem del_parts {keys : List Bytes} (hreqs : requests shardFor self argv = keys.map fun k => (shardFor k, [ascii "DEL", k]))
    (hU : Whole shardFor s U) (ho : order.Perm (List.range (requests shardFor self argv).length)) :
    (Answer.parts .delCount (fanOut g env (requests shardFor self argv) s order).2).reply =
        some (Reply.integer (storedCount (fun k => (U.dict.find k).isSome) keys)) ∧
      ∀ k, ((fanOut g env (requests shardFor self argv) s order).1 (shardFor k)).store.db.live env.now k =
        if k ∈ keys then none else U.live env.now k := by
  have hmiss := fanOut_complete g env (s := s) ho
  rw [hreqs] at ho hmiss ⊢
  rw [List.length_map] at ho
  obtain ⟨-, hlive, htally⟩ := fanOut_del g env shardFor keys (s := s) (ho.symm.nodup List.nodup_range)
  have hperm := doneOf_perm keys ho
  have hstored : (fun k => ((s (shardFor k)).store.db.dict.find k).isSome) = fun k => (U.dict.find k).isSome := by
    funext k
    rw [(hU k).1]
  refine ⟨?_, fun k => ?_⟩
  · rw [Answer.reply, if_pos hmiss, assembled_count rfl, htally, hstored, storedCount, storedCount,
      List.toFinset_eq_of_perm _ _ hperm]
  · rw [hlive, hU.live]
    simp only [hperm.mem_iff]

theorem del_agrees {keys : List Bytes} {spec : CommandSpec} (hr : route argv = .ok spec) (hfn : spec.fn = Cmd.del)
    (hk : keys = argv.tail) (hreqs : requests shardFor self argv = keys.map fun k => (shardFor k, [ascii "DEL", k]))
    (hkind : kindOf (lowercase (cmdName argv)) = .delCount) (hU : Whole shardFor s U)
    (ho : order.Perm (List.range (requests shardFor self argv).length)) :
    SplitAgrees g env shardFor self argv s U order := by
  subst hk
  obtain ⟨hrep, hlive⟩ := del_parts g env hreqs hU ho
  obtain ⟨hl, hcount⟩ := erase_fold env argv.tail U
  unfold SplitAgrees
  rw [hkind, hrep, (execCore_ok env hr).1, (execCore_ok env hr).2, hfn]
  refine ⟨?_, fun k => ?_⟩
  · simp only [Cmd.del, Result.markedIf_reply, hcount]
  · rw [hlive]
    exact (hl k).symm

theorem touch_agrees_iff {keys : List Bytes} (hr : route argv = .ok ⟨ascii "touch", Cmd.exists', -2, false, 1, -1, 1⟩)
    (hk : keys = argv.tail) (hreqs : requests shardFor self argv = keys.map fun k => (shardFor k, [ascii "DEL", k]))
    (hkind : kindOf (lowercase (cmdName argv)) = .delCount) (hU : Whole shardFor s U)
    (ho : order.Perm (List.range (requests shardFor self argv).length)) :
    SplitAgrees g env shardFor self argv s U order ↔ ∀ k ∈ keys, U.dict.find k = none := by
  subst hk
  obtain ⟨hrep, hlive⟩ := del_parts g env hreqs hU ho
  obtain ⟨hl, hcount⟩ := exists_fold env argv.tail U U fun _ => rfl
  have hdead : ∀ k, U.dict.find k = none → U.live env.now k = none := fun k h => live_of_none h _
  unfold SplitAgrees
  rw [hkind, hrep, (execCore_ok env hr).1, (execCore_ok env hr).2]
  simp only [Cmd.exists', Result.clean_reply, Result.clean_db, hcount, hl, hlive, Option.some.injEq]
  constructor
  · rintro ⟨hrep, hlive⟩ k hmem
    by_contra hstored
    have hnone : ∀ k ∈ argv.tail, U.live env.now k = none := fun k hk => by
      have := hlive k
      rw [if_pos hk] at this
      exact this.symm
    have hzero : (argv.tail.countP fun k => (U.peek env.now k).isSome) = 0 := by
      refine List.countP_eq_zero.2 fun k hk => ?_
      have := hnone k hk
      rw [live, Option.map_eq_none_iff] at this
      simp [this]
    have hcard : storedCount (fun k => (U.dict.find k).isSome) argv.tail = 0 := by
      have := (integer_append_inj (congrArg (· ++ []) hrep)).1
      rw [hzero] at this
      exact_mod_cast this
    have hmem' : k ∈ argv.tail.toFinset.filter fun k => (U.dict.find k).isSome := by
      simp [hmem, Option.isSome_iff_ne_none, hstored]
    rw [Finset.card_eq_zero.1 hcard] at hmem'
    exact absurd hmem' (Finset.notMem_empty k)
  · intro h
    refine ⟨?_, fun k => ?_⟩
    · have hzero : (argv.tail.countP fun k => (U.peek env.now k).isSome) = 0 := by
        refine List.countP_eq_zero.2 fun k hk => ?_
        have := hdead k (h k hk)
        rw [live, Option.map_eq_none_iff] at this
        simp [this]
      have hcard : storedCount (fun k => (U.dict.find k).isSome) argv.tail = 0 := by
        refine Finset.card_eq_zero.2 (Finset.filter_eq_empty_iff.2 fun k hk => ?_)
        simp [h k (List.mem_toFinset.1 hk)]
      rw [hzero, hcard]
    · split_ifs with hmem
      · exact (hdead k (h k hmem)).symm
      · rfl

theorem mset_agrees (hr : route argv = .ok ⟨ascii "mset", Cmd.mset, -3, true, 1, -1, 2⟩)
    (hodd : argv.length % 2 = 1)
    (hreqs : requests shardFor self argv = (pairs argv.tail).map fun p => (shardFor p.1, [ascii "SET", p.1, p.2]))
    (hkind : kindOf (lowercase (cmdName argv)) = .mset) (hU : Whole shardFor s U)
    (ho : MailboxOrder (requests shardFor self argv) order) : SplitAgrees g env shardFor self argv s U order := by
  have hmiss := fanOut_complete g env (s := s) ho.1
  unfold SplitAgrees
  rw [hkind, Answer.reply, if_pos hmiss, (execCore_ok env hr).1, (execCore_ok env hr).2]
  rw [hreqs] at ho ⊢
  simp only [Cmd.mset, hodd, ne_eq, not_true_eq_false, if_false]
  refine ⟨rfl, fun k => ?_⟩
  rw [fanOut_set, fanOut_set_all shardFor ho, hU.live]
  exact (set_fold env (pairs argv.tail) U k).symm

/-- A command that is split over several shards agrees with its own handler, unless it is an
`MGET` that meets a value of another type than string or a `TOUCH` that meets a stored key. -/
theorem split_agrees_iff {keys : List Bytes} (hp : plan shardFor self argv = .fanOut keys)
    (hodd : lowercase (cmdName argv) = ascii "mset" → argv.length % 2 = 1) (hU : Whole shardFor s U)
    (ho : MailboxOrder (requests shardFor self argv) order) :
    SplitAgrees g env shardFor self argv s U order ↔
      (lowercase (cmdName argv) = ascii "mget" →
        ∀ k ∈ keys, ∀ o, U.peek env.now k = some o → (o.string?).isSome) ∧
      (lowercase (cmdName argv) = ascii "touch" → ∀ k ∈ keys, U.dict.find k = none) := by
  obtain ⟨spec, hr, hkeys⟩ := plan_fanOut hp
  have hreqs := requests_fanOut hp
  have hname := fanOut_name shardFor self argv hp
  have hspec : ∀ name spec', lowercase (cmdName argv) = name → CommandTable.find name = some spec' → spec = spec' :=
    fun name spec' hn hf => route_spec hr ((find_mem (route_ok hr).1).2.trans hn) hf
  have htail : ∀ spec', spec = spec' → spec'.firstKey = 1 → spec'.lastKey = -1 → spec'.keyStep = 1 →
      keys = argv.tail := by
    rintro spec' rfl hf hl hs
    rw [hkeys, extractKeys_tail hf hl hs]
  have hmap : ∀ name, lowercase (cmdName argv) = name → ∀ w : Bytes,
      (∀ i key, subCommand (kindOf name) argv i key = [w, key]) →
        requests shardFor self argv = keys.map fun k => (shardFor k, [w, k]) := by
    rintro name rfl w h
    rw [hreqs]
    simp only [h]
    exact mapIdx_const (fun k => (shardFor k, [w, k])) keys
  simp only [decomposable, List.mem_cons, List.not_mem_nil, or_false] at hname
  rcases hname with hn | hn | hn | hn | hn | hn
  · have hs := hspec _ _ hn rfl
    have hk := htail _ hs rfl rfl rfl
    have hiff := mget_agrees_iff g env (hs ▸ hr) hk (hmap _ hn (ascii "GET") fun _ _ => rfl) (by rw [hn]; rfl) hU ho.1
    rw [hiff, hn]
    simp +decide
  · have hs := hspec _ _ hn rfl
    have hk : keys = (pairs argv.tail).map Prod.fst := by
      rw [hkeys]
      exact extractKeys_mset (by rw [hs]) (by rw [hs]) (by rw [hs]) (hodd hn)
    refine iff_of_true (mset_agrees g env (hs ▸ hr) (hodd hn) ?_ (by rw [hn]; rfl) hU ho) (by rw [hn]; simp +decide)
    rw [hreqs, hn, hk]
    exact requests_mset rfl
  · have hs := hspec _ _ hn rfl
    have hk := htail _ hs rfl rfl rfl
    exact iff_of_true (del_agrees g env hr (by rw [hs]) hk (hmap _ hn (ascii "DEL") fun _ _ => rfl)
      (by rw [hn]; rfl) hU ho.1) (by rw [hn]; simp +decide)
  · have hs := hspec _ _ hn rfl
    have hk := htail _ hs rfl rfl rfl
    exact iff_of_true (del_agrees g env hr (by rw [hs]; rfl) hk (hmap _ hn (ascii "DEL") fun _ _ => rfl)
      (by rw [hn]; rfl) hU ho.1) (by rw [hn]; simp +decide)
  · have hs := hspec _ _ hn rfl
    have hk := htail _ hs rfl rfl rfl
    exact iff_of_true (exists_agrees g env (hs ▸ hr) hk (hmap _ hn (ascii "EXISTS") fun _ _ => rfl)
      (by rw [hn]; rfl) hU ho.1) (by rw [hn]; simp +decide)
  · have hs := hspec _ _ hn rfl
    have hk := htail _ hs rfl rfl rfl
    have hiff := touch_agrees_iff g env (hs ▸ hr) hk (hmap _ hn (ascii "DEL") fun _ _ => rfl) (by rw [hn]; rfl) hU ho.1
    rw [hiff, hn]
    simp +decide

end Agree

/-- `EXISTS a b` over two empty shards. -/
theorem split_agrees_exists : SplitAgrees ⟨(), fun _ _ _ => (), fun _ _ _ => (), fun _ _ => (), fun _ _ _ _ => []⟩
    (.quiet 0) (fun k => if k = [97] then (0 : Fin 2) else 1) 0 [ascii "EXISTS", [97], [98]]
    (fun _ => (⟨⟨.empty, fun _ => none⟩, none⟩ : Node Unit)) .empty [0, 1] := by
  have hplan : plan (fun k => if k = [97] then (0 : Fin 2) else 1) 0 [ascii "EXISTS", [97], [98]] =
    .fanOut [[97], [98]] := rfl
  exact (split_agrees_iff _ (.quiet 0) hplan (by decide) (fun _ => ⟨rfl, rfl⟩) ⟨.refl _, fun _ => rfl⟩).2
    ⟨by decide, by decide⟩

/-- `TOUCH a b` over two shards takes `a` away. -/
theorem touch_splits_badly : ¬ ∀ (g : HnswGraph Unit) (env : Env) (shardFor : Bytes → Fin 2) (self : Fin 2)
    (argv : List Bytes) (s : Fin 2 → Node Unit) (U : Keyspace) (order : List ℕ) (keys : List Bytes),
    plan shardFor self argv = .fanOut keys → (lowercase (cmdName argv) = ascii "mset" → argv.length % 2 = 1) →
      Whole shardFor s U → MailboxOrder (requests shardFor self argv) order →
        SplitAgrees g env shardFor self argv s U order := by
  intro h
  have hagree := h ⟨(), fun _ _ _ => (), fun _ _ _ => (), fun _ _ => (), fun _ _ _ _ => []⟩ (.quiet 0)
    (fun k => if k = [97] then 0 else 1) 0 [ascii "TOUCH", [97], [98]]
    (fun _ => ⟨⟨.set .empty [97] (.string [120]), fun _ => none⟩, none⟩) (.set .empty [97] (.string [120])) [0, 1]
    [[97], [98]] rfl (by decide) (fun _ => ⟨rfl, rfl⟩) ⟨.refl _, fun _ => rfl⟩
  exact absurd (congrArg Option.isSome (hagree.2 [97])) (by decide +kernel)

end BlazeKV
