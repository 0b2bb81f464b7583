import BlazeKV.Proofs.CommandEffects
import BlazeKV.Spec.Serving

/-! The commands that are not marked as writes, served by any shards: nothing that is
live changes and no log grows. `TOUCH` over several shards is served by `DEL`. -/

namespace BlazeKV

open Keyspace

section Nodes

variable {γ : Type} (g : HnswGraph γ)

/-- What clients see of a node at a clock reading, its indexes and its log are as they were. -/
structure Node.Still (now : ℕ) (x x' : Node γ) : Prop where
  live : ∀ k, x'.store.db.live now k = x.store.db.live now k
  vectors : x'.store.vectors = x.store.vectors
  aof : x'.aof = x.aof

theorem Node.Still.refl (now : ℕ) (x : Node γ) : x.Still now x := ⟨fun _ => rfl, rfl, rfl⟩

theorem Node.Still.trans {now : ℕ} {x x' x'' : Node γ} (h : x.Still now x') (h' : x'.Still now x'') :
    x.Still now x'' :=
  ⟨fun k => (h'.live k).trans (h.live k), h'.vectors.trans h.vectors, h'.aof.trans h.aof⟩

/-- A command that reaches a handler which is not marked as a write, and no flush. -/
def isRead (argv : List Bytes) : Prop :=
  ∃ spec, route argv = .ok spec ∧ spec.write = false ∧ spec.name ≠ ascii "flushall" ∧ spec.name ≠ ascii "flushdb"

theorem isRead_exec {argv : List Bytes} (h : isRead argv) (env : Env) {now : ℕ} (hnow : env.now ≤ now) (x : Node γ) :
    x.Still now (x.exec g env argv).1 := by
  obtain ⟨spec, hr, hw, hall, hdb⟩ := h
  have hreads : Reads (· ∈ extractKeys spec argv) env.now x.store.db
      (spec.fn (env.withVectors g x.store.vectors) argv x.store.db) := by
    cases deeds spec (find_mem (route_ok hr).1).1 with
    | reads _ _ h => exact h (env.withVectors g x.store.vectors) argv x.store.db (route_ok hr).2
    | tame hw' _ _ => rw [hw] at hw'; cases hw'
    | shrinks hw' _ _ => rw [hw] at hw'; cases hw'
    | zadd h => rw [h] at hw; cases hw
    | flush hn _ _ => exact absurd hn (by simp [hall, hdb])
  have hv := vectors_tidy g env argv x.store hr (by rw [hw, Bool.and_false])
  unfold Node.exec
  rw [execStore_ok g env argv x.store hr]
  refine ⟨hreads.looked.live now hnow, ?_, ?_⟩
  · simpa [hreads.flush] using hv
  · simp [hreads.flush, hw]

/-- `DEL` of one key, as a shard executes it. -/
theorem exec_del (env : Env) (key : Bytes) (x : Node γ) : (x.exec g env [ascii "DEL", key]).1 =
    ⟨⟨x.store.db.erase key, x.store.vectors⟩, if (x.store.db.dict.find key).isSome then
      x.aof.map (·.append (encodeMultibulk [ascii "DEL", key])) else x.aof⟩ := by
  have hr : route [ascii "DEL", key] = .ok ⟨ascii "del", Cmd.del, -2, true, 1, -1, 1⟩ := rfl
  have hv : (Vectors.run g [ascii "DEL", key] x.store.vectors).vectors = x.store.vectors := rfl
  unfold Node.exec
  rw [execStore_ok g env _ x.store hr]
  dsimp only
  rw [hv]
  cases hs : (x.store.db.dict.find key).isSome <;>
    simp [Cmd.del, countLoop, Cmd.eraseRound, Result.markedIf, hs]

/-- A stored key whose removal shows: in what is live, or in the log. -/
def Node.exposes (now : ℕ) (x : Node γ) (key : Bytes) : Prop :=
  (x.store.db.dict.find key).isSome ∧ ((x.store.db.live now key).isSome ∨ x.aof.isSome)

variable {now : ℕ} {x : Node γ} {key k : Bytes}

theorem exec_del_still (h : ¬x.exposes now key) (env : Env) : x.Still now (x.exec g env [ascii "DEL", key]).1 := by
  rw [exec_del]
  cases hs : x.store.db.dict.find key with
  | none =>
    refine ⟨fun k => ?_, rfl, rfl⟩
    rw [live_erase]
    split_ifs with hk
    · rw [hk, live_of_none hs]
    · rfl
  | some o =>
    simp only [Node.exposes, hs, Option.isSome_some, true_and, not_or, Bool.not_eq_true, Option.isSome_eq_false_iff,
      Option.isNone_iff_eq_none] at h
    refine ⟨fun k => ?_, rfl, by simp [h.2]⟩
    rw [live_erase]
    split_ifs with hk
    · rw [hk, h.1]
    · rfl

/-- What `DEL` leaves stored was stored before. -/
theorem exec_del_exposes (h : ¬x.exposes now k) (env : Env) :
    ¬(x.exec g env [ascii "DEL", key]).1.exposes now k := by
  rw [exec_del]
  rintro ⟨hs, hl⟩
  refine h ⟨?_, ?_⟩
  · rw [find_dict_erase] at hs
    split_ifs at hs with hk
    · cases hs
    · exact hs
  · refine hl.imp (fun hl => ?_) fun ha => ?_
    · rw [live_erase] at hl
      split_ifs at hl with hk
      · cases hl
      · exact hl
    · dsimp only at ha
      split_ifs at ha
      · simpa using ha
      · exact ha

/-- The log of a node has at least `L` bytes, and more once the key is erased. -/
def Node.logs (L : ℕ) (key : Bytes) (x : Node γ) : Prop :=
  ∃ a ∈ x.aof, L < a.close.length ∨ L ≤ a.close.length ∧ (x.store.db.dict.find key).isSome

theorem Node.logs.del {L : ℕ} (h : x.logs L key) (env : Env) (k : Bytes) :
    (x.exec g env [ascii "DEL", k]).1.logs L key := by
  obtain ⟨a, ha, h⟩ := h
  have hrec : 0 < (encodeMultibulk [ascii "DEL", k]).length := by simp [encodeMultibulk]
  rw [exec_del]
  cases hs : (x.store.db.dict.find k).isSome with
  | true =>
    have hlt : L < (a.append (encodeMultibulk [ascii "DEL", k])).close.length := by
      rw [Aof.close_append, List.length_append]
      omega
    exact ⟨_, Option.mem_map_of_mem _ ha, .inl hlt⟩
  | false =>
    refine ⟨a, ha, h.imp_right fun h => ⟨h.1, ?_⟩⟩
    have hne : key ≠ k := by
      rintro rfl
      rw [hs] at h
      exact absurd h.2 (by simp)
    simpa [hne] using h.2

end Nodes

section Serving

variable {ι γ : Type} [DecidableEq ι] (g : HnswGraph γ) {s : ι → Node γ} {rs : List (Env × ι × List Bytes)} {now : ℕ}

theorem serve_cons (r : Env × ι × List Bytes) : serve g s (r :: rs) =
    serve g (Function.update s r.2.1 ((s r.2.1).exec g r.1 r.2.2).1) rs := rfl

/-- A step that a shard makes, for the others as well. -/
theorem still_update {j : ι} {x : Node γ} (h : (s j).Still now x) (i : ι) :
    (s i).Still now (Function.update s j x i) := by
  by_cases hi : i = j
  · subst hi
    rwa [Function.update_self]
  · rw [Function.update_of_ne hi]
    exact .refl now _

/-- The run lemma of reads. -/
theorem serve_reads (h : ∀ r ∈ rs, isRead r.2.2 ∧ r.1.now ≤ now) (i : ι) : (s i).Still now (serve g s rs i) := by
  induction rs generalizing s with
  | nil => exact .refl now _
  | cons r rs ih =>
    obtain ⟨⟨hread, hnow⟩, hrest⟩ := List.forall_mem_cons.1 h
    rw [serve_cons]
    exact (still_update (isRead_exec g hread r.1 hnow (s r.2.1)) i).trans (ih hrest)

/-- The run lemma of `DEL` over keys whose removal does not show. -/
theorem serve_hidden (h : ∀ r ∈ rs, ∃ key, r.2.2 = [ascii "DEL", key] ∧ ¬(s r.2.1).exposes now key) (i : ι) :
    (s i).Still now (serve g s rs i) := by
  induction rs generalizing s with
  | nil => exact .refl now _
  | cons r rs ih =>
    obtain ⟨⟨key, hr, hkey⟩, hrest⟩ := List.forall_mem_cons.1 h
    rw [serve_cons, hr]
    refine (still_update (exec_del_still g hkey r.1) i).trans (ih fun r' hr' => ?_)
    obtain ⟨k, hk, hx⟩ := hrest r' hr'
    refine ⟨k, hk, ?_⟩
    by_cases hj : r'.2.1 = r.2.1
    · rw [hj] at hx ⊢
      rw [Function.update_self]
      exact exec_del_exposes g hx r.1
    · rwa [Function.update_of_ne hj]

/-- A key that was stored at its shard is gone after a run of `DEL` that names it. -/
theorem serve_erased (hdel : ∀ r ∈ rs, ∃ key, r.2.2 = [ascii "DEL", key]) (i : ι) (key : Bytes) :
    ((serve g s rs i).store.db.dict.find key = none ∨ (i, [ascii "DEL", key]) ∉ rs.map Prod.snd) ∧
      ((s i).store.db.dict.find key = none → (serve g s rs i).store.db.dict.find key = none) := by
  induction rs generalizing s with
  | nil => exact ⟨.inr (by simp), id⟩
  | cons r rs ih =>
    obtain ⟨⟨k, hr⟩, hrest⟩ := List.forall_mem_cons.1 hdel
    obtain ⟨ih1, ih2⟩ := ih (s := Function.update s r.2.1 ((s r.2.1).exec g r.1 r.2.2).1) hrest
    have hstep : (s i).store.db.dict.find key = none ∨ r.2 = (i, [ascii "DEL", key]) →
        (Function.update s r.2.1 ((s r.2.1).exec g r.1 r.2.2).1 i).store.db.dict.find key = none := by
      intro h
      by_cases hi : i = r.2.1
      · subst hi
        rw [Function.update_self, hr, exec_del]
        dsimp only
        rw [find_dict_erase]
        rcases h with h | h
        · simp [h]
        · have := congrArg Prod.snd h
          simp only [hr, List.cons.injEq, true_and, and_true] at this
          simp [this]
      · rw [Function.update_of_ne hi]
        exact h.resolve_right fun h => hi (congrArg Prod.fst h).symm
    rw [serve_cons]
    refine ⟨?_, fun h => ih2 (hstep (.inl h))⟩
    by_cases hmem : r.2 = (i, [ascii "DEL", key])
    · exact .inl (ih2 (hstep (.inr hmem)))
    · refine ih1.imp_right fun h => ?_
      simp only [List.map_cons, List.mem_cons, not_or]
      exact ⟨fun h' => hmem h'.symm, h⟩

theorem serve_logs {L : ℕ} (hdel : ∀ r ∈ rs, ∃ key, r.2.2 = [ascii "DEL", key]) {i : ι} {key : Bytes}
    (h : (s i).logs L key) : (serve g s rs i).logs L key := by
  induction rs generalizing s with
  | nil => exact h
  | cons r rs ih =>
    obtain ⟨⟨k, hr⟩, hrest⟩ := List.forall_mem_cons.1 hdel
    rw [serve_cons]
    refine ih hrest ?_
    by_cases hi : i = r.2.1
    · subst hi
      rw [Function.update_self, hr]
      exact h.del g r.1 k
    · rwa [Function.update_of_ne hi]

/-- The removal of an exposed key shows. -/
theorem serve_exposed (hdel : ∀ r ∈ rs, ∃ key, r.2.2 = [ascii "DEL", key]) {i : ι} {key : Bytes}
    (hmem : (i, [ascii "DEL", key]) ∈ rs.map Prod.snd) (hx : (s i).exposes now key) :
    ¬(s i).Still now (serve g s rs i) := by
  have hgone := (serve_erased g (s := s) hdel i key).1.resolve_right (not_not.2 hmem)
  intro hstill
  rcases hx with ⟨hs, hl | ha⟩
  · have := hstill.live key
    rw [live_of_none hgone] at this
    rw [← this] at hl
    cases hl
  · obtain ⟨a, ha⟩ := Option.isSome_iff_exists.1 ha
    have hlogs : (s i).logs a.close.length key := ⟨a, ha, .inr ⟨le_refl _, hs⟩⟩
    obtain ⟨b, hb, h⟩ := serve_logs g hdel hlogs
    rw [hstill.aof, ha] at hb
    obtain rfl := Option.some.inj hb
    rcases h with h | h
    · exact absurd h (lt_irrefl _)
    · rw [hgone] at h
      cases h.2

variable (shardFor : Bytes → ι) (self : ι) (argv : List Bytes)

/-- `TOUCH` over several shards, with a key whose removal shows. -/
def touchDeletes (now : ℕ) (s : ι → Node γ) : Prop :=
  lowercase (cmdName argv) = ascii "touch" ∧ ∃ keys, plan shardFor self argv = .fanOut keys ∧
    ∃ key ∈ keys, (s (shardFor key)).exposes now key

/-- What is fanned out is one of six commands. -/
theorem fanOut_name {keys : List Bytes} (h : plan shardFor self argv = .fanOut keys) :
    lowercase (cmdName argv) ∈ decomposable := by
  unfold plan at h
  split at h
  · cases h
  · split at h
    · cases h
    · split_ifs at h with h1 h2 h3
      exact h3

variable {argv}

/-- The reads that are fanned out. -/
theorem fanOut_read (hread : isRead argv) {keys : List Bytes} (h : plan shardFor self argv = .fanOut keys) :
    lowercase (cmdName argv) = ascii "touch" ∨
      ∀ i key, isRead (subCommand (kindOf (lowercase (cmdName argv))) argv i key) := by
  have hwrites : ∀ n ∈ [ascii "mset", ascii "del", ascii "unlink"],
      (CommandTable.find n).map (·.write) = some true := by decide +kernel
  have hname := fanOut_name shardFor self argv h
  obtain ⟨spec, hr, hw, -⟩ := hread
  have hno : lowercase (cmdName argv) ∉ [ascii "mset", ascii "del", ascii "unlink"] := by
    intro hm
    have := hwrites _ hm
    rw [(route_ok hr).1, Option.map_some, hw] at this
    cases this
  simp only [decomposable, List.mem_cons, List.not_mem_nil, or_false, not_or] at hname hno
  have hget : ∀ key, isRead [ascii "GET", key] := fun key => ⟨_, rfl, rfl, by decide, by decide⟩
  have hexists : ∀ key, isRead [ascii "EXISTS", key] := fun key => ⟨_, rfl, rfl, by decide, by decide⟩
  rcases hname with hn | hn | hn | hn | hn | hn
  · exact .inr fun i key => by rw [hn]; exact hget key
  · exact absurd hn hno.1
  · exact absurd hn hno.2.1
  · exact absurd hn hno.2.2
  · exact .inr fun i key => by rw [hn]; exact hexists key
  · exact .inl hn

/-- A command that is not marked as a write and is no flush leaves what is live on every
shard, and every log, unless it is a `TOUCH` over several shards that meets a stored key:
one that is live, or one that a log would lose. -/
theorem read_leaves_all_iff (hread : isRead argv) (s : ι → Node γ) (rs : List (Env × ι × List Bytes))
    (hrs : (rs.map Prod.snd).Perm (requests shardFor self argv)) (now : ℕ) (hnow : ∀ r ∈ rs, r.1.now ≤ now) :
    (∀ i, (s i).Still now (serve g s rs i)) ↔ ¬touchDeletes shardFor self argv now s := by
  have hmem : ∀ r ∈ rs, r.2 ∈ requests shardFor self argv := fun r hr =>
    hrs.subset (List.mem_map_of_mem hr)
  have hone : ∀ j, requests shardFor self argv = [(j, argv)] → ∀ i, (s i).Still now (serve g s rs i) := by
    intro j hj
    refine serve_reads g fun r hr => ⟨?_, hnow r hr⟩
    have := hmem r hr
    rw [hj, List.mem_singleton] at this
    rwa [this]
  unfold requests at hmem hone hrs
  cases hp : plan shardFor self argv with
  | refuse e =>
    simp only [hp] at hmem
    refine iff_of_true (serve_reads g fun r hr => ?_) (by simp [touchDeletes, hp])
    exact absurd (hmem r hr) (by simp)
  | inline =>
    simp only [hp] at hone
    exact iff_of_true (hone self rfl) (by simp [touchDeletes, hp])
  | forward target =>
    simp only [hp] at hone
    exact iff_of_true (hone target rfl) (by simp [touchDeletes, hp])
  | fanOut keys =>
    simp only [hp] at hmem hrs
    have hsub : ∀ r ∈ rs, ∃ i, ∃ key ∈ keys,
        r.2 = (shardFor key, subCommand (kindOf (lowercase (cmdName argv))) argv i key) := by
      intro r hr
      obtain ⟨i, hi, he⟩ := List.mem_mapIdx.1 (hmem r hr)
      exact ⟨i, keys[i], List.getElem_mem hi, he.symm⟩
    rcases fanOut_read shardFor self hread hp with hn | hreads
    · have hkind : ∀ i key, subCommand (kindOf (lowercase (cmdName argv))) argv i key = [ascii "DEL", key] := by
        intro i key
        rw [hn]
        rfl
      simp only [hkind] at hsub hrs
      have hdel : ∀ r ∈ rs, ∃ key, r.2.2 = [ascii "DEL", key] := fun r hr => by
        obtain ⟨-, key, -, he⟩ := hsub r hr
        exact ⟨key, congrArg Prod.snd he⟩
      have htouch : touchDeletes shardFor self argv now s ↔ ∃ key ∈ keys, (s (shardFor key)).exposes now key := by
        simp [touchDeletes, hn, hp]
      rw [htouch]
      constructor
      · rintro hstill ⟨key, hk, hx⟩
        refine serve_exposed g hdel (hrs.symm.subset ?_) hx (hstill _)
        obtain ⟨i, hi, rfl⟩ := List.mem_iff_getElem.1 hk
        exact List.mem_mapIdx.2 ⟨i, hi, rfl⟩
      · intro hno
        refine serve_hidden g fun r hr => ?_
        obtain ⟨-, key, hk, he⟩ := hsub r hr
        refine ⟨key, congrArg Prod.snd he, fun hx => hno ⟨key, hk, ?_⟩⟩
        rwa [congrArg Prod.fst he] at hx
    · refine iff_of_true (serve_reads g fun r hr => ⟨?_, hnow r hr⟩) ?_
      · obtain ⟨i, key, -, he⟩ := hsub r hr
        rw [he]
        exact hreads i key
      · rintro ⟨hn, -⟩
        have hread' := hreads 0 []
        rw [hn] at hread'
        obtain ⟨spec, hr, hw, -⟩ := hread'
        have hname : spec.name = ascii "del" := (find_mem (route_ok hr).1).2
        rw [route_spec hr hname rfl] at hw
        cases hw

end Serving

/-- `TOUCH a b` over two empty shards. -/
theorem read_leaves_all_touch : Node.Still 0 (⟨⟨.empty, fun _ => none⟩, none⟩ : Node Unit)
    (serve ⟨(), fun _ _ _ => (), fun _ _ _ => (), fun _ _ => (), fun _ _ _ _ => []⟩
      (fun _ => ⟨⟨.empty, fun _ => none⟩, none⟩)
      [(.quiet 0, (0 : Fin 2), [ascii "DEL", [97]]), (.quiet 0, 1, [ascii "DEL", [98]])] 0) := by
  have hread : isRead [ascii "TOUCH", [97], [98]] := ⟨_, rfl, rfl, by decide, by decide⟩
  refine (read_leaves_all_iff _ (fun k => if k = [97] then 0 else 1) 0 hread (fun _ => ⟨⟨.empty, fun _ => none⟩, none⟩)
    [(.quiet 0, (0 : Fin 2), [ascii "DEL", [97]]), (.quiet 0, 1, [ascii "DEL", [98]])]
    (.of_eq (by decide +kernel)) 0 (by simp [Env.quiet])).2 ?_ 0
  rintro ⟨-, keys, -, key, -, hs, -⟩
  simp at hs

/-- `TOUCH a b` over two shards deletes `a`. -/
theorem touch_deletes : ¬ ∀ (g : HnswGraph Unit) (shardFor : Bytes → Fin 2) (self : Fin 2) (argv : List Bytes),
    isRead argv → ∀ (s : Fin 2 → Node Unit) (rs : List (Env × Fin 2 × List Bytes)),
      (rs.map Prod.snd).Perm (requests shardFor self argv) → ∀ now, (∀ r ∈ rs, r.1.now ≤ now) →
        ∀ i, (s i).Still now (serve g s rs i) := by
  intro h
  have hstill := h ⟨(), fun _ _ _ => (), fun _ _ _ => (), fun _ _ => (), fun _ _ _ _ => []⟩
    (fun k => if k = [97] then 0 else 1) 0 [ascii "TOUCH", [97], [98]] ⟨_, rfl, rfl, by decide, by decide⟩
    (fun _ => ⟨⟨.set .empty [97] (.string [120]), fun _ => none⟩, none⟩)
    [(.quiet 0, 0, [ascii "DEL", [97]]), (.quiet 0, 1, [ascii "DEL", [98]])] (.of_eq (by decide +kernel)) 0
    (by simp [Env.quiet]) 0
  exact absurd (congrArg Option.isSome (hstill.live [97])) (by decide +kernel)

end BlazeKV
