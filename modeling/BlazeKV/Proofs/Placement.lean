import BlazeKV.Proofs.AofReplay
import BlazeKV.Proofs.FanOut
import BlazeKV.Proofs.SnapshotTrip
import BlazeKV.Spec.Recovery

/-! The keys of a shard are those that `shard_for` sends there. A command touches the keys
that `extract_keys` returns, a shard executes what it owns, and what a shard has written
to its files brings back no other key. -/

namespace BlazeKV

open Keyspace

section Records

theorem bulks_append_inj {c d : List Bytes} (hlen : c.length = d.length) {x y : Bytes}
    (h : c.flatMap Reply.bulk ++ x = d.flatMap Reply.bulk ++ y) : c = d ∧ x = y := by
  induction c generalizing d with
  | nil =>
    obtain rfl := List.length_eq_zero_iff.1 hlen.symm
    exact ⟨rfl, h⟩
  | cons a c ih =>
    cases d with
    | nil => cases hlen
    | cons b d =>
      rw [List.flatMap_cons, List.flatMap_cons, List.append_assoc, List.append_assoc] at h
      obtain ⟨rfl, hrest⟩ := bulk_append_inj h
      obtain ⟨rfl, hxy⟩ := ih (Nat.succ.inj hlen) hrest
      exact ⟨rfl, hxy⟩

theorem encode_append_inj {c d : List Bytes} {x y : Bytes} (h : encodeMultibulk c ++ x = encodeMultibulk d ++ y) :
    c = d ∧ x = y := by
  have hsplit : ∀ (c : List Bytes) (x : Bytes), encodeMultibulk c ++ x =
      Reply.arrayHeader c.length ++ (c.flatMap Reply.bulk ++ x) := fun c x => by
    simp [RequestParser.encode_eq, Reply.arrayHeader]
  rw [hsplit, hsplit] at h
  obtain ⟨hn, hrest⟩ := arrayHeader_append_inj h
  exact bulks_append_inj (by exact_mod_cast hn) hrest

/-- Whole records at the front of a log are its first records. -/
theorem prefix_of_logOf {cs ds : List (List Bytes)} (h : logOf cs <+: logOf ds) : cs <+: ds := by
  obtain ⟨rest, h⟩ := h
  induction cs generalizing ds with
  | nil => exact List.nil_prefix
  | cons c cs ih =>
    cases ds with
    | nil =>
      have := length_le_logOf (c :: cs)
      rw [List.append_eq_nil_iff.1 h |>.1] at this
      simp at this
    | cons d ds =>
      have hsplit : encodeMultibulk c ++ (logOf cs ++ rest) = encodeMultibulk d ++ logOf ds := by
        simpa [logOf] using h
      obtain ⟨rfl, hrest⟩ := encode_append_inj hsplit
      exact List.cons_prefix_cons.2 ⟨rfl, ih hrest⟩

end Records

section Keys

variable {γ : Type} (g : HnswGraph γ) (env : Env) (argv : List Bytes) (st : Store γ) {spec : CommandSpec} {home : Bytes → Prop}

/-- A vector command leaves the indexes of the other keys. -/
theorem Vectors.run_only (hr : route argv = .ok spec) (vs : Vectors γ) {k : Bytes} (hk : k ∉ extractKeys spec argv) :
    (Vectors.run g argv vs).vectors k = vs k := by
  obtain ⟨hf, har⟩ := route_ok hr
  unfold Vectors.run
  dsimp only
  split_ifs with h1 h2 h3 h4
  · rw [h1] at hf
    obtain rfl := Option.some.inj hf
    have hne : k ≠ arg argv 1 := fun e =>
      hk (e ▸ arg_one_mem rfl rfl rfl (le_trans (by decide) (arity_le har)))
    unfold Vectors.vadd
    split
    · rfl
    · dsimp only
      split
      · exact Function.update_of_ne hne _ _
      · split
        · rfl
        · exact Function.update_of_ne hne _ _
  · rw [vsim_vectors]
  · rfl
  · rw [h4] at hf
    obtain rfl := Option.some.inj hf
    have hne : k ≠ arg argv 1 := fun e =>
      hk (e ▸ arg_one_mem rfl rfl rfl (le_trans (by decide) (arity_le har)))
    unfold Vectors.vrem
    split
    · rfl
    · exact Function.update_of_ne hne _ _
  · rfl

/-- A command that is no flush changes nothing outside of its keys. -/
theorem execStore_only (hr : route argv = .ok spec) (hfl : ¬flushes argv) :
    Only (· ∈ extractKeys spec argv) st.db (execStore g env argv st).1.db ∧
      ∀ k, k ∉ extractKeys spec argv → (execStore g env argv st).1.vectors k = st.vectors k := by
  obtain ⟨hf, har⟩ := route_ok hr
  have hkeep : ∀ r : Result, Only (· ∈ extractKeys spec argv) st.db r.db → r.flush = false →
      spec.fn (env.withVectors g st.vectors) argv st.db = r →
        Only (· ∈ extractKeys spec argv) st.db (execStore g env argv st).1.db ∧
          ∀ k, k ∉ extractKeys spec argv → (execStore g env argv st).1.vectors k = st.vectors k := by
    rintro r honly hflush rfl
    rw [execStore_ok g env argv st hr]
    dsimp only
    rw [hflush]
    exact ⟨honly, fun k hk => Vectors.run_only g argv hr st.vectors hk⟩
  cases deeds spec (find_mem hf).1 with
  | reads hw hn h =>
    have := h (env.withVectors g st.vectors) argv st.db har
    exact hkeep _ this.looked.only this.flush rfl
  | tame hw hn h =>
    have := h (env.withVectors g st.vectors) argv st.db har
    exact hkeep _ this.only this.flush rfl
  | shrinks hw hn h =>
    have := h (env.withVectors g st.vectors) argv st.db har
    exact hkeep _ this.only this.flush rfl
  | zadd h =>
    subst h
    exact hkeep _ (Cmd.zadd_only _ argv st.db (arg_one_mem rfl rfl rfl (le_trans (by decide) (arity_le har))))
      (Cmd.zadd_flush _ argv st.db) rfl
  | flush hn hw h => exact absurd ⟨spec, hr, hn⟩ hfl

/-- A flush leaves nothing. -/
theorem execStore_flush (hr : route argv = .ok spec) (hfl : flushes argv) :
    (execStore g env argv st).1 = ⟨st.db.clear, fun _ => none⟩ := by
  obtain ⟨spec', hr', hn⟩ := hfl
  rw [hr] at hr'
  obtain rfl := Except.ok.inj hr'
  have hfn : spec.fn = Cmd.flushall := by
    rcases hn with hn | hn
    · exact congrArg CommandSpec.fn (route_spec hr hn rfl)
    · exact congrArg CommandSpec.fn (route_spec hr hn rfl)
  rw [execStore_ok g env argv st hr, hfn]
  rfl

/-- The keys that a command touches belong here. -/
def Keyed (home : Bytes → Prop) (argv : List Bytes) : Prop :=
  ∀ spec, route argv = .ok spec → ∀ k ∈ extractKeys spec argv, home k

/-- So do the keys that a store holds. -/
structure AtHome (home : Bytes → Prop) (st : Store γ) : Prop where
  dict : ∀ k, (st.db.dict.find k).isSome → home k
  expires : ∀ k, (st.db.expires.find k).isSome → home k
  vectors : ∀ k, (st.vectors k).isSome → home k

theorem atHome_clear : AtHome home (⟨st.db.clear, fun _ => none⟩ : Store γ) :=
  ⟨fun k h => by simp [Keyspace.clear] at h, fun k h => by simp [Keyspace.clear] at h, fun k h => by cases h⟩

theorem AtHome.exec (h : AtHome home st) (hk : Keyed home argv) : AtHome home (execStore g env argv st).1 := by
  cases hr : route argv with
  | error e => rwa [execStore_error g env argv st hr]
  | ok spec =>
    by_cases hfl : flushes argv
    · rw [execStore_flush g env argv st hr hfl]
      exact atHome_clear st
    · obtain ⟨honly, hvec⟩ := execStore_only g env argv st hr hfl
      refine ⟨fun k hs => ?_, fun k hs => ?_, fun k hs => ?_⟩ <;> by_contra hno <;>
        have hout : k ∉ extractKeys spec argv := fun hmem => hno (hk spec hr k hmem)
      · exact hno (h.dict k ((honly k hout).1 ▸ hs))
      · exact hno (h.expires k ((honly k hout).2 ▸ hs))
      · exact hno (h.vectors k (hvec k hout ▸ hs))

/-- What a shard records is no flush. -/
theorem Loggable.noFlush (h : Loggable argv) : ¬flushes argv := by
  rintro ⟨spec, hr, hn⟩
  obtain ⟨spec', hr', hw⟩ := h
  rw [hr] at hr'
  obtain rfl := Except.ok.inj hr'
  rcases hn with hn | hn <;> rw [route_spec hr hn rfl] at hw <;> cases hw

/-- The run lemma of a replay: the log changes only the keys that it names. -/
theorem replay_only {file : Bytes} {cs : List (List Bytes)} (hfile : file = logOf cs)
    (hcs : ∀ c ∈ cs, Loggable c ∧ Keyed home c) (hsize : file.length < 2 ^ 62) (clock : ℕ → Env) :
    Only home st.db (replay (Host.execReplay g clock) file (0, st)).2.db ∧
      ∀ k, ¬home k → (replay (Host.execReplay g clock) file (0, st)).2.vectors k = st.vectors k := by
  have hmem := mem_of_replayed (fun c hc => (hcs c hc).1.ne_nil) (hfile ▸ hsize)
  rw [replay_eq_foldl, hfile]
  generalize replayed (logOf cs) = ds at hmem
  generalize 0 = n
  induction ds generalizing n st with
  | nil => exact ⟨.refl _, fun _ _ => rfl⟩
  | cons d ds ih =>
    obtain ⟨hl, hk⟩ := hcs d (hmem d List.mem_cons_self)
    obtain ⟨spec, hr, -⟩ := id hl
    obtain ⟨honly, hvec⟩ := execStore_only g (clock n) d st hr hl.noFlush
    obtain ⟨honly', hvec'⟩ := ih (execStore g (clock n) d st).1 (fun c hc => hmem c (List.mem_cons_of_mem _ hc)) (n + 1)
    have hout : ∀ k, ¬home k → k ∉ extractKeys spec d := fun k hno hmem => hno (hk spec hr k hmem)
    exact ⟨fun k hno => ⟨(honly' k hno).1.trans (honly k (hout k hno)).1, (honly' k hno).2.trans (honly k (hout k hno)).2⟩,
      fun k hno => (hvec' k hno).trans (hvec k (hout k hno))⟩

theorem AtHome.replay {file : Bytes} {cs : List (List Bytes)} (h : AtHome home st) (hfile : file = logOf cs)
    (hcs : ∀ c ∈ cs, Loggable c ∧ Keyed home c) (hsize : file.length < 2 ^ 62) (clock : ℕ → Env) :
    AtHome home (replay (Host.execReplay g clock) file (0, st)).2 := by
  obtain ⟨honly, hvec⟩ := replay_only g st hfile hcs hsize clock
  refine ⟨fun k hs => ?_, fun k hs => ?_, fun k hs => ?_⟩ <;> by_contra hno
  · exact hno (h.dict k ((honly k hno).1 ▸ hs))
  · exact hno (h.expires k ((honly k hno).2 ▸ hs))
  · exact hno (h.vectors k (hvec k hno ▸ hs))

end Keys

section Requests

variable {ι : Type} [DecidableEq ι] (shardFor : Bytes → ι) (self : ι) (argv : List Bytes)

theorem subCommand_keys (kind : Kind) (i : ℕ) (key : Bytes) {spec : CommandSpec}
    (hr : route (subCommand kind argv i key) = .ok spec) : extractKeys spec (subCommand kind argv i key) = [key] := by
  cases kind <;> obtain rfl := Except.ok.inj hr
  case mget | mset => rfl
  all_goals exact extractKeys_tail rfl rfl rfl

/-- A shard owns the keys of the requests that it gets. -/
theorem requests_keyed : ∀ r ∈ requests shardFor self argv, Keyed (fun k => shardFor k = r.1) r.2 := by
  intro r hmem spec hr k hk
  have hone : ∀ {key : Bytes} {keys : List Bytes}, (keys.all fun k => shardFor k = shardFor key) = true →
      ∀ k ∈ key :: keys, shardFor k = shardFor key := by
    intro key keys hall k hk
    rcases List.mem_cons.1 hk with rfl | hk
    · rfl
    · simpa using List.all_eq_true.1 hall k hk
  unfold requests at hmem
  cases hp : plan shardFor self argv with
  | refuse e => simp [hp] at hmem
  | inline =>
    rw [hp, List.mem_singleton] at hmem
    subst hmem
    unfold plan at hp
    rw [hr] at hp
    dsimp only at hp
    split at hp
    · next hnil =>
      rw [hnil] at hk
      cases hk
    · next key keys hcons =>
      split_ifs at hp with hall hself
      rw [hcons] at hk
      exact (hone hall k hk).trans hself
  | forward target =>
    rw [hp, List.mem_singleton] at hmem
    subst hmem
    unfold plan at hp
    rw [hr] at hp
    dsimp only at hp
    split at hp
    · cases hp
    · next key keys hcons =>
      split_ifs at hp with hall hself
      obtain rfl := Plan.forward.inj hp
      rw [hcons] at hk
      exact hone hall k hk
  | fanOut keys =>
    rw [hp] at hmem
    obtain ⟨i, hi, rfl⟩ := List.mem_mapIdx.1 hmem
    rw [subCommand_keys argv _ i _ hr, List.mem_singleton] at hk
    rw [hk]

end Requests

section Hosts

variable {γ : Type} (g : HnswGraph γ) {home : Bytes → Prop} {h : Host γ}

/-- A log of whole records whose keys belong here. -/
def Recorded (home : Bytes → Prop) (data : Bytes) : Prop :=
  ∃ cs, data = logOf cs ∧ ∀ c ∈ cs, Loggable c ∧ Keyed home c

theorem recorded_nil : Recorded home [] := ⟨[], rfl, by simp⟩

theorem Recorded.append {data : Bytes} {c : List Bytes} (hd : Recorded home data) (hl : Loggable c) (hk : Keyed home c) :
    Recorded home (data ++ encodeMultibulk c) := by
  obtain ⟨cs, rfl, hcs⟩ := hd
  refine ⟨cs ++ [c], by simp [logOf], fun d hd => ?_⟩
  rcases List.mem_append.1 hd with hd | hd
  · exact hcs d hd
  · obtain rfl := List.mem_singleton.1 hd
    exact ⟨hl, hk⟩

/-- A front of such a log that ends with a record is one. -/
theorem Recorded.take {data : Bytes} {n : ℕ} {ds : List (List Bytes)} (hd : Recorded home data) (hw : data.take n = logOf ds) :
    ∀ d ∈ ds, Loggable d ∧ Keyed home d := by
  obtain ⟨cs, rfl, hcs⟩ := hd
  have hpre : ds <+: cs := prefix_of_logOf (hw ▸ List.take_prefix n (logOf cs))
  exact fun d hd => hcs d (hpre.subset hd)

@[simp] theorem Aof.close_flush (a : Aof) : a.flush.close = a.close := by simp [Aof.close, Aof.flush]

/-- What a shard and its files hold. -/
structure Host.Settled (home : Bytes → Prop) (h : Host γ) : Prop where
  store : AtHome home h.node.store
  log : ∀ a ∈ h.node.aof, Recorded home a.close
  snapshot : ∀ data ∈ h.snapshot, ∃ db, data = Snapshot.save db ∧ Snapshot.Fitting db ∧
    ∀ k, (db.dict.find k).isSome → home k

theorem record_spec {env : Env} {argv : List Bytes} {st : Store γ} {b : Bytes}
    (hb : (execStore g env argv st).2.record = some b) : b = encodeMultibulk argv ∧ Loggable argv := by
  cases hr : route argv with
  | error e => simp [execStore_error g env argv st hr] at hb
  | ok spec =>
    rw [execStore_ok g env argv st hr] at hb
    dsimp only at hb
    split_ifs at hb with hw
    exact ⟨(Option.some.inj hb).symm, spec, hr, (Bool.and_eq_true _ _ ▸ hw).2⟩

/-- A command appends its record, if it makes one, to the log or to an empty log. -/
theorem Recorded.exec {env : Env} {argv : List Bytes} (hh : ∀ a ∈ h.node.aof, Recorded home a.close)
    (hk : (execStore g env argv h.node.store).2.record.isSome → Keyed home argv) :
    ∀ a ∈ (h.exec g env argv).node.aof, Recorded home a.close := by
  intro a ha
  simp only [Host.exec, Node.exec] at ha
  have hbase : ∀ a ∈ (if (execStore g env argv h.node.store).2.flush then
      h.node.aof.map fun a => Aof.openFile a.policy [] else h.node.aof), Recorded home a.close := by
    intro a ha
    split_ifs at ha
    · obtain ⟨a', -, rfl⟩ := Option.map_eq_some_iff.1 ha
      rw [Aof.close_openFile]
      exact recorded_nil
    · exact hh a ha
  split at ha
  · exact hbase a ha
  · next b hb =>
    obtain ⟨a', ha', rfl⟩ := Option.map_eq_some_iff.1 ha
    obtain ⟨rfl, hl⟩ := record_spec g hb
    rw [Aof.close_append]
    exact (hbase a' ha').append hl (hk (by rw [hb]; rfl))

theorem Recorded.flush : ∀ a ∈ h.flush.node.aof, Recorded home a.close := by
  intro a ha
  obtain ⟨a', -, rfl⟩ := Option.map_eq_some_iff.1 ha
  rw [Aof.close_openFile]
  exact recorded_nil

/-- Active expiry records the keys that it erases. -/
theorem Recorded.cron {now : ℕ} {synced : Bool} (hh : ∀ a ∈ h.node.aof, Recorded home a.close)
    (hk : ∀ k ∈ (h.node.store.db.activeExpireCycle now 20).2, home k) :
    ∀ a ∈ (h.cron now synced).node.aof, Recorded home a.close := by
  have hkeys : ∀ ks : List Bytes, (∀ k ∈ ks, home k) → ∀ a : Aof, Recorded home a.close →
      Recorded home (ks.foldl (fun a k => a.append (encodeMultibulk [ascii "DEL", k])) a).close := by
    intro ks
    induction ks with
    | nil => exact fun _ a ha => ha
    | cons k ks ih =>
      intro hks a ha
      refine ih (fun k hk => hks k (List.mem_cons_of_mem _ hk)) _ ?_
      rw [Aof.close_append]
      refine ha.append ⟨_, rfl, rfl⟩ fun spec hr k' hk' => ?_
      have hone : extractKeys spec [ascii "DEL", k] = [k] := subCommand_keys [] .delCount 0 k hr
      rw [hone, List.mem_singleton] at hk'
      exact hk' ▸ hks k List.mem_cons_self
  intro a ha
  simp only [Host.cron, Option.map_map] at ha
  obtain ⟨a', ha', rfl⟩ := Option.map_eq_some_iff.1 ha
  have := hkeys _ hk a' (hh a' ha')
  simp only [Function.comp_apply]
  split_ifs
  · rwa [Aof.close_flush]
  · exact this

theorem Host.Settled.exec (hh : h.Settled home) (env : Env) {argv : List Bytes} (hk : Keyed home argv) :
    (h.exec g env argv).Settled home :=
  ⟨hh.store.exec g env argv _ hk, Recorded.exec g hh.log fun _ => hk, hh.snapshot⟩

theorem Host.Settled.flush (hh : h.Settled home) : h.flush.Settled home :=
  ⟨atHome_clear h.node.store, Recorded.flush, hh.snapshot⟩

theorem Host.Settled.save (hh : h.Settled home) (hf : Snapshot.Fitting h.node.store.db) : h.save.Settled home := by
  refine ⟨hh.store, hh.log, fun data hd => ?_⟩
  obtain rfl := Option.some.inj hd
  exact ⟨_, rfl, hf, hh.store.dict⟩

theorem AtHome.erase {st : Store γ} (hs : AtHome home st) (key : Bytes) (n : ℕ) :
    AtHome home { st with db := { st.db.erase key with expired := n } } := by
  refine ⟨fun k hk => ?_, fun k hk => ?_, hs.vectors⟩
  · have hk' : ((st.db.erase key).dict.find k).isSome := hk
    rw [find_dict_erase] at hk'
    split_ifs at hk'
    · cases hk'
    · exact hs.dict k hk'
  · have hk' : ((st.db.erase key).expires.find k).isSome := hk
    rw [find_expires_erase] at hk'
    split_ifs at hk'
    · cases hk'
    · exact hs.expires k hk'

theorem Host.Settled.cron (hh : h.Settled home) (now : ℕ) (synced : Bool) : (h.cron now synced).Settled home := by
  have hdead : ∀ k ∈ (h.node.store.db.activeExpireCycle now 20).2, home k := by
    intro k hk
    unfold activeExpireCycle at hk
    split_ifs at hk
    · cases hk
    · obtain ⟨e, he, rfl⟩ := List.mem_map.1 hk
      have := List.mem_of_mem_take (List.mem_of_mem_filter he)
      exact hh.store.expires _ (by rw [(Dict.mem_forEach _ _ _).1 this]; rfl)
  refine ⟨?_, Recorded.cron hh.log hdead, hh.snapshot⟩
  have hfold : ∀ (ks : List Bytes) (st : Store γ), AtHome home st → AtHome home { st with
      db := ks.foldl (fun db k => { db.erase k with expired := db.expired + 1 }) st.db } := by
    intro ks
    induction ks with
    | nil => exact fun st hs => hs
    | cons k ks ih => exact fun st hs => ih _ (hs.erase k _)
  show AtHome home { h.node.store with db := (h.node.store.db.activeExpireCycle now 20).1 }
  unfold activeExpireCycle
  split_ifs
  · exact hh.store
  · exact hfold _ _ hh.store

/-- The part of the log that a start finds ends with a record. -/
def Host.Whole (h : Host γ) (kept : ℕ) : Prop := ∀ data ∈ h.file kept, data.length < 2 ^ 62 ∧ ∃ cs, data = logOf cs

/-- A load brings back no key that was not saved. -/
theorem loaded_atHome {now : ℕ} {levels : Bytes → Levels} {db db' : Keyspace} (hf : Snapshot.Fitting db)
    (hkeys : ∀ k, (db.dict.find k).isSome → home k)
    (hl : Snapshot.load now levels (Snapshot.save db) .empty = some db') :
    AtHome home (⟨db', fun _ => none⟩ : Store γ) := by
  rw [Snapshot.load_save now levels hf] at hl
  obtain rfl := Option.some.inj hl
  have hnone : ∀ k, ¬home k → _ ∧ _ := fun k hno => Prod.mk.inj ((Snapshot.loaded_find now levels db k).trans (by
    cases hk : db.dict.find k with
    | none => rfl
    | some o => exact absurd (hkeys k (by rw [hk]; rfl)) hno : _ = ((none, none) : Option Object × Option ℕ)))
  refine ⟨fun k hk => ?_, fun k hk => ?_, fun k hk => by cases hk⟩ <;> by_contra hno
  · rw [(hnone k hno).1] at hk
    cases hk
  · rw [(hnone k hno).2] at hk
    cases hk

theorem Host.Settled.restart (hh : h.Settled home) {now : ℕ} {levels : Bytes → Levels} {clock : ℕ → Env} {kept : ℕ}
    (hw : h.Whole kept) {h' : Host γ} (hr : h.restart g now levels clock kept = some h') : h'.Settled home := by
  obtain ⟨st, hload, rfl⟩ := Option.map_eq_some_iff.1 hr
  obtain ⟨db, hsnap, rfl⟩ := Option.map_eq_some_iff.1 hload
  have hdb : AtHome home (⟨db, fun _ => none⟩ : Store γ) := by
    cases hs : h.snapshot with
    | none =>
      rw [hs] at hsnap
      obtain rfl := Option.some.inj hsnap
      exact ⟨fun k hk => by simp [Keyspace.empty] at hk, fun k hk => by simp [Keyspace.empty] at hk, fun k hk => by cases hk⟩
    | some data =>
      obtain ⟨db0, rfl, hf, hkeys⟩ := hh.snapshot data hs
      rw [hs] at hsnap
      exact loaded_atHome hf hkeys hsnap
  cases ha : h.node.aof with
  | none =>
    refine ⟨?_, fun a ha' => ?_, hh.snapshot⟩
    · simpa [Host.file, ha] using hdb
    · cases ha'
  | some a =>
    have hfile : h.file kept = some (a.close.take kept) := by simp [Host.file, ha]
    obtain ⟨hsize, cs, hcs⟩ := hw _ hfile
    have hrec := (hh.log a ha).take hcs
    refine ⟨?_, fun a' ha' => ?_, hh.snapshot⟩
    · rw [hfile]
      exact hdb.replay g _ hcs hrec hsize clock
    · simp only [Option.map_some, Option.mem_some_iff] at ha'
      obtain rfl := ha'
      rw [Aof.close_openFile]
      exact ⟨cs, hcs, hrec⟩

end Hosts

section Lifetimes

variable {ι γ : Type} [DecidableEq ι] [Fintype ι] (g : HnswGraph γ) (shardFor : Bytes → ι)

/-- What a happening can do to one shard. -/
inductive Happened (e : Happening ι) (j : ι) (h h' : Host γ) : Prop
  | same (hh : h' = h)
  | exec (env : Env) (self : ι) (argv : List Bytes) (i : ℕ) (args : List Bytes) (he : e = .request env self argv i)
      (hreq : (requests shardFor self argv)[i]? = some (j, args)) (hh : h' = h.exec g env args)
  | flush (he : e = .flush j) (hh : h' = h.flush)
  | cron (now : ℕ) (synced : Bool) (he : e = .cron j now synced) (hh : h' = h.cron now synced)
  | save (he : e = .save j) (hh : h' = h.save)
  | restart (now : ℕ) (levels : Bytes → Levels) (clock : ι → ℕ → Env) (kept : ι → ℕ)
      (he : e = .restart now levels clock kept) (hh : h.restart g now levels (clock j) (kept j) = some h')

theorem happened {x x' : ι → Host γ} {e : Happening ι} (hx : x' ∈ (happen g shardFor (some x) e).1) (j : ι) :
    Happened g shardFor e j (x j) (x' j) := by
  -- A happening of shard `i` that leaves the others.
  have hone : ∀ (i : ι) (y : Host γ), (i = j → Happened g shardFor e j (x j) y) →
      Happened g shardFor e j (x j) (Function.update x i y j) := by
    intro i y hy
    by_cases hj : i = j
    · subst hj
      rw [Function.update_self]
      exact hy rfl
    · rw [Function.update_of_ne (Ne.symm hj)]
      exact .same rfl
  cases e with
  | request env self argv i =>
    simp only [happen, Option.bind_some] at hx
    cases hreq : (requests shardFor self argv)[i]? with
    | none =>
      rw [hreq] at hx
      obtain rfl := Option.some.inj hx
      exact .same rfl
    | some r =>
      rw [hreq] at hx
      obtain rfl := Option.some.inj hx
      refine hone r.1 _ fun hj => ?_
      subst hj
      exact .exec env self argv i r.2 rfl hreq rfl
  | flush i =>
    obtain rfl := Option.some.inj hx
    exact hone i _ fun hj => .flush (hj ▸ rfl) (hj ▸ rfl)
  | cron i now synced =>
    obtain rfl := Option.some.inj hx
    exact hone i _ fun hj => .cron now synced (hj ▸ rfl) (hj ▸ rfl)
  | save i =>
    obtain rfl := Option.some.inj hx
    exact hone i _ fun hj => .save (hj ▸ rfl) (hj ▸ rfl)
  | restart now levels clock kept =>
    have hx : x' ∈ restartAll g x now levels clock kept := hx
    unfold restartAll at hx
    split_ifs at hx with hall
    · obtain rfl := Option.some.inj hx
      exact .restart now levels clock kept rfl (Option.some_get (hall j)).symm
    · cases hx

/-- What keeps the keys of all shards in their places: a save finds a keyspace that its
snapshot tells in full, and a start finds whole records at the end of the logs. -/
def Sound (s : Option (ι → Host γ)) : Happening ι → Prop
  | .save j => ∀ x ∈ s, Snapshot.Fitting (x j).node.store.db
  | .restart _ _ _ kept => ∀ x ∈ s, ∀ j, (x j).Whole (kept j)
  | _ => True

/-- The step lemma. -/
theorem settled_happen {s : Option (ι → Host γ)} {e : Happening ι} (hok : Sound s e)
    (hs : ∀ x ∈ s, ∀ j, (x j).Settled fun k => shardFor k = j) :
    ∀ x ∈ (happen g shardFor s e).1, ∀ j, (x j).Settled fun k => shardFor k = j := by
  intro x' hx' j
  obtain ⟨x, hx, -⟩ := Option.bind_eq_some_iff.1 hx'
  subst hx
  have hset := hs x rfl j
  cases happened g shardFor hx' j with
  | same hh => rwa [hh]
  | exec env self argv i args he hreq hh =>
    rw [hh]
    exact hset.exec g env (requests_keyed shardFor self argv (j, args) (List.mem_of_getElem? hreq))
  | flush he hh =>
    rw [hh]
    exact hset.flush
  | cron now synced he hh =>
    rw [hh]
    exact hset.cron now synced
  | save he hh =>
    subst he
    rw [hh]
    exact hset.save (hok x rfl)
  | restart now levels clock kept he hh =>
    subst he
    exact hset.restart g (hok x rfl j) hh

/-- The run lemma. -/
theorem settled_run {s : Option (ι → Host γ)} (es : List (Happening ι)) (hok : Lib.RunOk (happen g shardFor) Sound s es)
    (hs : ∀ x ∈ s, ∀ j, (x j).Settled fun k => shardFor k = j) :
    ∀ x ∈ (Lib.runTotal (happen g shardFor) s es).1, ∀ j, (x j).Settled fun k => shardFor k = j :=
  hok.kept (I := fun s => ∀ x ∈ s, ∀ j, (x j).Settled fun k => shardFor k = j)
    (fun _ _ hs hok => settled_happen g shardFor hok hs) hs

theorem settled_fresh {home : Bytes → Prop} {policy : Option FsyncPolicy} : (Host.fresh policy : Host γ).Settled home := by
  refine ⟨⟨fun k hk => ?_, fun k hk => ?_, fun k hk => ?_⟩, fun a ha => ?_, fun data hd => by cases hd⟩
  · simp [Host.fresh, Keyspace.empty] at hk
  · simp [Host.fresh, Keyspace.empty] at hk
  · cases hk
  · obtain ⟨p, -, rfl⟩ := Option.map_eq_some_iff.1 ha
    rw [Aof.close_openFile]
    exact recorded_nil

/-- The shards of a server that starts without files. -/
def freshHosts (policy : Option FsyncPolicy) (_ : ι) : Host γ :=
  ⟨⟨⟨.empty, fun _ => none⟩, policy.map fun p => Aof.openFile p []⟩, none⟩

omit [DecidableEq ι] [Fintype ι] in
theorem fresh_settled (policy : Option FsyncPolicy) :
    ∀ x ∈ (some (freshHosts policy) : Option (ι → Host γ)), ∀ j, (x j).Settled fun k => shardFor k = j := by
  intro x hx j
  obtain rfl := Option.some.inj hx
  exact settled_fresh

/-- Every key of a shard is one that `shard_for` sends there, in every state of a run whose
saves and starts are sound. A command that is no flush changes only the keys that
`extract_keys` returns, and the shard that executes a request owns these. -/
theorem keys_stay_home (n : ℕ) [NeZero n] (policy : Option FsyncPolicy) (es : List (Happening (Fin n)))
    (hok : Lib.RunOk (happen g (Server.shardFor n)) Sound (some (freshHosts policy)) es) :
    (∀ x ∈ (Lib.runTotal (happen g (Server.shardFor n)) (some (freshHosts policy)) es).1, ∀ j k,
      ((x j).node.store.db.dict.find k).isSome ∨ ((x j).node.store.vectors k).isSome → Server.shardFor n k = j) ∧
    (∀ env argv (st : Store γ) spec, route argv = .ok spec → ¬flushes argv →
      Only (· ∈ extractKeys spec argv) st.db (execStore g env argv st).1.db ∧
        ∀ k, k ∉ extractKeys spec argv → (execStore g env argv st).1.vectors k = st.vectors k) ∧
    ∀ self argv, ∀ r ∈ requests (Server.shardFor n) self argv, ∀ spec, route r.2 = .ok spec →
      ∀ k ∈ extractKeys spec r.2, Server.shardFor n k = r.1 := by
  refine ⟨fun x hx j k hk => ?_, fun env argv st spec => execStore_only g env argv st,
    fun self argv => requests_keyed (Server.shardFor n) self argv⟩
  have hset := (settled_run g (Server.shardFor n) es hok (fresh_settled _ policy) x hx j).store
  exact hk.elim (hset.dict k) (hset.vectors k)

end Lifetimes

/-- A shard without vector indexes. -/
def noGraph : HnswGraph Unit := ⟨(), fun _ _ _ => (), fun _ _ _ => (), fun _ _ => (), fun _ _ _ _ => []⟩

/-- A `SET`, a snapshot, and a start that finds the snapshot and an empty log. -/
def savedRun : List (Happening (Fin 2)) :=
  [.request (.quiet 0) 1 [ascii "SET", [97], [120]] 0, .save 0,
    .restart 5 (fun _ _ => ⟨0, kMaxLevel_pos⟩) (fun _ _ => .quiet 5) fun _ => 0]

theorem keys_stay_home_saved :
    (Lib.runTotal (happen noGraph (Server.shardFor 2)) (some (freshHosts (some .always))) savedRun).1.isSome ∧
      ∀ x ∈ (Lib.runTotal (happen noGraph (Server.shardFor 2)) (some (freshHosts (some .always))) savedRun).1, ∀ j k,
        ((x j).node.store.db.dict.find k).isSome ∨ ((x j).node.store.vectors k).isSome → Server.shardFor 2 k = j := by
  refine ⟨by decide +kernel, (keys_stay_home noGraph 2 (some .always) savedRun
    ⟨trivial, fun x hx => ?_, fun x hx j data hd => ?_, trivial⟩).1⟩
  · obtain rfl := Option.some.inj hx
    exact Snapshot.fitting_one [97] [120] (by decide +kernel) (by decide +kernel) (by decide) (by decide)
  · obtain ⟨a, -, rfl⟩ := Option.map_eq_some_iff.1 hd
    exact ⟨by simp, [], by simp [logOf]⟩

/-- The record of a `SET` is cut behind the length of its value. The next `SET` of the same
key carries a record of `d`, which a start reads and executes on the shard of `a`. -/
theorem torn_log_moves_key : ¬ ∀ (policy : Option FsyncPolicy) (es : List (Happening (Fin 2))),
    ∀ x ∈ (Lib.runTotal (happen noGraph (Server.shardFor 2)) (some (freshHosts policy)) es).1, ∀ j k,
      ((x j).node.store.db.dict.find k).isSome ∨ ((x j).node.store.vectors k).isSome → Server.shardFor 2 k = j := by
  intro h
  replace h := h (some .always)
    [.request (.quiet 0) 0 [ascii "SET", [97], List.replicate 25 120] 0,
      .restart 1 (fun _ _ => ⟨0, by decide⟩) (fun _ _ => .quiet 1) (fun _ => 25),
      .request (.quiet 2) 0 [ascii "SET", [97], crlf ++ encodeMultibulk [ascii "SET", [100], [120]]] 0,
      .restart 3 (fun _ _ => ⟨0, by decide⟩) (fun _ _ => .quiet 3) fun _ => 100]
  have hfound : ((Lib.runTotal (happen noGraph (Server.shardFor 2)) (some (freshHosts (some .always)))
      [.request (.quiet 0) 0 [ascii "SET", [97], List.replicate 25 120] 0,
        .restart 1 (fun _ _ => ⟨0, by decide⟩) (fun _ _ => .quiet 1) (fun _ => 25),
        .request (.quiet 2) 0 [ascii "SET", [97], crlf ++ encodeMultibulk [ascii "SET", [100], [120]]] 0,
        .restart 3 (fun _ _ => ⟨0, by decide⟩) (fun _ _ => .quiet 3) fun _ => 100]).1.map
          fun x => ((x 0).node.store.db.dict.find [100]).isSome) = some true := by
    decide +kernel
  obtain ⟨x, hx, hd⟩ := Option.map_eq_some_iff.1 hfound
  exact absurd (h x hx 0 [100] (.inl hd)) (by decide +kernel)

end BlazeKV
