import BlazeKV.Proofs.Representation
import BlazeKV.Proofs.Replies

/-! Expired keys are invisible to almost every command: running it with the dead keys
removed beforehand shows the same. -/

namespace BlazeKV

open Keyspace

/-- The keyspace with the keys removed whose deadline is at or before the clock. -/
def Keyspace.purge (now : ℕ) (db : Keyspace) : Keyspace :=
  ((db.expires.forEach.filter fun e => e.2 ≤ now).map Prod.fst).foldl Keyspace.erase db

section Purge

variable (db : Keyspace) (now : ℕ) (k : Bytes)

theorem foldl_erase_find (ks : List Bytes) : (ks.foldl Keyspace.erase db).dict.find k =
      (if k ∈ ks then none else db.dict.find k) ∧
    (ks.foldl Keyspace.erase db).expires.find k = if k ∈ ks then none else db.expires.find k := by
  induction ks generalizing db with
  | nil => simp
  | cons x ks ih =>
    obtain ⟨h1, h2⟩ := ih (db.erase x)
    rw [List.foldl_cons, h1, h2]
    by_cases hx : k = x <;> simp [hx]

theorem mem_deadKeys : k ∈ (db.expires.forEach.filter fun e => e.2 ≤ now).map Prod.fst ↔ db.dead now k = true := by
  simp only [List.mem_map, List.mem_filter, decide_eq_true_eq, Prod.exists, exists_and_right, exists_eq_right,
    Dict.mem_forEach, dead, Option.any_eq_true]

@[simp] theorem find_dict_purge : (db.purge now).dict.find k = if db.dead now k then none else db.dict.find k := by
  simp only [purge, (foldl_erase_find db k _).1, mem_deadKeys]

@[simp] theorem find_expires_purge :
    (db.purge now).expires.find k = if db.dead now k then none else db.expires.find k := by
  simp only [purge, (foldl_erase_find db k _).2, mem_deadKeys]

@[simp] theorem dead_purge : (db.purge now).dead now k = false := by
  cases h : db.dead now k with
  | true =>
    have he : (db.purge now).expires.find k = none := by simp [h]
    rw [dead, he]
    rfl
  | false =>
    have he : (db.purge now).expires.find k = db.expires.find k := by simp [h]
    rwa [dead, he]

theorem live_purge : (db.purge now).live now k = db.live now k := by
  cases h : db.dead now k with
  | true => rw [live_of_none (by simp [h]), live_of_dead h]
  | false => exact live_congr (by simp [h]) (by simp [h]) now

theorem purge_same (K : Bytes → Prop) : SameAt K now db (db.purge now) := fun k _ => live_purge db now k

theorem purge_like : Like False now db (db.purge now) :=
  ⟨fun k => by rw [live_purge], False.elim⟩

end Purge

/-! The commands that only read. -/

/-- What a reader replies with. -/
inductive SeesDeed (spec : CommandSpec) : Prop
  | sees (hn : spec.name ∉ [ascii "keys", ascii "scan", ascii "randomkey"])
      (h : ∀ env argv, RepliesBy (fun _ => True) env.now (spec.fn env argv))
  | keys (hn : spec.name = ascii "keys") (h : spec.fn = Cmd.keys)
  | scan (hn : spec.name = ascii "scan") (h : spec.fn = Cmd.scan)
  | randomkey (hn : spec.name = ascii "randomkey") (h : spec.fn = Cmd.randomkey)

/-- The entries that are not marked as writes. -/
def CommandTable.readers : List CommandSpec := [
  ⟨ascii "get", Cmd.get, 2, false, 1, 1, 1⟩,
  ⟨ascii "strlen", Cmd.strlen, 2, false, 1, 1, 1⟩,
  ⟨ascii "mget", Cmd.mget, -2, false, 1, -1, 1⟩,
  ⟨ascii "getrange", Cmd.getrange, 4, false, 1, 1, 1⟩,
  ⟨ascii "exists", Cmd.exists', -2, false, 1, -1, 1⟩,
  ⟨ascii "touch", Cmd.exists', -2, false, 1, -1, 1⟩,
  ⟨ascii "ttl", Cmd.ttl, 2, false, 1, 1, 1⟩,
  ⟨ascii "pttl", Cmd.pttl, 2, false, 1, 1, 1⟩,
  ⟨ascii "type", Cmd.type, 2, false, 1, 1, 1⟩,
  ⟨ascii "keys", Cmd.keys, 2, false, 0, 0, 0⟩,
  ⟨ascii "scan", Cmd.scan, -2, false, 0, 0, 0⟩,
  ⟨ascii "randomkey", Cmd.randomkey, 1, false, 0, 0, 0⟩,
  ⟨ascii "object", Cmd.object, -2, false, 2, 2, 1⟩,
  ⟨ascii "hget", Cmd.hget, 3, false, 1, 1, 1⟩,
  ⟨ascii "hexists", Cmd.hexists, 3, false, 1, 1, 1⟩,
  ⟨ascii "hgetall", Cmd.hgetall, 2, false, 1, 1, 1⟩,
  ⟨ascii "hkeys", Cmd.hkeys, 2, false, 1, 1, 1⟩,
  ⟨ascii "hvals", Cmd.hvals, 2, false, 1, 1, 1⟩,
  ⟨ascii "hlen", Cmd.hlen, 2, false, 1, 1, 1⟩,
  ⟨ascii "hmget", Cmd.hmget, -3, false, 1, 1, 1⟩,
  ⟨ascii "llen", Cmd.llen, 2, false, 1, 1, 1⟩,
  ⟨ascii "lrange", Cmd.lrange, 4, false, 1, 1, 1⟩,
  ⟨ascii "lindex", Cmd.lindex, 3, false, 1, 1, 1⟩,
  ⟨ascii "sismember", Cmd.sismember, 3, false, 1, 1, 1⟩,
  ⟨ascii "scard", Cmd.scard, 2, false, 1, 1, 1⟩,
  ⟨ascii "smembers", Cmd.smembers, 2, false, 1, 1, 1⟩,
  ⟨ascii "zscore", Cmd.zscore, 3, false, 1, 1, 1⟩,
  ⟨ascii "zcard", Cmd.zcard, 2, false, 1, 1, 1⟩,
  ⟨ascii "zrank", Cmd.zrank, 3, false, 1, 1, 1⟩,
  ⟨ascii "zrange", Cmd.zrange, -4, false, 1, 1, 1⟩,
  ⟨ascii "zrangebyscore", Cmd.zrangebyscore, -4, false, 1, 1, 1⟩,
  ⟨ascii "pfcount", Cmd.pfcount, -2, false, 1, -1, 1⟩,
  ⟨ascii "vsim", Cmd.vsim, -4, false, 1, 1, 1⟩,
  ⟨ascii "vcard", Cmd.vcard, 2, false, 1, 1, 1⟩,
  ⟨ascii "ping", Cmd.ping, -1, false, 0, 0, 0⟩,
  ⟨ascii "echo", Cmd.echo, 2, false, 0, 0, 0⟩,
  ⟨ascii "select", Cmd.select, 2, false, 0, 0, 0⟩,
  ⟨ascii "command", Cmd.command, -1, false, 0, 0, 0⟩,
  ⟨ascii "info", Cmd.info, -1, false, 0, 0, 0⟩,
  ⟨ascii "dbsize", Cmd.dbsize, 1, false, 0, 0, 0⟩,
  ⟨ascii "flushall", Cmd.flushall, -1, false, 0, 0, 0⟩,
  ⟨ascii "flushdb", Cmd.flushdb, -1, false, 0, 0, 0⟩,
  ⟨ascii "config", Cmd.config, -2, false, 0, 0, 0⟩,
  ⟨ascii "hello", Cmd.hello, -1, false, 0, 0, 0⟩,
  ⟨ascii "client", Cmd.client, -2, false, 0, 0, 0⟩,
  ⟨ascii "reset", Cmd.reset, 1, false, 0, 0, 0⟩,
  ⟨ascii "debug", Cmd.debug, -2, false, 0, 0, 0⟩,
  ⟨ascii "wait", Cmd.wait, 3, false, 0, 0, 0⟩]

theorem readers_eq : CommandTable.specs.filter (!·.write) = CommandTable.readers := rfl

theorem mem_readers {spec : CommandSpec} (h : spec ∈ CommandTable.specs) (hw : spec.write = false) :
    spec ∈ CommandTable.readers := by
  rw [← readers_eq]
  exact List.mem_filter.2 ⟨h, by simpa using hw⟩

theorem config_sees (env : Env) (argv : List Bytes) : RepliesBy (fun _ => True) env.now (Cmd.config env argv) := by
  intro db db' _
  unfold Cmd.config
  split_ifs <;> rfl

theorem seesDeeds : ∀ spec ∈ CommandTable.readers, SeesDeed spec := by
  simp only [CommandTable.readers, List.forall_mem_cons]
  exact ⟨.sees (by decide) fun env argv => Cmd.get_sees env argv trivial,
    .sees (by decide) fun env argv => Cmd.strlen_sees env argv trivial,
    .sees (by decide) fun env argv => Cmd.mget_sees env argv fun _ _ => trivial,
    .sees (by decide) fun env argv => Cmd.getrange_sees env argv trivial,
    .sees (by decide) fun env argv => Cmd.exists'_sees env argv fun _ _ => trivial,
    .sees (by decide) fun env argv => Cmd.exists'_sees env argv fun _ _ => trivial,
    .sees (by decide) fun env argv => Cmd.ttl_sees env argv trivial,
    .sees (by decide) fun env argv => Cmd.pttl_sees env argv trivial,
    .sees (by decide) fun env argv => Cmd.type_sees env argv trivial,
    .keys rfl rfl,
    .scan rfl rfl,
    .randomkey rfl rfl,
    .sees (by decide) fun env argv => Cmd.object_sees env argv fun _ => trivial,
    .sees (by decide) fun env argv => Cmd.hget_sees env argv trivial,
    .sees (by decide) fun env argv => Cmd.hexists_sees env argv trivial,
    .sees (by decide) fun env argv => Cmd.hashEntries_sees env argv 2 (fun e => Reply.bulk e.1 ++ Reply.bulk e.2) trivial,
    .sees (by decide) fun env argv => Cmd.hashEntries_sees env argv 1 (fun e => Reply.bulk e.1) trivial,
    .sees (by decide) fun env argv => Cmd.hashEntries_sees env argv 1 (fun e => Reply.bulk e.2) trivial,
    .sees (by decide) fun env argv => Cmd.hlen_sees env argv trivial,
    .sees (by decide) fun env argv => Cmd.hmget_sees env argv trivial,
    .sees (by decide) fun env argv => Cmd.llen_sees env argv trivial,
    .sees (by decide) fun env argv => Cmd.lrange_sees env argv trivial,
    .sees (by decide) fun env argv => Cmd.lindex_sees env argv trivial,
    .sees (by decide) fun env argv => Cmd.sismember_sees env argv trivial,
    .sees (by decide) fun env argv => Cmd.scard_sees env argv trivial,
    .sees (by decide) fun env argv => Cmd.smembers_sees env argv trivial,
    .sees (by decide) fun env argv => Cmd.zscore_sees env argv trivial,
    .sees (by decide) fun env argv => Cmd.zcard_sees env argv trivial,
    .sees (by decide) fun env argv => Cmd.zrank_sees env argv trivial,
    .sees (by decide) fun env argv => Cmd.zrange_sees env argv trivial,
    .sees (by decide) fun env argv => Cmd.zrangebyscore_sees env argv trivial,
    .sees (by decide) fun env argv => Cmd.pfcount_sees env argv fun _ _ => trivial,
    .sees (by decide) fun _ _ _ _ _ => rfl,
    .sees (by decide) fun _ _ _ _ _ => rfl,
    .sees (by decide) fun _ _ _ _ _ => rfl,
    .sees (by decide) fun _ _ _ _ _ => rfl,
    .sees (by decide) fun _ _ _ _ _ => rfl,
    .sees (by decide) fun _ _ _ _ _ => rfl,
    .sees (by decide) fun _ _ _ _ _ => rfl,
    .sees (by decide) fun _ _ _ _ _ => rfl,
    .sees (by decide) fun _ _ _ _ _ => rfl,
    .sees (by decide) fun _ _ _ _ _ => rfl,
    .sees (by decide) config_sees,
    .sees (by decide) fun _ _ _ _ _ => rfl,
    .sees (by decide) fun _ _ _ _ _ => rfl,
    .sees (by decide) fun _ _ _ _ _ => rfl,
    .sees (by decide) fun _ _ _ _ _ => rfl,
    .sees (by decide) fun _ _ _ _ _ => rfl, by simp⟩

/-! `DEL` counts keys without a look at their deadlines. -/

/-- Erasing from two keyspaces of which the second lacks some keys. -/
theorem erase_count_le (D : Bytes → Bool) (ks : List Bytes) {d d' : Keyspace}
    (h : ∀ k, d'.dict.find k = if D k then none else d.dict.find k) :
    (countLoop Cmd.eraseRound d' ks).2 ≤ (countLoop Cmd.eraseRound d ks).2 ∧
      ((countLoop Cmd.eraseRound d' ks).2 = (countLoop Cmd.eraseRound d ks).2 ↔
        ∀ k ∈ ks, D k → d.dict.find k = none) := by
  induction ks generalizing d d' with
  | nil => simp
  | cons k ks ih =>
    have hstep : ∀ k', (Cmd.eraseRound d' k).1.dict.find k' =
        if D k' then none else (Cmd.eraseRound d k).1.dict.find k' := by
      intro k'
      simp only [Cmd.eraseRound, eraseKey_fst, find_dict_erase, h k']
      split_ifs <;> rfl
    obtain ⟨hle, hiff⟩ := ih hstep
    have hone : (Cmd.eraseRound d' k).2 = ((Cmd.eraseRound d k).2 && !D k) := by
      simp only [Cmd.eraseRound, eraseKey_snd, h k]
      cases D k <;> simp
    have hfind : ∀ k', (Cmd.eraseRound d k).1.dict.find k' = if k' = k then none else d.dict.find k' := fun k' => by
      simp [Cmd.eraseRound]
    have hsnd : (Cmd.eraseRound d k).2 = (d.dict.find k).isSome := by simp [Cmd.eraseRound]
    rw [countLoop_cons, countLoop_cons, hone]
    simp only [List.forall_mem_cons, hfind] at hiff ⊢
    constructor
    · cases (Cmd.eraseRound d k).2 <;> cases D k <;> simp <;> omega
    · cases hD : D k with
      | false =>
        simp only [Bool.not_false, Bool.and_true, Bool.false_eq_true, false_implies, true_and,
          Nat.add_right_cancel_iff, hiff]
        refine forall₂_congr fun k' _ => imp_congr_right fun hk' => ?_
        rw [if_neg (by rintro rfl; simp [hD] at hk')]
      | true =>
        cases hk : d.dict.find k with
        | some o =>
          refine iff_of_false ?_ (by simp)
          simp only [hsnd, hk, Option.isSome_some, Bool.not_true, Bool.and_false, Bool.false_eq_true, if_false, if_true]
          omega
        | none =>
          simp only [hsnd, hk, Option.isSome_none, Bool.false_and, Bool.false_eq_true, if_false, Nat.add_zero,
            implies_true, true_and, hiff]
          refine forall₂_congr fun k' _ => imp_congr_right fun _ => ?_
          by_cases he : k' = k
          · simp [he, hk]
          · rw [if_neg he]

/-! `KEYS` and `SCAN` take a stored deadline of zero for none. -/

section Listed

variable (db : Keyspace) (now : ℕ) (keep : Bytes × Object → Bool)

theorem mem_listedKeys (k : Bytes) : k ∈ Cmd.listedKeys db now keep ↔
    ∃ o, db.dict.find k = some o ∧ ¬(db.deadlineOrZero k ≠ 0 ∧ db.deadlineOrZero k ≤ now) ∧ keep (k, o) := by
  simp only [Cmd.listedKeys, List.mem_map, List.mem_filter, Prod.exists, exists_and_right, exists_eq_right,
    forEach, Dict.mem_forEach, Bool.and_eq_true, Bool.not_eq_true', Bool.and_eq_false_iff, decide_eq_false_iff_not]
  refine exists_congr fun o => and_congr_right fun _ => and_congr_left fun _ => ?_
  rw [not_and_or, not_not]

theorem listedKeys_nodup : (Cmd.listedKeys db now keep).Nodup :=
  db.dict.forEach_nodup.sublist (List.filter_sublist.map _)

theorem deadlineOrZero_dead {k : Bytes} (h : db.dead now k) :
    (db.deadlineOrZero k ≠ 0 ∧ db.deadlineOrZero k ≤ now) ↔ db.expires.find k ≠ some 0 := by
  obtain ⟨dl, hdl, hle⟩ := (Option.any_eq_true _ _).1 h
  have hle : dl ≤ now := by simpa using hle
  simp [deadlineOrZero, hdl, hle]

/-- The keys that are listed are the same exactly when no key with a deadline of zero is. -/
theorem listed_purge_iff : (Cmd.listedKeys db now keep).Perm (Cmd.listedKeys (db.purge now) now keep) ↔
    ¬∃ k o, db.dict.find k = some o ∧ db.expires.find k = some 0 ∧ keep (k, o) := by
  rw [List.perm_ext_iff_of_nodup (listedKeys_nodup _ _ _) (listedKeys_nodup _ _ _)]
  constructor
  · rintro h ⟨k, o, hk, he, hkeep⟩
    have hdead : db.dead now k = true := by simp [dead, he]
    have hin : k ∈ Cmd.listedKeys db now keep :=
      (mem_listedKeys _ _ _ _).2 ⟨o, hk, by simp [deadlineOrZero, he], hkeep⟩
    obtain ⟨o', ho', -⟩ := (mem_listedKeys _ _ _ _).1 ((h k).1 hin)
    simp [hdead] at ho'
  · intro h k
    rw [mem_listedKeys, mem_listedKeys]
    cases hdead : db.dead now k with
    | false => simp [hdead, deadlineOrZero]
    | true =>
      refine iff_of_false ?_ (by simp [hdead])
      rintro ⟨o, ho, hdl, hkeep⟩
      rw [deadlineOrZero_dead db now hdead, not_not] at hdl
      exact h ⟨k, o, ho, hdl, hkeep⟩

theorem replyKeys_injective {ks ks' : List Bytes} (h : Cmd.replyKeys ks = Cmd.replyKeys ks') : ks = ks' := by
  obtain ⟨hn, hrest⟩ := arrayHeader_append_inj h
  have hlen : ks.length = ks'.length := by exact_mod_cast hn
  have hmap : ks.map Reply.bulk = ks'.map Reply.bulk := by
    refine flatten_inj (x := []) (y := []) (fun v hv => ?_) (fun v hv => ?_) (by simpa using hlen) ?_
    · obtain ⟨k, -, rfl⟩ := List.mem_map.1 hv
      exact (IsReply.bulk k).prefix_free
    · obtain ⟨k, -, rfl⟩ := List.mem_map.1 hv
      exact .bulk k
    · simpa [List.flatMap_def] using hrest
  exact List.map_injective_iff.2 (fun _ _ => bulk_injective) hmap

end Listed

/-- What stands in front of the keys in the replies of `KEYS` and `SCAN`. -/
def listHead (name : Bytes) : Bytes :=
  if name = ascii "scan" then Reply.arrayHeader 2 ++ Reply.bulk (ascii "0") else []

/-- A key that is live, or nil where none is. -/
def IsRandomKey (now : ℕ) (db : Keyspace) (reply : Bytes) : Prop :=
  (∃ k, reply = Reply.bulk k ∧ (db.live now k).isSome) ∨ (reply = Reply.nullBulk ∧ ∀ k, db.live now k = none)

/-- Two replies to a command that show the same: for `KEYS` and `SCAN` in any order, for
`RANDOMKEY` any live key. -/
def SameReply (now : ℕ) (db : Keyspace) (name reply reply' : Bytes) : Prop :=
  if name = ascii "keys" ∨ name = ascii "scan" then
    ∃ ks ks', reply = listHead name ++ Cmd.replyKeys ks ∧ reply' = listHead name ++ Cmd.replyKeys ks' ∧ ks.Perm ks'
  else if name = ascii "randomkey" then IsRandomKey now db reply ∧ IsRandomKey now db reply'
  else reply' = reply

/-- The command does the same on the keyspace and on the one without the dead keys. -/
def Invisible (env : Env) (argv : List Bytes) (db : Keyspace) : Prop :=
  let r := execCore env argv db
  let r' := execCore env argv (db.purge env.now)
  LiveEquiv env.now r.db r'.db ∧ match route argv with
    | .error _ => r'.reply = r.reply
    | .ok spec => SameReply env.now db spec.name r.reply r'.reply

/-- What `SCAN` keeps. -/
def scanKeep (argv : List Bytes) (e : Bytes × Object) : Bool :=
  let o := (pairs (argv.drop 2)).foldl Cmd.scanOpt (ascii "*", none)
  (o.2.all fun t => e.2.type = t) && Cmd.globMatch o.1 e.1

/-- A key with a stored deadline of zero that the listing keeps. -/
def listsDead (db : Keyspace) (keep : Bytes × Object → Bool) : Prop :=
  ∃ k o, db.dict.find k = some o ∧ db.expires.find k = some 0 ∧ keep (k, o)

/-- `SET` with `KEEPTTL` and no other deadline on a key with no value that still has a
deadline, which has passed. -/
def keepsOrphan (env : Env) (argv : List Bytes) (db : Keyspace) : Prop :=
  (∃ opts, Cmd.setArgs env argv = .ok opts ∧ opts.keepttl ∧ opts.deadline = 0 ∧ opts.xx = false) ∧
    db.dict.find (arg argv 1) = none ∧ ∃ dl, db.expires.find (arg argv 1) = some dl ∧ dl ≠ 0 ∧ dl ≤ env.now

/-- The command shows a dead key: `DEL` and `UNLINK` count it, `KEYS` and `SCAN` list it
if its deadline is zero, `RANDOMKEY` takes it if it comes first. -/
def ShowsDead (env : Env) (argv : List Bytes) (db : Keyspace) (name : Bytes) : Prop :=
  ((name = ascii "del" ∨ name = ascii "unlink") ∧ ∃ k ∈ argv.tail, (db.dict.find k).isSome ∧ db.dead env.now k) ∨
    (name = ascii "keys" ∧ listsDead db fun e => Cmd.globMatch (arg argv 1) e.1) ∨
    (name = ascii "scan" ∧ listsDead db (scanKeep argv)) ∨
    (name = ascii "randomkey" ∧ ∃ e ∈ db.forEach.head?, db.dead env.now e.1) ∨
    (name = ascii "set" ∧ keepsOrphan env argv db)

section Cases

variable {env : Env} {argv : List Bytes} {db : Keyspace} {spec : CommandSpec}

theorem sameReply_eq {now : ℕ} {name reply reply' : Bytes}
    (hn : name ∉ [ascii "keys", ascii "scan", ascii "randomkey"]) : SameReply now db name reply reply' ↔ reply' = reply := by
  simp only [List.mem_cons, List.not_mem_nil, or_false, not_or] at hn
  simp [SameReply, hn]

theorem listing_iff {name : Bytes} (hn : name = ascii "keys" ∨ name = ascii "scan") (keep : Bytes × Object → Bool) :
    SameReply env.now db name (listHead name ++ Cmd.replyKeys (Cmd.listedKeys db env.now keep))
      (listHead name ++ Cmd.replyKeys (Cmd.listedKeys (db.purge env.now) env.now keep)) ↔ ¬listsDead db keep := by
  rw [SameReply, if_pos hn, listsDead, ← listed_purge_iff]
  constructor
  · rintro ⟨ks, ks', h, h', hp⟩
    rw [replyKeys_injective (List.append_cancel_left h), replyKeys_injective (List.append_cancel_left h')]
    exact hp
  · exact fun hp => ⟨_, _, rfl, rfl, hp⟩

theorem isRandomKey_iff (now : ℕ) (db : Keyspace) :
    IsRandomKey now db (Cmd.randomkey.replyKey db.forEach.head?) ↔ ¬∃ e ∈ db.forEach.head?, db.dead now e.1 := by
  cases hh : db.forEach.head? with
  | none =>
    have hempty : ∀ k, db.live now k = none := by
      intro k
      refine live_of_none ?_ now
      by_contra hne
      obtain ⟨o, ho⟩ := Option.ne_none_iff_exists'.1 hne
      have := (Dict.mem_forEach db.dict k o).2 ho
      rw [forEach, List.head?_eq_none_iff] at hh
      simp [hh] at this
    exact iff_of_true (.inr ⟨rfl, hempty⟩) (by simp)
  | some e =>
    have hmem : e ∈ db.dict.forEach := List.mem_of_head? hh
    have hfind : db.dict.find e.1 = some e.2 := (Dict.mem_forEach db.dict e.1 e.2).1 hmem
    have hlive : (db.live now e.1).isSome = !db.dead now e.1 := by
      cases hd : db.dead now e.1 <;> simp [live, peek, hd, hfind]
    constructor
    · rintro (⟨k, hk, hl⟩ | ⟨hk, -⟩) ⟨e', he', hd⟩
      · obtain rfl := Option.some.inj he'
        rw [← bulk_injective hk, hlive, hd] at hl
        cases hl
      · exact nullBulk_ne_bulk (x := []) (y := []) (by rw [← hk]; rfl)
    · intro h
      refine .inl ⟨e.1, rfl, ?_⟩
      rw [hlive]
      simpa using fun hd => h ⟨e, rfl, hd⟩

theorem isRandomKey_purge (now : ℕ) (db : Keyspace) :
    IsRandomKey now db (Cmd.randomkey.replyKey (db.purge now).forEach.head?) := by
  have h := (isRandomKey_iff now (db.purge now)).2 ?_
  · simpa only [IsRandomKey, live_purge] using h
  · simp

/-- `SPOP` on a set with the same layout. -/
theorem spop_alike {db' : Keyspace} (argv : List Bytes) (hlike : Like False env.now db db')
    (hp : db'.peek env.now (arg argv 1) = db.peek env.now (arg argv 1)) :
    Alike False env.now (Cmd.spop env argv db) (Cmd.spop env argv db') := by
  have hl := hlike.lookup (arg argv 1)
  simp only [Cmd.spop, Cmd.getSet, getAs_eq, hp]
  cases found Object.set? (db.peek env.now (arg argv 1)) with
  | absent => cases Cmd.popCount argv <;> exact .clean hl _
  | wrongType => exact .clean hl _
  | present s =>
    cases Cmd.popCount argv with
    | none => exact .clean hl _
    | some count =>
      refine .markedIf ?_ _ _ _
      split_ifs
      · exact (hl.write _ (.refl _)).erase _
      · exact hl.write _ (.refl _)

/-- The deadline that `KEEPTTL` keeps is the same without the dead keys, unless the key
has only a deadline. -/
theorem keptDeadline_purge {now : ℕ} {key : Bytes}
    (h : db.dict.find key = none → ∀ dl, db.expires.find key = some dl → dl ≤ now → dl = 0) :
    Cmd.keptDeadline now (db.purge now) key = Cmd.keptDeadline now db key := by
  simp only [Cmd.keptDeadline, deadlineOrZero, lookup_find_expires, find_expires_purge, dead_purge]
  cases hdead : db.dead now key with
  | false => simp
  | true =>
    obtain ⟨dl, hdl, hle⟩ := (Option.any_eq_true _ _).1 hdead
    cases hfind : db.dict.find key with
    | some o => simp
    | none => simp [hdl, h hfind dl hdl (by simpa using hle)]

/-- `SET` that takes over the deadline of a key with no value makes a key that is dead at
once. -/
theorem keepsOrphan_differs (h : keepsOrphan env argv db) :
    ¬LiveEquiv env.now (Cmd.set env argv db).db (Cmd.set env argv (db.purge env.now)).db := by
  obtain ⟨⟨opts, hopts, hkeep, h0, hxx⟩, hnone, dl, hdl, hne, hle⟩ := h
  have hset : ∀ d : Keyspace, d.dict.find (arg argv 1) = none →
      (Cmd.set env argv d).db = Cmd.setWrite opts d (arg argv 1) (arg argv 2) := by
    intro d hd
    have hlook : d.lookup env.now (arg argv 1) = (d, none) := by simp [lookup_eq, hd, peek]
    unfold Cmd.setArgs at hopts
    simp [Cmd.set, hopts, hlook, hxx, Result.marked]
  have hdead : db.dead env.now (arg argv 1) = true := by simp [dead, hdl, hle]
  rw [hset db hnone, hset _ (by simp [hdead])]
  intro hlive
  have hdb : (Cmd.setWrite opts db (arg argv 1) (arg argv 2)).live env.now (arg argv 1) = none := by
    refine live_of_dead ?_
    simp [Cmd.setWrite, hkeep, h0, deadlineOrZero, hdl, hne, dead, hle]
  have hpurged : ((Cmd.setWrite opts (db.purge env.now) (arg argv 1) (arg argv 2)).live env.now (arg argv 1)).isSome := by
    simp [Cmd.setWrite, hkeep, h0, deadlineOrZero, hdead, live_set]
  have := hlive (arg argv 1)
  rw [hdb] at this
  cases hp : (Cmd.setWrite opts (db.purge env.now) (arg argv 1) (arg argv 2)).live env.now (arg argv 1) with
  | none => simp [hp] at hpurged
  | some e =>
    rw [hp] at this
    exact this

theorem showsDead_not (hn : spec.name ∉ [ascii "del", ascii "unlink", ascii "keys", ascii "scan", ascii "randomkey",
    ascii "set"]) : ¬ShowsDead env argv db spec.name := by
  simp only [List.mem_cons, List.not_mem_nil, or_false, not_or] at hn
  simp [ShowsDead, hn]

theorem writer_name {spec : CommandSpec} (hs : spec ∈ CommandTable.specs) (hw : spec.write) :
    spec.name ∉ [ascii "keys", ascii "scan", ascii "randomkey"] := by
  have h : ∀ s ∈ CommandTable.specs, s.write → s.name ∉ [ascii "keys", ascii "scan", ascii "randomkey"] := by
    decide +kernel
  exact h spec hs hw

theorem reader_not_erase {spec : CommandSpec} (hs : spec ∈ CommandTable.specs) (hw : spec.write = false) :
    spec.name ∉ [ascii "del", ascii "unlink", ascii "set"] := by
  have h : ∀ s ∈ CommandTable.specs, s.write = false → s.name ∉ [ascii "del", ascii "unlink", ascii "set"] := by
    decide +kernel
  exact h spec hs hw

/-- `DEL` counts a dead key. -/
theorem del_invisible_iff (hs : spec.name = ascii "del" ∨ spec.name = ascii "unlink") :
    LiveEquiv env.now (Cmd.del env argv db).db (Cmd.del env argv (db.purge env.now)).db ∧
      (Cmd.del env argv (db.purge env.now)).reply = (Cmd.del env argv db).reply ↔ ¬ShowsDead env argv db spec.name := by
  have hcount := erase_count_le (fun k => db.dead env.now k) argv.tail (find_dict_purge db env.now)
  have hshows : ShowsDead env argv db spec.name ↔ ∃ k ∈ argv.tail, (db.dict.find k).isSome ∧ db.dead env.now k := by
    rcases hs with hs | hs <;> rw [hs] <;> simp +decide [ShowsDead]
  have hreply : (Cmd.del env argv (db.purge env.now)).reply = (Cmd.del env argv db).reply ↔
      (countLoop Cmd.eraseRound (db.purge env.now) argv.tail).2 = (countLoop Cmd.eraseRound db argv.tail).2 := by
    constructor
    · intro h
      have := (integer_append_inj (x := []) (y := []) (congrArg (· ++ []) h)).1
      exact_mod_cast this
    · intro h
      simp only [Cmd.del, Result.markedIf, h]
  rw [hreply, hcount.2, hshows]
  refine ⟨fun h => ?_, fun h => ⟨(Cmd.del_like argv (purge_like db env.now)).live, fun k hk hd => ?_⟩⟩
  · rintro ⟨k, hk, hsome, hd⟩
    simp [h.2 k hk hd] at hsome
  · by_contra hne
    exact h ⟨k, hk, Option.isSome_iff_ne_none.2 hne, hd⟩

theorem set_invisible_iff (hs : spec.name = ascii "set") :
    LiveEquiv env.now (Cmd.set env argv db).db (Cmd.set env argv (db.purge env.now)).db ∧
      (Cmd.set env argv (db.purge env.now)).reply = (Cmd.set env argv db).reply ↔ ¬ShowsDead env argv db spec.name := by
  have hshows : ShowsDead env argv db spec.name ↔ keepsOrphan env argv db := by
    rw [hs]
    simp +decide [ShowsDead]
  rw [hshows]
  constructor
  · exact fun h horphan => keepsOrphan_differs horphan h.1
  · intro h
    have halike : Alike False env.now (Cmd.set env argv db) (Cmd.set env argv (db.purge env.now)) := by
      refine Cmd.set_alike argv rfl (purge_like db env.now) fun opts hopts hk h0 hxx hp => ?_
      refine keptDeadline_purge fun hnone dl hdl hle => ?_
      by_contra hne
      exact h ⟨⟨opts, hopts, hk, h0, hxx⟩, hnone, dl, hdl, hne, hle⟩
    exact ⟨halike.db.live, halike.reply⟩

theorem keys_invisible_iff (hn : spec.name = ascii "keys") : SameReply env.now db spec.name (Cmd.keys env argv db).reply
    (Cmd.keys env argv (db.purge env.now)).reply ↔ ¬ShowsDead env argv db spec.name := by
  have hshows : ShowsDead env argv db spec.name ↔ listsDead db fun e => Cmd.globMatch (arg argv 1) e.1 := by
    rw [hn]
    simp +decide [ShowsDead]
  have hhead : listHead spec.name = [] := by
    rw [hn]
    decide
  have hiff := @listing_iff env db spec.name (.inl hn) fun e => Cmd.globMatch (arg argv 1) e.1
  rw [hhead, List.nil_append, List.nil_append] at hiff
  rw [hshows]
  exact hiff

theorem scan_invisible_iff (hn : spec.name = ascii "scan") : SameReply env.now db spec.name (Cmd.scan env argv db).reply
    (Cmd.scan env argv (db.purge env.now)).reply ↔ ¬ShowsDead env argv db spec.name := by
  have hshows : ShowsDead env argv db spec.name ↔ listsDead db (scanKeep argv) := by
    rw [hn]
    simp +decide [ShowsDead]
  have hhead : listHead spec.name = Reply.arrayHeader 2 ++ Reply.bulk (ascii "0") := by
    rw [hn]
    rfl
  have hiff := @listing_iff env db spec.name (.inr hn) (scanKeep argv)
  rw [hhead] at hiff
  rw [hshows]
  exact hiff

theorem randomkey_invisible_iff (hn : spec.name = ascii "randomkey") :
    SameReply env.now db spec.name (Cmd.randomkey env argv db).reply (Cmd.randomkey env argv (db.purge env.now)).reply ↔
      ¬ShowsDead env argv db spec.name := by
  have hshows : ShowsDead env argv db spec.name ↔ ∃ e ∈ db.forEach.head?, db.dead env.now e.1 := by
    rw [hn]
    simp +decide [ShowsDead]
  rw [hshows, ← isRandomKey_iff, hn]
  have hsame : SameReply env.now db (ascii "randomkey") (Cmd.randomkey env argv db).reply
      (Cmd.randomkey env argv (db.purge env.now)).reply ↔
      IsRandomKey env.now db (Cmd.randomkey env argv db).reply ∧
        IsRandomKey env.now db (Cmd.randomkey env argv (db.purge env.now)).reply := by
    simp +decide [SameReply]
  rw [hsame]
  exact and_iff_left (isRandomKey_purge env.now db)

/-- A command shows dead keys exactly in these cases; else it does the same with them and
without them. -/
theorem invisible_iff (env : Env) (argv : List Bytes) (db : Keyspace) :
    Invisible env argv db ↔ ¬∃ spec, route argv = .ok spec ∧ ShowsDead env argv db spec.name := by
  unfold Invisible
  cases hr : route argv with
  | error e =>
    simp only [execCore, hr]
    exact iff_of_true ⟨(purge_like db env.now).live, trivial⟩ (by simp)
  | ok spec =>
    have hmem := find_mem (route_ok hr).1
    have hlike := purge_like db env.now
    have hsame := purge_same db env.now fun _ => True
    simp only [execCore, hr, Except.ok.injEq, exists_eq_left']
    cases hw : spec.write with
    | true =>
      have hname := writer_name hmem.1 hw
      rw [sameReply_eq hname]
      cases twinDeeds spec (mem_writers hmem.1 hw) with
      | alike hs ha =>
        have halike := ha False env env argv db (db.purge env.now) rfl hlike
        refine iff_of_true ⟨halike.db.live, halike.reply⟩ (showsDead_not ?_)
        simp only [apart, List.mem_cons, List.not_mem_nil, or_false, not_or] at hs hname ⊢
        simp [hs, hname]
      | vector hs hv =>
        obtain ⟨d, hd⟩ := hv env argv db
        obtain ⟨d', hd'⟩ := hv env argv (db.purge env.now)
        rw [hd, hd']
        refine iff_of_true ⟨hlike.live, rfl⟩ (showsDead_not ?_)
        simp only [apart, List.mem_cons, List.not_mem_nil, or_false, not_or] at hs hname ⊢
        simp [hs, hname]
      | del hs hf =>
        rw [hf]
        exact del_invisible_iff hs
      | set hs hf =>
        rw [hf]
        exact set_invisible_iff hs
      | spop hs hf =>
        rw [hf]
        have halike : Alike False env.now (Cmd.spop env argv db) (Cmd.spop env argv (db.purge env.now)) :=
          spop_alike argv hlike (hsame.peek trivial)
        refine iff_of_true ⟨halike.db.live, halike.reply⟩ (showsDead_not ?_)
        rw [hs]
        decide
    | false =>
      have hname := reader_not_erase hmem.1 hw
      have hlive : LiveEquiv env.now (spec.fn env argv db).db (spec.fn env argv (db.purge env.now)).db := by
        cases deeds spec hmem.1 with
        | reads _ _ h =>
          have har := (route_ok hr).2
          exact (h env argv db har).looked.liveEquiv.symm.trans
            (hlike.live.trans (h env argv (db.purge env.now) har).looked.liveEquiv)
        | flush _ _ h =>
          rw [h]
          intro k
          rw [live_of_none (by simp [Cmd.flushall, Keyspace.clear]), live_of_none (by simp [Cmd.flushall, Keyspace.clear])]
        | tame ht => exact absurd (ht.symm.trans hw) (by decide)
        | shrinks ht => exact absurd (ht.symm.trans hw) (by decide)
        | zadd hz => exact absurd ((congrArg CommandSpec.write hz).symm.trans hw) (by decide)
      simp only [hlive, true_and]
      cases seesDeeds spec (mem_readers hmem.1 hw) with
      | sees hn h =>
        rw [sameReply_eq hn]
        refine iff_of_true (h env argv db _ hsame) (showsDead_not ?_)
        simp only [List.mem_cons, List.not_mem_nil, or_false, not_or] at hn hname ⊢
        simp [hn, hname]
      | keys hn hf =>
        rw [hf]
        exact keys_invisible_iff hn
      | scan hn hf =>
        rw [hf]
        exact scan_invisible_iff hn
      | randomkey hn hf =>
        rw [hf]
        exact randomkey_invisible_iff hn

/-- `DEL` of an expired key replies that it has removed a key. -/
theorem del_shows_dead : ¬ ∀ (env : Env) (argv : List Bytes) (db : Keyspace), Invisible env argv db := by
  intro h
  obtain ⟨-, hreply⟩ := h (.quiet 10) [ascii "DEL", [107]] ((Keyspace.empty.set [107] (.string [97])).setDeadline [107] 5)
  have hr : route [ascii "DEL", [107]] = .ok ⟨ascii "del", Cmd.del, -2, true, 1, -1, 1⟩ := rfl
  rw [hr] at hreply
  have hsame := (sameReply_eq (by decide)).1 hreply
  exact absurd hsame (by decide +kernel)

end Cases

end BlazeKV
