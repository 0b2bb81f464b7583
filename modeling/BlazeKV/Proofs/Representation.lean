import BlazeKV.Proofs.TwoRuns

/-! What a write leaves depends on the contents of the keyspace, not on the layout of
its tables, with one exception: `SPOP` takes the members that come first in the table. -/

namespace BlazeKV

open Keyspace

/-- The writers that need a case of their own. -/
def apart : List Bytes := [ascii "spop", ascii "del", ascii "unlink", ascii "set"]

/-- How the runs of a command on like keyspaces compare. -/
inductive TwinDeed (spec : CommandSpec) : Prop
  | alike (hn : spec.name ∉ apart) (h : ∀ (P : Prop) (env env' : Env) (argv : List Bytes) (db db' : Keyspace),
      env'.now = env.now → Like P env.now db db' → Alike P env.now (spec.fn env argv db) (spec.fn env' argv db'))
  | del (hn : spec.name = ascii "del" ∨ spec.name = ascii "unlink") (h : spec.fn = Cmd.del)
  | set (hn : spec.name = ascii "set") (h : spec.fn = Cmd.set)
  | spop (hn : spec.name = ascii "spop") (h : spec.fn = Cmd.spop)
  | vector (hn : spec.name ∉ apart) (h : ∀ env argv db, ∃ d, spec.fn env argv db =
      .markedIf d db (env.vector argv).1)

theorem twinDeeds : ∀ spec ∈ CommandTable.writers, TwinDeed spec := by
  simp only [CommandTable.writers, List.forall_mem_cons]
  exact ⟨.set rfl rfl,
    .alike (by decide) fun _ _ _ argv _ _ => Cmd.setnx_alike argv,
    .alike (by decide) fun _ _ _ argv _ _ => Cmd.setex_alike argv,
    .alike (by decide) fun _ _ _ argv _ _ => Cmd.setex_alike argv,
    .alike (by decide) fun _ _ _ argv _ _ => Cmd.getset_alike argv,
    .alike (by decide) fun _ _ _ argv _ _ => Cmd.append_alike argv,
    .alike (by decide) fun _ _ _ argv _ _ => Cmd.incrBy_alike argv 1,
    .alike (by decide) fun _ _ _ argv _ _ => Cmd.incrBy_alike argv (-1),
    .alike (by decide) fun _ _ _ argv _ _ => Cmd.incrby_alike argv,
    .alike (by decide) fun _ _ _ argv _ _ => Cmd.decrby_alike argv,
    .alike (by decide) fun _ _ _ argv _ _ => Cmd.incrbyfloat_alike argv,
    .alike (by decide) fun _ env env' argv _ _ _ => @Cmd.mset_alike _ env env' _ _ argv,
    .alike (by decide) fun _ _ _ argv _ _ => Cmd.setrange_alike argv,
    .del (.inl rfl) rfl,
    .del (.inr rfl) rfl,
    .alike (by decide) fun _ _ _ argv _ _ => Cmd.expireBy_alike argv (fun now secs => u64 (now + u64 (secs * 1000))),
    .alike (by decide) fun _ _ _ argv _ _ => Cmd.expireBy_alike argv (fun now ms => u64 (now + ms)),
    .alike (by decide) fun _ _ _ argv _ _ => Cmd.expireBy_alike argv (fun _ at' => u64 (at' * 1000)),
    .alike (by decide) fun _ _ _ argv _ _ => Cmd.persist_alike argv,
    .alike (by decide) fun _ _ _ argv _ _ => Cmd.rename_alike argv,
    .alike (by decide) fun _ _ _ argv _ _ => Cmd.hset_alike argv,
    .alike (by decide) fun _ _ _ argv _ _ => Cmd.hset_alike argv,
    .alike (by decide) fun _ _ _ argv _ _ => Cmd.hdel_alike argv,
    .alike (by decide) fun _ _ _ argv _ _ => Cmd.hincrby_alike argv,
    .alike (by decide) fun _ _ _ argv _ _ => Cmd.push_alike argv true,
    .alike (by decide) fun _ _ _ argv _ _ => Cmd.push_alike argv false,
    .alike (by decide) fun _ _ _ argv _ _ => Cmd.pop_alike argv true,
    .alike (by decide) fun _ _ _ argv _ _ => Cmd.pop_alike argv false,
    .alike (by decide) fun _ _ _ argv _ _ => Cmd.lset_alike argv,
    .alike (by decide) fun _ _ _ argv _ _ => Cmd.sadd_alike argv,
    .alike (by decide) fun _ _ _ argv _ _ => Cmd.srem_alike argv,
    .spop rfl rfl,
    .alike (by decide) fun _ _ _ argv _ _ => Cmd.zadd_alike argv,
    .alike (by decide) fun _ _ _ argv _ _ => Cmd.zrem_alike argv,
    .alike (by decide) fun _ _ _ argv _ _ => Cmd.zincrby_alike argv,
    .alike (by decide) fun _ _ _ argv _ _ => Cmd.pfadd_alike argv,
    .alike (by decide) fun _ _ _ argv _ _ => Cmd.pfmerge_alike argv,
    .vector (by decide) fun env argv _ => ⟨(env.vector argv).2, rfl⟩,
    .vector (by decide) fun env argv _ => ⟨(env.vector argv).2, rfl⟩, by simp⟩

section Spop

variable {s s' : Dict UInt8} {n : ℕ}

theorem mem_picked {m : Bytes} (h : m ∈ Cmd.picked s n) : (s.find m).isSome := by
  obtain ⟨⟨k, v⟩, he, rfl⟩ := List.mem_map.1 (List.mem_of_mem_take h)
  rw [(Dict.mem_forEach s k v).1 he]
  rfl

theorem isSome_foldl_erase (ms : List Bytes) (s : Dict UInt8) (k : Bytes) :
    ((ms.foldl Dict.erase s).find k).isSome = ((s.find k).isSome && !ms.contains k) := by
  induction ms generalizing s with
  | nil => simp
  | cons m ms ih =>
    rw [List.foldl_cons, ih, Dict.find_erase]
    by_cases hk : k = m <;> simp [hk]

/-- Taking members from two sets with the same members leaves the same members exactly
when the same ones are taken. -/
theorem picked_same_iff (hs : sameMembers s s') :
    sameMembers ((Cmd.picked s n).foldl Dict.erase s) ((Cmd.picked s' n).foldl Dict.erase s') ↔
      ∀ m, m ∈ Cmd.picked s n ↔ m ∈ Cmd.picked s' n := by
  have hin : ∀ m, (m ∈ Cmd.picked s n → (s.find m).isSome) ∧ (m ∈ Cmd.picked s' n → (s.find m).isSome) :=
    fun m => ⟨mem_picked, fun h => (hs m).trans (mem_picked h)⟩
  constructor
  · intro h m
    have hm := h m
    rw [isSome_foldl_erase, isSome_foldl_erase, hs m] at hm
    obtain ⟨h1, h2⟩ := hin m
    rw [hs m] at h1 h2
    constructor
    · intro hmem
      simpa [h1 hmem, hmem] using hm
    · intro hmem
      simpa [h2 hmem, hmem] using hm
  · intro h k
    rw [isSome_foldl_erase, isSome_foldl_erase, hs k]
    have : (Cmd.picked s n).contains k = (Cmd.picked s' n).contains k := by
      rw [Bool.eq_iff_iff]
      simpa using h k
    rw [this]

end Spop

/-- `SPOP` takes other members from the one table than from the other. -/
def spopDiffers (env : Env) (argv : List Bytes) (db db' : Keyspace) : Prop :=
  (∃ spec, route argv = .ok spec ∧ spec.name = ascii "spop") ∧ ∃ count ∈ Cmd.popCount argv,
    ∃ s ∈ (db.peek env.now (arg argv 1)).bind Object.set?, ∃ s' ∈ (db'.peek env.now (arg argv 1)).bind Object.set?,
      ¬ ∀ m, m ∈ Cmd.picked s count.toNat ↔ m ∈ Cmd.picked s' count.toNat

theorem sameObject.set {o o' : Option Object} (h : sameObject o o') {s : Dict UInt8}
    (hs : o.bind Object.set? = some s) : ∃ s', o'.bind Object.set? = some s' ∧ sameMembers s s' := by
  cases o with
  | none => cases hs
  | some o =>
    cases o' with
    | none => exact False.elim h
    | some o' =>
      cases o <;> cases o' <;> simp only [Option.bind_some, Object.set?, Option.some.injEq, reduceCtorEq] at hs <;>
        first | exact False.elim h | exact ⟨_, rfl, hs ▸ h⟩

theorem sameObject.symm {o o' : Option Object} (h : sameObject o o') : sameObject o' o := by
  cases o <;> cases o' <;> first | trivial | exact Object.Equiv.symm h

section Main

variable {env env' : Env} {argv : List Bytes} {db db' : Keyspace}

/-- The result of `SPOP` on a set. -/
theorem spop_eq {count : ℤ} {s : Dict UInt8} (hc : Cmd.popCount argv = some count)
    (hs : (db.peek env.now (arg argv 1)).bind Object.set? = some s) :
    let left := (Cmd.picked s count.toNat).foldl Dict.erase s
    (Cmd.spop env argv db).db = if left.size = 0 then (db.write (arg argv 1) (.set left)).erase (arg argv 1)
      else db.write (arg argv 1) (.set left) := by
  obtain ⟨o, ho, hset⟩ := Option.bind_eq_some_iff.1 hs
  have hf : found Object.set? (db.peek env.now (arg argv 1)) = .present s := (found_present _).2 ⟨o, ho, hset⟩
  simp only [Cmd.spop, Cmd.getSet, getAs_eq, hf, hc, lookup_of_peek _ _ _ _ ho]
  rfl

/-- Without a set or a count, `SPOP` only looks. -/
theorem spop_looks (h : Cmd.popCount argv = none ∨ (db.peek env.now (arg argv 1)).bind Object.set? = none) :
    (Cmd.spop env argv db).db = (db.lookup env.now (arg argv 1)).1 := by
  simp only [Cmd.spop, Cmd.getSet, getAs_eq]
  cases hf : found Object.set? (db.peek env.now (arg argv 1)) with
  | absent => cases Cmd.popCount argv <;> rfl
  | wrongType => rfl
  | present s =>
    obtain ⟨o, ho, hs⟩ := (found_present _).1 hf
    rcases h with h | h
    · simp [h]
    · simp [ho, hs] at h

theorem spop_contents_iff (hn : env'.now = env.now) (h : Contents db db') {count : ℤ} {s s' : Dict UInt8}
    (hc : Cmd.popCount argv = some count) (hs : (db.peek env.now (arg argv 1)).bind Object.set? = some s)
    (hs' : (db'.peek env.now (arg argv 1)).bind Object.set? = some s') (hE : sameMembers s s') :
    Contents (Cmd.spop env argv db).db (Cmd.spop env' argv db').db ↔
      ∀ m, m ∈ Cmd.picked s count.toNat ↔ m ∈ Cmd.picked s' count.toNat := by
  rw [← picked_same_iff hE]
  have hleft := spop_eq hc hs
  have hs'' := hs'
  rw [← hn] at hs''
  have hleft' := spop_eq hc hs''
  dsimp only at hleft hleft'
  rw [hleft, hleft']
  generalize (Cmd.picked s count.toNat).foldl Dict.erase s = left
  generalize (Cmd.picked s' count.toNat).foldl Dict.erase s' = left'
  have hset : ∀ {d : Keyspace} {t : Dict UInt8} (u : Dict UInt8),
      (d.peek env.now (arg argv 1)).bind Object.set? = some t →
        (d.write (arg argv 1) (.set u)).dict.find (arg argv 1) = some (.set u) := by
    intro d t u ht
    obtain ⟨o, ho, -⟩ := Option.bind_eq_some_iff.1 ht
    simp [find_of_peek _ _ _ _ ho]
  constructor
  · intro hcont
    have hkey := (hcont (arg argv 1)).1
    by_cases h0 : left.size = 0 <;> by_cases h0' : left'.size = 0
    · intro k
      rw [(Dict.size_eq_zero _).1 h0, (Dict.size_eq_zero _).1 h0']
    · rw [if_pos h0, if_neg h0', hset left' hs', find_dict_erase, if_pos rfl] at hkey
      exact False.elim hkey
    · rw [if_neg h0, if_pos h0', hset left hs, find_dict_erase, if_pos rfl] at hkey
      exact False.elim hkey
    · rw [if_neg h0, if_neg h0', hset left hs, hset left' hs'] at hkey
      exact hkey
  · intro hE'
    have hw := (h.like True env.now).write (arg argv 1) (.set hE')
    simp only [hE'.size_eq_zero]
    split_ifs
    · exact (hw.erase _).stored trivial
    · exact hw.stored trivial

theorem spopDiffers_ok {spec : CommandSpec} (hr : route argv = .ok spec) (hn : spec.name ≠ ascii "spop") :
    ¬spopDiffers env argv db db' := by
  rintro ⟨⟨spec', hr', hn'⟩, -⟩
  rw [hr] at hr'
  obtain rfl := Except.ok.inj hr'
  exact hn hn'

/-- A write other than `SPOP`, at one clock reading on two keyspaces with the same contents,
leaves the same contents. -/
theorem contents_kept {spec : CommandSpec} (hr : route argv = .ok spec) (hw : spec.write)
    (hs : spec.name ≠ ascii "spop") (hn : env'.now = env.now) (h : Contents db db') :
    Contents (execCore env argv db).db (execCore env' argv db').db := by
  simp only [execCore, hr]
  have hlike := h.like True env.now
  cases twinDeeds spec (mem_writers (find_mem (route_ok hr).1).1 hw) with
  | alike _ ha => exact (ha True env env' argv db db' hn hlike).db.stored trivial
  | vector _ hv =>
    obtain ⟨d, hd⟩ := hv env argv db
    obtain ⟨d', hd'⟩ := hv env' argv db'
    rw [hd, hd']
    exact h
  | del _ hf =>
    rw [hf]
    exact (Cmd.del_like argv hlike).stored trivial
  | set _ hf =>
    rw [hf]
    refine (Cmd.set_alike argv hn hlike fun opts _ _ _ _ _ => ?_).db.stored trivial
    have := ((hlike.lookup (arg argv 1)).stored trivial (arg argv 1)).2
    rw [Cmd.keptDeadline, Cmd.keptDeadline, deadlineOrZero, deadlineOrZero, this]
  | spop hs' _ => exact absurd hs' hs

/-- A write at one clock reading on two keyspaces with the same contents leaves the same
contents, unless it is an `SPOP` that finds other members first. -/
theorem contents_kept_iff {spec : CommandSpec} (hr : route argv = .ok spec) (hw : spec.write)
    (hn : env'.now = env.now) (h : Contents db db') :
    Contents (execCore env argv db).db (execCore env' argv db').db ↔ ¬spopDiffers env argv db db' := by
  by_cases hs : spec.name = ascii "spop"
  · have hspop : (∃ spec, route argv = .ok spec ∧ spec.name = ascii "spop") := ⟨spec, hr, hs⟩
    have hf : spec.fn = Cmd.spop := congrArg CommandSpec.fn (route_spec hr hs rfl)
    have hlike := h.like True env.now
    simp only [execCore, hr, hf]
    have hlook : (Cmd.popCount argv = none ∨ (db.peek env.now (arg argv 1)).bind Object.set? = none) →
        (Cmd.popCount argv = none ∨ (db'.peek env.now (arg argv 1)).bind Object.set? = none) →
          Contents (Cmd.spop env argv db).db (Cmd.spop env' argv db').db := by
      intro h1 h2
      rw [← hn] at h2
      rw [spop_looks h1, spop_looks h2, hn]
      exact (hlike.lookup _).stored trivial
    cases hc : Cmd.popCount argv with
    | none =>
      refine iff_of_true (hlook (.inl hc) (.inl hc)) ?_
      rintro ⟨_, _, hcount, _⟩
      simp [hc] at hcount
    | some count =>
      cases hset : (db.peek env.now (arg argv 1)).bind Object.set? with
      | none =>
        refine iff_of_true (hlook (.inr hset) (.inr ?_)) (by rintro ⟨_, _, _, _, hset', _⟩; simp [hset] at hset')
        by_contra hsome
        obtain ⟨s', hs'⟩ := Option.ne_none_iff_exists'.1 hsome
        have hpeek : sameObject (db'.peek env.now (arg argv 1)) (db.peek env.now (arg argv 1)) :=
          sameObject.symm (hlike.peek _)
        obtain ⟨s, hs, -⟩ := hpeek.set hs'
        rw [hset] at hs
        cases hs
      | some s =>
        obtain ⟨s', hset', hE⟩ := (hlike.peek (arg argv 1)).set hset
        rw [spop_contents_iff hn h hc hset hset' hE]
        simp [spopDiffers, hspop, hc, hset, hset']
  · exact iff_of_true (contents_kept hr hw hs hn h) (spopDiffers_ok hr hs)

/-- A set of two members that share a first slot, added in both orders. -/
theorem pair_contents (key m m' : Bytes) :
    Contents (Keyspace.empty.set key (.set ((Dict.empty.insert m 1).insert m' 1)))
      (Keyspace.empty.set key (.set ((Dict.empty.insert m' 1).insert m 1))) := by
  intro k
  rw [find_dict_set, find_dict_set]
  refine ⟨?_, by simp⟩
  split_ifs
  · intro x
    simp only [Dict.find_insert, Dict.find_empty]
    split_ifs <;> rfl
  · rw [find_dict_empty]
    trivial

theorem contents_kept_srem : Contents
    (execCore (.quiet 0) [ascii "SREM", [107], [97]]
      (Keyspace.empty.set [107] (.set ((Dict.empty.insert [97] 1).insert [98] 1)))).db
    (execCore (.quiet 0) [ascii "SREM", [107], [97]]
      (Keyspace.empty.set [107] (.set ((Dict.empty.insert [98] 1).insert [97] 1)))).db := by
  obtain ⟨spec, hr, hw, hs⟩ : ∃ spec, route [ascii "SREM", [107], [97]] = .ok spec ∧ spec.write = true ∧
    spec.name = ascii "srem" := ⟨_, rfl, rfl, rfl⟩
  exact (contents_kept_iff hr hw rfl (pair_contents [107] [97] [98])).2
    (spopDiffers_ok hr (by rw [hs]; decide))

/-- `SPOP k` takes the member that was added first. -/
theorem spop_by_layout : ¬ ∀ (env : Env) (argv : List Bytes) (spec : CommandSpec) (db db' : Keyspace),
    route argv = .ok spec → spec.write → Contents db db' →
      Contents (execCore env argv db).db (execCore env argv db').db := by
  intro h
  have hcont := h (.quiet 0) [ascii "SPOP", [107]] ⟨ascii "spop", Cmd.spop, -2, true, 1, 1, 1⟩ _ _ rfl rfl
    (pair_contents [107] [97] [98]) [107]
  have hleft : (((execCore (.quiet 0) [ascii "SPOP", [107]]
      (Keyspace.empty.set [107] (.set ((Dict.empty.insert [97] 1).insert [98] 1)))).db.dict.find [107]).bind
        Object.set?).any (fun s => (s.find [97]).isNone && (s.find [98]).isSome) = true := by decide +kernel
  have hleft' : (((execCore (.quiet 0) [ascii "SPOP", [107]]
      (Keyspace.empty.set [107] (.set ((Dict.empty.insert [98] 1).insert [97] 1)))).db.dict.find [107]).bind
        Object.set?).any (fun s => (s.find [97]).isSome) = true := by decide +kernel
  obtain ⟨s, hs, ha⟩ := (Option.any_eq_true _ _).1 hleft
  obtain ⟨s', hs', ha'⟩ := (Option.any_eq_true _ _).1 hleft'
  obtain ⟨t, ht, hE⟩ := sameObject.set hcont.1 hs
  rw [hs'] at ht
  obtain rfl := Option.some.inj ht
  have := hE [97]
  simp only [Bool.and_eq_true, Option.isNone_iff_eq_none] at ha
  rw [ha.1, ha'] at this
  cases this

end Main

end BlazeKV
