import BlazeKV.Proofs.Expiry

/-! A command that writes values of one kind, on a key that holds another kind. The HyperLogLog
commands take any string. -/

namespace BlazeKV

open Keyspace

def stringWrites : List Bytes := [ascii "incr", ascii "decr", ascii "incrby", ascii "decrby", ascii "incrbyfloat",
  ascii "append", ascii "setrange", ascii "getset"]
def hashWrites : List Bytes := [ascii "hset", ascii "hmset", ascii "hdel", ascii "hincrby"]
def listWrites : List Bytes := [ascii "lpush", ascii "rpush", ascii "lpop", ascii "rpop", ascii "lset"]
def setWrites : List Bytes := [ascii "sadd", ascii "srem", ascii "spop"]
def zsetWrites : List Bytes := [ascii "zadd", ascii "zrem", ascii "zincrby"]
def hllWrites : List Bytes := [ascii "pfadd", ascii "pfmerge"]

/-- The writes that are for values of one kind. -/
def typedWrites : List Bytes := stringWrites ++ hashWrites ++ listWrites ++ setWrites ++ zsetWrites ++ hllWrites

/-- The value is of the kind that the command is for; a HyperLogLog is a string of registers. -/
def rightKind (name : Bytes) (o : Object) : Bool :=
  if name ∈ stringWrites then o.string?.isSome
  else if name ∈ hashWrites then o.hash?.isSome
  else if name ∈ listWrites then o.list?.isSome
  else if name ∈ setWrites then o.set?.isSome
  else if name ∈ zsetWrites then o.zset?.isSome
  else o.str?.any fun s => s.length = Hll.kRegisters

/-- The command replies with an error and leaves the value and the deadline of its key. -/
def RefusesKey (env : Env) (argv : List Bytes) (db : Keyspace) : Prop :=
  isError (execCore env argv db).reply ∧
    (execCore env argv db).db.dict.find (arg argv 1) = db.dict.find (arg argv 1) ∧
    (execCore env argv db).db.expires.find (arg argv 1) = db.expires.find (arg argv 1)

/-- A handler that refuses the values without a view. -/
def RefusesOthers {α : Type} (view : Object → Option α) (fn : Handler) : Prop :=
  ∀ (env : Env) (argv : List Bytes) (db : Keyspace) (o : Object), db.peek env.now (arg argv 1) = some o → view o = none →
    isError (fn env argv db).reply ∧ (fn env argv db).db = db

section Views

variable {α : Type} {view : Object → Option α} {db : Keyspace} {now : ℕ} {key : Bytes} {o : Object}

theorem getAs_wrongType (hp : db.peek now key = some o) (hv : view o = none) : getAs view db now key = (db, .wrongType) := by
  rw [getAs_eq, found_of_none view hp hv, lookup_of_peek _ _ _ _ hp]

theorem getOrMake_wrongType (hp : db.peek now key = some o) (hv : view o = none) (make : α → Object) (fresh : α) :
    getOrMake view make fresh db now key = (db, none) := by
  rw [getOrMake_eq, found_of_none view hp hv, lookup_of_peek _ _ _ _ hp]

end Views

namespace Cmd

theorem incrBy_refuses (delta : ℤ) : RefusesOthers Object.string? (incrBy delta) := by
  intro env argv db o hp hv
  simp only [incrBy, getString, getAs_wrongType hp hv]
  exact ⟨rfl, rfl⟩

theorem incrby_refuses : RefusesOthers Object.string? incrby := by
  intro env argv db o hp hv
  unfold incrby
  split
  · exact ⟨rfl, rfl⟩
  · exact incrBy_refuses _ env argv db o hp hv

theorem decrby_refuses : RefusesOthers Object.string? decrby := by
  intro env argv db o hp hv
  unfold decrby
  split
  · exact ⟨rfl, rfl⟩
  · exact incrBy_refuses _ env argv db o hp hv

theorem incrbyfloat_refuses : RefusesOthers Object.string? incrbyfloat := by
  intro env argv db o hp hv
  simp only [incrbyfloat, getString, getAs_wrongType hp hv]
  split <;> exact ⟨rfl, rfl⟩

theorem append_refuses : RefusesOthers Object.string? append := by
  intro env argv db o hp hv
  simp only [append, getString, getAs_wrongType hp hv]
  exact ⟨rfl, rfl⟩

theorem setrange_refuses : RefusesOthers Object.string? setrange := by
  intro env argv db o hp hv
  simp only [setrange, getString, getAs_wrongType hp hv]
  split
  · exact ⟨rfl, rfl⟩
  · split_ifs <;> exact ⟨rfl, rfl⟩

theorem getset_refuses : RefusesOthers Object.string? getset := by
  intro env argv db o hp hv
  simp only [getset, getString, getAs_wrongType hp hv]
  exact ⟨rfl, rfl⟩

theorem hset_refuses : RefusesOthers Object.hash? hset := by
  intro env argv db o hp hv
  simp only [hset, makeHash, getOrMake_wrongType hp hv]
  split_ifs <;> exact ⟨rfl, rfl⟩

theorem hdel_refuses : RefusesOthers Object.hash? hdel := by
  intro env argv db o hp hv
  simp only [hdel, getHash, getAs_wrongType hp hv]
  exact ⟨rfl, rfl⟩

theorem hincrby_refuses : RefusesOthers Object.hash? hincrby := by
  intro env argv db o hp hv
  simp only [hincrby, makeHash, getOrMake_wrongType hp hv]
  split <;> exact ⟨rfl, rfl⟩

theorem push_refuses (head : Bool) : RefusesOthers Object.list? (push head) := by
  intro env argv db o hp hv
  simp only [push, makeList, getOrMake_wrongType hp hv]
  exact ⟨rfl, rfl⟩

theorem pop_refuses (head : Bool) : RefusesOthers Object.list? (pop head) := by
  intro env argv db o hp hv
  simp only [pop, getList, getAs_wrongType hp hv]
  exact ⟨rfl, rfl⟩

theorem lset_refuses : RefusesOthers Object.list? lset := by
  intro env argv db o hp hv
  simp only [lset, getList, getAs_wrongType hp hv]
  exact ⟨rfl, rfl⟩

theorem sadd_refuses : RefusesOthers Object.set? sadd := by
  intro env argv db o hp hv
  simp only [sadd, makeSet, getOrMake_wrongType hp hv]
  exact ⟨rfl, rfl⟩

theorem srem_refuses : RefusesOthers Object.set? srem := by
  intro env argv db o hp hv
  simp only [srem, getSet, getAs_wrongType hp hv]
  exact ⟨rfl, rfl⟩

theorem spop_refuses : RefusesOthers Object.set? spop := by
  intro env argv db o hp hv
  simp only [spop, getSet, getAs_wrongType hp hv]
  exact ⟨rfl, rfl⟩

theorem zadd_refuses : RefusesOthers Object.zset? zadd := by
  intro env argv db o hp hv
  rw [zadd_eq, found_of_none Object.zset? hp hv, lookup_of_peek _ _ _ _ hp]
  split_ifs <;> exact ⟨rfl, rfl⟩

theorem zrem_refuses : RefusesOthers Object.zset? zrem := by
  intro env argv db o hp hv
  simp only [zrem, getZSet, getAs_wrongType hp hv]
  exact ⟨rfl, rfl⟩

theorem zincrby_refuses : RefusesOthers Object.zset? zincrby := by
  intro env argv db o hp hv
  simp only [zincrby, makeZSet, getOrMake_wrongType hp hv]
  split <;> exact ⟨rfl, rfl⟩

theorem pfadd_refuses : RefusesOthers Object.str? pfadd := by
  intro env argv db o hp hv
  simp only [pfadd, getHll, getAs_wrongType hp hv]
  exact ⟨rfl, rfl⟩

/-- `PFADD` takes any string, and `PFMERGE` any value. -/
theorem pfadd_takes (env : Env) (argv : List Bytes) (db : Keyspace) {o : Object} {s : Bytes}
    (hp : db.peek env.now (arg argv 1) = some o) (hs : o.str? = some s) : isError (pfadd env argv db).reply = false := by
  have hf : found Object.str? (db.peek env.now (arg argv 1)) = .present s := (found_present _).2 ⟨o, hp, hs⟩
  simp only [pfadd, getHll, getAs_eq, hf]
  exact isError_integer _

end Cmd

section Families

variable {argv : List Bytes} {spec : CommandSpec}

theorem strings_refuse (hr : route argv = .ok spec) (hn : spec.name ∈ stringWrites) :
    RefusesOthers Object.string? spec.fn := by
  simp only [stringWrites, List.mem_cons, List.not_mem_nil, or_false] at hn
  rcases hn with hn | hn | hn | hn | hn | hn | hn | hn <;> rw [route_spec hr hn rfl]
  · exact Cmd.incrBy_refuses 1
  · exact Cmd.incrBy_refuses (-1)
  · exact Cmd.incrby_refuses
  · exact Cmd.decrby_refuses
  · exact Cmd.incrbyfloat_refuses
  · exact Cmd.append_refuses
  · exact Cmd.setrange_refuses
  · exact Cmd.getset_refuses

theorem hashes_refuse (hr : route argv = .ok spec) (hn : spec.name ∈ hashWrites) : RefusesOthers Object.hash? spec.fn := by
  simp only [hashWrites, List.mem_cons, List.not_mem_nil, or_false] at hn
  rcases hn with hn | hn | hn | hn <;> rw [route_spec hr hn rfl]
  · exact Cmd.hset_refuses
  · exact Cmd.hset_refuses
  · exact Cmd.hdel_refuses
  · exact Cmd.hincrby_refuses

theorem lists_refuse (hr : route argv = .ok spec) (hn : spec.name ∈ listWrites) : RefusesOthers Object.list? spec.fn := by
  simp only [listWrites, List.mem_cons, List.not_mem_nil, or_false] at hn
  rcases hn with hn | hn | hn | hn | hn <;> rw [route_spec hr hn rfl]
  · exact Cmd.push_refuses true
  · exact Cmd.push_refuses false
  · exact Cmd.pop_refuses true
  · exact Cmd.pop_refuses false
  · exact Cmd.lset_refuses

theorem sets_refuse (hr : route argv = .ok spec) (hn : spec.name ∈ setWrites) : RefusesOthers Object.set? spec.fn := by
  simp only [setWrites, List.mem_cons, List.not_mem_nil, or_false] at hn
  rcases hn with hn | hn | hn <;> rw [route_spec hr hn rfl]
  · exact Cmd.sadd_refuses
  · exact Cmd.srem_refuses
  · exact Cmd.spop_refuses

theorem zsets_refuse (hr : route argv = .ok spec) (hn : spec.name ∈ zsetWrites) : RefusesOthers Object.zset? spec.fn := by
  simp only [zsetWrites, List.mem_cons, List.not_mem_nil, or_false] at hn
  rcases hn with hn | hn | hn <;> rw [route_spec hr hn rfl]
  · exact Cmd.zadd_refuses
  · exact Cmd.zrem_refuses
  · exact Cmd.zincrby_refuses

/-- The families have no command in common. -/
theorem families_apart : (∀ n ∈ hashWrites, n ∉ stringWrites) ∧ (∀ n ∈ listWrites, n ∉ stringWrites ++ hashWrites) ∧
    (∀ n ∈ setWrites, n ∉ stringWrites ++ hashWrites ++ listWrites) ∧
    (∀ n ∈ zsetWrites, n ∉ stringWrites ++ hashWrites ++ listWrites ++ setWrites) ∧
    ∀ n ∈ stringWrites ++ hashWrites ++ listWrites ++ setWrites ++ zsetWrites, n ≠ ascii "pfmerge" ∧ n ≠ ascii "pfadd" := by
  decide +kernel

variable {env : Env} {db : Keyspace} {o : Object}

theorem refusesKey_of {α : Type} {view : Object → Option α} (hr : route argv = .ok spec) (h : RefusesOthers view spec.fn)
    (hp : db.peek env.now (arg argv 1) = some o) (hv : view o = none) : RefusesKey env argv db := by
  obtain ⟨herr, hdb⟩ := h env argv db o hp hv
  have hrun : (execCore env argv db).db = db ∧ (execCore env argv db).reply = (spec.fn env argv db).reply := by
    simp only [execCore, hr, hdb, and_self]
  rw [RefusesKey, hrun.1, hrun.2]
  exact ⟨herr, rfl, rfl⟩

/-- The HyperLogLog commands: `PFADD` refuses what is no string, `PFMERGE` nothing. -/
theorem hll_refuses_iff (hr : route argv = .ok spec) (hn : spec.name ∈ hllWrites)
    (hp : db.peek env.now (arg argv 1) = some o) :
    RefusesKey env argv db ↔ spec.name = ascii "pfadd" ∧ o.str? = none := by
  simp only [hllWrites, List.mem_cons, List.not_mem_nil, or_false] at hn
  rcases hn with hn | hn
  · cases hs : o.str? with
    | none =>
      have href : RefusesOthers Object.str? spec.fn := by
        rw [route_spec hr hn rfl]
        exact Cmd.pfadd_refuses
      exact iff_of_true (refusesKey_of hr href hp hs) ⟨hn, rfl⟩
    | some s =>
      have hrep : isError (execCore env argv db).reply = false := by
        simp only [execCore, hr, route_spec hr hn rfl]
        exact Cmd.pfadd_takes env argv db hp hs
      exact iff_of_false (fun h => by simp [RefusesKey, hrep] at h) (by simp)
  · have hrep : isError (execCore env argv db).reply = false := by
      simp only [execCore, hr, route_spec hr hn rfl]
      exact isError_simpleString _
    refine iff_of_false (fun h => by simp [RefusesKey, hrep] at h) fun h => ?_
    rw [hn] at h
    exact absurd h.1 (by decide)

/-- A write for values of one kind refuses a key that holds another kind, unless it is `PFMERGE`, or
`PFADD` on a string that is no HyperLogLog. -/
theorem wrong_kind_refused_iff (hr : route argv = .ok spec) (hn : spec.name ∈ typedWrites)
    (hp : db.peek env.now (arg argv 1) = some o) (hk : rightKind spec.name o = false) :
    RefusesKey env argv db ↔ spec.name ≠ ascii "pfmerge" ∧ ¬(spec.name = ascii "pfadd" ∧ o.str?.isSome) := by
  obtain ⟨hhash, hlist, hset, hzset, hhll⟩ := families_apart
  simp only [typedWrites, List.mem_append] at hn hlist hset hzset hhll
  have hplain := fun h => (⟨(hhll _ h).1, fun hc => (hhll _ h).2 hc.1⟩ :
    spec.name ≠ ascii "pfmerge" ∧ ¬(spec.name = ascii "pfadd" ∧ o.str?.isSome))
  unfold rightKind at hk
  rcases hn with ((((hn | hn) | hn) | hn) | hn) | hn
  · refine iff_of_true (refusesKey_of hr (strings_refuse hr hn) hp ?_) (hplain (.inl (.inl (.inl (.inl hn)))))
    simpa [hn] using hk
  · refine iff_of_true (refusesKey_of hr (hashes_refuse hr hn) hp ?_) (hplain (.inl (.inl (.inl (.inr hn)))))
    simpa [hn, hhash _ hn] using hk
  · have hno := hlist _ hn
    rw [not_or] at hno
    refine iff_of_true (refusesKey_of hr (lists_refuse hr hn) hp ?_) (hplain (.inl (.inl (.inr hn))))
    simpa [hn, hno] using hk
  · have hno := hset _ hn
    rw [not_or, not_or] at hno
    refine iff_of_true (refusesKey_of hr (sets_refuse hr hn) hp ?_) (hplain (.inl (.inr hn)))
    simpa [hn, hno] using hk
  · have hno := hzset _ hn
    rw [not_or, not_or, not_or] at hno
    refine iff_of_true (refusesKey_of hr (zsets_refuse hr hn) hp ?_) (hplain (.inr hn))
    simpa [hn, hno] using hk
  · rw [hll_refuses_iff hr hn hp]
    simp only [hllWrites, List.mem_cons, List.not_mem_nil, or_false] at hn
    rcases hn with hn | hn <;> simp +decide [hn]

theorem wrong_kind_refused_lpush :
    RefusesKey (.quiet 5) [ascii "LPUSH", [97], [98]] (Keyspace.empty.set [97] (.string [99])) := by
  have hr : route [ascii "LPUSH", [97], [98]] = .ok ⟨ascii "lpush", Cmd.lpush, -3, true, 1, 1, 1⟩ := rfl
  have hp : (Keyspace.empty.set [97] (.string [99])).peek (Env.quiet 5).now [97] = some (.string [99]) := by
    simp [peek, dead]
  exact (wrong_kind_refused_iff hr (by decide) hp (by decide)).2 ⟨by decide, by decide⟩

/-- `PFADD a x` on the string `hello` replaces it by registers. -/
theorem pfadd_replaces_string : ¬ ∀ (env : Env) (argv : List Bytes) (db : Keyspace) (spec : CommandSpec) (o : Object),
    route argv = .ok spec → spec.name ∈ typedWrites → db.peek env.now (arg argv 1) = some o →
      rightKind spec.name o = false → RefusesKey env argv db := by
  intro h
  have hp : (Keyspace.empty.set [97] (.string (ascii "hello"))).peek (Env.quiet 5).now [97] = some (.string (ascii "hello")) := by
    simp [peek, dead]
  obtain ⟨herr, -⟩ := h (.quiet 5) [ascii "PFADD", [97], [120]] (Keyspace.empty.set [97] (.string (ascii "hello")))
    ⟨ascii "pfadd", Cmd.pfadd, -2, true, 1, 1, 1⟩ (.string (ascii "hello")) rfl (by decide) hp (by decide)
  have hno := Cmd.pfadd_takes (.quiet 5) [ascii "PFADD", [97], [120]] _ hp rfl
  exact absurd (herr.symm.trans hno) (by decide)

end Families

end BlazeKV
