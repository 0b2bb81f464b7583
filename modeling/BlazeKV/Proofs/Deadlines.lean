import BlazeKV.Proofs.CommandEffects

/-! Which commands change the deadline of a key that stays. -/

namespace BlazeKV

open Keyspace

/-- A key that is live before and after has the deadline it had. -/
def Kept (now : ℕ) (db db' : Keyspace) : Prop :=
  ∀ k e e', db.live now k = some e → db'.live now k = some e' → e'.2 = e.2

attribute [grind =] Result.clean_db Result.marked_db Result.markedIf_db

namespace Kept

variable {now : ℕ} {db db' : Keyspace} {K : Bytes → Prop} (key : Bytes) (o : Object)

@[grind →] theorem of_looked (h : Looked K now db db') : Kept now db db' := by
  intro k e e' he he'
  rw [h.live now (le_refl now), he] at he'
  rw [Option.some.inj he']

@[grind .] theorem refl (now : ℕ) (db : Keyspace) : Kept now db db :=
  of_looked (.refl (K := fun _ => True) now db)

@[grind .] theorem lookup (now : ℕ) (db : Keyspace) (key : Bytes) : Kept now db (db.lookup now key).1 :=
  of_looked (.one (K := fun _ => True) now db trivial)

@[grind .] theorem write (h : Kept now db db') : Kept now db (db'.write key o) := by
  intro k e e' he he'
  rw [live_write] at he'
  split_ifs at he' with hk
  · subst hk
    obtain ⟨x, hx, rfl⟩ := Option.map_eq_some_iff.1 he'
    exact h k e x he hx
  · exact h k e e' he he'

@[grind .] theorem erase (h : Kept now db db') : Kept now db (db'.erase key) := by
  intro k e e' he he'
  rw [live_erase] at he'
  split_ifs at he'
  exact h k e e' he he'

/-- A key that was not there may be set. -/
@[grind .] theorem set (h : Kept now db db') (hn : db.peek now key = none) : Kept now db (db'.set key o) := by
  intro k e e' he he'
  rw [live_set] at he'
  split_ifs at he' with hk
  · subst hk
    simp [live, hn] at he
  · exact h k e e' he he'

theorem of_none (h : ∀ k, db'.live now k = none) : Kept now db db' := by
  intro k e e' he he'
  rw [h] at he'
  cases he'

end Kept

attribute [grind =] found_absent

/-! The handlers that change a value in place. -/

namespace Cmd

variable (env : Env) (argv : List Bytes) (db : Keyspace)

theorem append_kept : Kept env.now db (append env argv db).db := by
  simp only [append, getString, getAs_eq]
  grind

theorem hset_kept : Kept env.now db (hset env argv db).db := by
  simp only [hset, makeHash, getOrMake_eq]
  grind

theorem hdel_kept : Kept env.now db (hdel env argv db).db := by
  simp only [hdel, getHash, getAs_eq]
  grind

theorem hincrby_kept : Kept env.now db (hincrby env argv db).db := by
  have hfresh : fieldInt .empty (arg argv 2) = some 0 := by simp [fieldInt]
  simp only [hincrby, makeHash, getOrMake_eq]
  grind

theorem push_kept (head : Bool) : Kept env.now db (push head env argv db).db := by
  simp only [push, makeList, getOrMake_eq]
  grind

theorem pop_kept (head : Bool) : Kept env.now db (pop head env argv db).db := by
  simp only [pop, getList, getAs_eq]
  grind

theorem lset_kept : Kept env.now db (lset env argv db).db := by
  simp only [lset, getList, getAs_eq]
  grind

theorem sadd_kept : Kept env.now db (sadd env argv db).db := by
  simp only [sadd, makeSet, getOrMake_eq]
  grind

theorem srem_kept : Kept env.now db (srem env argv db).db := by
  simp only [srem, getSet, getAs_eq]
  grind

theorem spop_kept : Kept env.now db (spop env argv db).db := by
  simp only [spop, getSet, getAs_eq]
  grind

theorem zrem_kept : Kept env.now db (zrem env argv db).db := by
  simp only [zrem, getZSet, getAs_eq]
  grind

theorem zincrby_kept : Kept env.now db (zincrby env argv db).db := by
  simp only [zincrby, makeZSet, getOrMake_eq]
  grind

theorem zadd_kept : Kept env.now db (zadd env argv db).db := by
  have hon : ∀ db' z, Kept env.now db db' → Kept env.now db (zaddOn env argv db' z).db := by
    intro db' z h
    simp only [zaddOn]
    grind
  rw [zadd_eq]
  grind

theorem setnx_kept : Kept env.now db (setnx env argv db).db := by
  simp only [setnx, lookup_eq]
  have := Kept.lookup env.now db (arg argv 1)
  rw [lookup_eq] at this
  grind

theorem del_kept : Kept env.now db (del env argv db).db :=
  countLoop_keeps _ (fun _ k _ h => h.erase k) (.refl env.now db)

end Cmd

/-! The handlers that set a new object, and so drop the deadline. -/

/-- A key that is live has no deadline. -/
def Fresh (now : ℕ) (key : Bytes) (db : Keyspace) : Prop := ∀ e, db.live now key = some e → e.2 = none

@[grind .] theorem Fresh.set (now : ℕ) (key : Bytes) (db : Keyspace) (o : Object) : Fresh now key (db.set key o) := by
  intro e he
  rw [live_set, if_pos rfl] at he
  rw [← Option.some.inj he]

@[grind =] theorem isError_errWrongType : isError errWrongType = true := rfl
@[grind =] theorem isError_errNotInt : isError errNotInt = true := rfl
@[grind =] theorem isError_errNotFloat : isError errNotFloat = true := rfl

attribute [grind =] Result.clean_reply

@[grind =] theorem Result.marked_reply (db : Keyspace) (reply : Bytes) :
    (Result.marked db reply).reply = reply := rfl

namespace Cmd

variable (env : Env) (argv : List Bytes) (db : Keyspace)

theorem incrBy_fresh (delta : ℤ) (h : isError (incrBy delta env argv db).reply = false) :
    Fresh env.now (arg argv 1) (incrBy delta env argv db).db := by
  revert h
  simp only [incrBy, getString, getAs_eq]
  grind

theorem incrby_fresh (h : isError (incrby env argv db).reply = false) :
    Fresh env.now (arg argv 1) (incrby env argv db).db := by
  revert h
  simp only [incrby]
  have := fun d => incrBy_fresh env argv db d
  grind

theorem decrby_fresh (h : isError (decrby env argv db).reply = false) :
    Fresh env.now (arg argv 1) (decrby env argv db).db := by
  revert h
  simp only [decrby]
  have := fun d => incrBy_fresh env argv db d
  grind

theorem incrbyfloat_fresh (h : isError (incrbyfloat env argv db).reply = false) :
    Fresh env.now (arg argv 1) (incrbyfloat env argv db).db := by
  revert h
  simp only [incrbyfloat, getString, getAs_eq]
  grind

theorem setrange_fresh (h : isError (setrange env argv db).reply = false) :
    Fresh env.now (arg argv 1) (setrange env argv db).db := by
  revert h
  simp only [setrange, getString, getAs_eq]
  grind

/-- Some element of `PFADD` raises a register. -/
def pfRaises (argv : List Bytes) (regs : Bytes) : Bool :=
  ((argv.drop 2).foldl (fun r x => ((Hll.add r.1 x).1, r.2 || (Hll.add r.1 x).2)) (regs, false)).2

theorem pfadd_present {o : Object} {regs : Bytes} (ho : db.peek env.now (arg argv 1) = some o)
    (hr : o.str? = some regs) :
    if pfRaises argv regs then Fresh env.now (arg argv 1) (pfadd env argv db).db
    else (pfadd env argv db).db = db := by
  have hf : found Object.str? (db.peek env.now (arg argv 1)) = .present regs :=
    (found_present _).2 ⟨o, ho, hr⟩
  simp only [pfadd, getHll, getAs_eq, hf, pfRaises, lookup_of_peek db env.now _ o ho]
  grind

/-- What `SET` reads from its options. -/
def setArgs (env : Env) (argv : List Bytes) : Except Bytes SetOpts :=
  setOpts env.now ⟨0, false, false, false, false⟩ (argv.drop 3)

/-- `SET` on a live key: the write, unless `NX` refuses it. -/
theorem set_present {o : Object} (ho : db.peek env.now (arg argv 1) = some o) {opts : SetOpts}
    (hopts : setArgs env argv = .ok opts) : (set env argv db).db =
      if opts.nx ∧ o.string?.isSome then db else setWrite opts db (arg argv 1) (arg argv 2) := by
  unfold setArgs at hopts
  simp only [set, hopts, lookup_of_peek db env.now _ o ho, Option.bind_some]
  grind

end Cmd

theorem live_deadline {db : Keyspace} {now : ℕ} {k : Bytes} {e : Entry} (h : db.live now k = some e) :
    db.expires.find k = e.2 := by
  obtain ⟨x, -, rfl⟩ := Option.map_eq_some_iff.1 h
  rfl

theorem peek_of_entry {db : Keyspace} {now : ℕ} {k : Bytes} {e : Entry} (h : db.live now k = some e) :
    db.peek now k = some e.1 := by
  obtain ⟨x, hx, rfl⟩ := Option.map_eq_some_iff.1 h
  exact hx

theorem Only.live {K : Bytes → Prop} {db db' : Keyspace} (h : Only K db db') (now : ℕ) {k : Bytes} (hk : ¬K k) :
    db'.live now k = db.live now k := live_congr (h k hk).1 (h k hk).2 now

/-- The deadline of a live key is still to come. -/
theorem deadline_pos {db : Keyspace} {now d : ℕ} {k : Bytes} {o : Object}
    (h : db.live now k = some (o, some d)) : 0 < d := by
  have hd := live_deadline h
  have hp := peek_of_entry h
  by_contra h0
  have hdead : db.dead now k = true := by
    rw [dead, hd]
    simp
    omega
  simp [peek, hdead] at hp

/-- What `SET` with `KEEPTTL` makes of a deadline. -/
theorem setWrite_deadline {db : Keyspace} {now d : ℕ} {key val : Bytes} {o : Object} {opts : Cmd.SetOpts}
    (hk : opts.keepttl) (h : db.live now key = some (o, some d)) :
    (Cmd.setWrite opts db key val).expires.find key = some (if opts.deadline ≠ 0 then opts.deadline else d) := by
  have hdl : db.deadlineOrZero key = d := by simp [deadlineOrZero, live_deadline h]
  have hpos := deadline_pos h
  simp only [Cmd.setWrite, hk, if_true, hdl]
  by_cases h0 : opts.deadline = 0
  · simp [h0, hpos.ne']
  · simp [h0]

/-! The table. -/

/-- The commands that replace the whole value, or are about deadlines. -/
def overwriters : List Bytes :=
  [ascii "mset", ascii "getset", ascii "setex", ascii "psetex", ascii "rename", ascii "pfmerge",
   ascii "expire", ascii "pexpire", ascii "expireat", ascii "persist"]

/-- The in-place updates that set a new object. -/
def droppers : List Bytes :=
  [ascii "incr", ascii "decr", ascii "incrby", ascii "decrby", ascii "incrbyfloat", ascii "setrange"]

inductive TtlDeed (spec : CommandSpec) : Prop
  | keeps (hd : spec.name ∉ droppers ++ [ascii "pfadd", ascii "set"])
      (h : ∀ env argv db, Kept env.now db (spec.fn env argv db).db)
  | drops (hd : spec.name ∈ droppers) (hf : ∀ env argv db, isError (spec.fn env argv db).reply = false →
      Fresh env.now (arg argv 1) (spec.fn env argv db).db)
      (ho : ∀ env argv db, Only (arg argv 1 = ·) db (spec.fn env argv db).db)
  | pfadd (hn : spec.name = ascii "pfadd") (h : spec.fn = Cmd.pfadd)
  | set (hn : spec.name = ascii "set") (h : spec.fn = Cmd.set)
  | overwrites (h : spec.name ∈ overwriters)

theorem ttlDeeds : ∀ spec ∈ CommandTable.writers, TtlDeed spec := by
  simp only [CommandTable.writers, List.forall_mem_cons]
  exact ⟨.set rfl rfl,
    .keeps (by decide) Cmd.setnx_kept,
    .overwrites (by decide),
    .overwrites (by decide),
    .overwrites (by decide),
    .keeps (by decide) Cmd.append_kept,
    .drops (by decide) (fun env argv db => Cmd.incrBy_fresh env argv db 1)
      fun env argv db => (Cmd.incrBy_tame db env argv 1 rfl).only,
    .drops (by decide) (fun env argv db => Cmd.incrBy_fresh env argv db (-1))
      fun env argv db => (Cmd.incrBy_tame db env argv (-1) rfl).only,
    .drops (by decide) Cmd.incrby_fresh
      fun env argv db => (Cmd.incrby_tame db env argv rfl).only,
    .drops (by decide) Cmd.decrby_fresh
      fun env argv db => (Cmd.decrby_tame db env argv rfl).only,
    .drops (by decide) Cmd.incrbyfloat_fresh
      fun env argv db => (Cmd.incrbyfloat_tame db env argv rfl).only,
    .overwrites (by decide),
    .drops (by decide) Cmd.setrange_fresh
      fun env argv db => (Cmd.setrange_tame db env argv rfl).only,
    .keeps (by decide) fun env argv db => Cmd.del_kept env argv db,
    .keeps (by decide) fun env argv db => Cmd.del_kept env argv db,
    .overwrites (by decide),
    .overwrites (by decide),
    .overwrites (by decide),
    .overwrites (by decide),
    .overwrites (by decide),
    .keeps (by decide) Cmd.hset_kept,
    .keeps (by decide) Cmd.hset_kept,
    .keeps (by decide) Cmd.hdel_kept,
    .keeps (by decide) Cmd.hincrby_kept,
    .keeps (by decide) fun env argv db => Cmd.push_kept env argv db true,
    .keeps (by decide) fun env argv db => Cmd.push_kept env argv db false,
    .keeps (by decide) fun env argv db => Cmd.pop_kept env argv db true,
    .keeps (by decide) fun env argv db => Cmd.pop_kept env argv db false,
    .keeps (by decide) Cmd.lset_kept,
    .keeps (by decide) Cmd.sadd_kept,
    .keeps (by decide) Cmd.srem_kept,
    .keeps (by decide) Cmd.spop_kept,
    .keeps (by decide) Cmd.zadd_kept,
    .keeps (by decide) Cmd.zrem_kept,
    .keeps (by decide) Cmd.zincrby_kept,
    .pfadd rfl rfl,
    .overwrites (by decide),
    .keeps (by decide) fun env _ db => .refl env.now db,
    .keeps (by decide) fun env _ db => .refl env.now db, by simp⟩

/-- A command that may change deadlines by what it is for: an overwriter, or `SET`
without `KEEPTTL`. -/
def mayChangeTtl (env : Env) (argv : List Bytes) (name : Bytes) : Prop :=
  name ∈ overwriters ∨ name = ascii "set" ∧ ∀ opts, Cmd.setArgs env argv = .ok opts → opts.keepttl = false

/-- The command sets a new object without the deadline of the old one: `INCR` and its
kin, `SETRANGE`, a `PFADD` that raises a register, and a `SET` that is given both `KEEPTTL`
and another deadline. -/
def dropsTtl (env : Env) (argv : List Bytes) (name : Bytes) (o : Object) (d : ℕ) : Prop :=
  name ∈ droppers ∨ (name = ascii "pfadd" ∧ ∃ regs ∈ o.str?, Cmd.pfRaises argv regs) ∨
    (name = ascii "set" ∧ ∃ opts, Cmd.setArgs env argv = .ok opts ∧ ¬(opts.nx ∧ o.string?.isSome) ∧
      opts.deadline ≠ 0 ∧ opts.deadline ≠ d)

section Main

variable {env : Env} {argv : List Bytes} {db : Keyspace} {spec : CommandSpec} {k : Bytes} {o : Object} {d : ℕ}
  {e : Entry}

theorem not_dropsTtl (h : spec.name ∉ droppers ++ [ascii "pfadd", ascii "set"]) :
    ¬dropsTtl env argv spec.name o d := by
  simp only [List.mem_append, List.mem_cons, List.not_mem_nil, or_false, not_or] at h
  simp [dropsTtl, h]

theorem reader_name (hs : spec ∈ CommandTable.specs) (hw : spec.write = false) :
    spec.name ∉ droppers ++ [ascii "pfadd", ascii "set"] := by
  have h : ∀ s ∈ CommandTable.specs, s.write = false → s.name ∉ droppers ++ [ascii "pfadd", ascii "set"] := by
    decide +kernel
  exact h spec hs hw

theorem found_of_none {α : Type} (view : Object → Option α) {x : Option Object} (hx : x = some o) (hv : view o = none) :
    found view x = .wrongType := by
  simp [found, hx, hv]

/-- `PFADD` leaves the deadline of its key unless an element raises a register. -/
theorem pfadd_kept_iff (hlive : db.live env.now (arg argv 1) = some (o, some d))
    (hok : isError (Cmd.pfadd env argv db).reply = false)
    (hafter : (Cmd.pfadd env argv db).db.live env.now (arg argv 1) = some e) :
    e.2 = some d ↔ ¬∃ regs ∈ o.str?, Cmd.pfRaises argv regs := by
  have ho := peek_of_entry hlive
  cases hs : o.str? with
  | none =>
    simp [Cmd.pfadd, Cmd.getHll, getAs_eq, (found_of_none _ ho hs), Result.clean] at hok
    cases hok
  | some regs =>
    have := Cmd.pfadd_present env argv db ho hs
    split_ifs at this with hraise
    · exact iff_of_false (by simp [this e hafter]) (by simp [hraise])
    · rw [this, hlive] at hafter
      exact iff_of_true (by rw [← Option.some.inj hafter]) (by simpa using hraise)

/-- A `SET` with `KEEPTTL` leaves the deadline of its key unless it writes another one. -/
theorem set_kept_iff {opts : Cmd.SetOpts} (hopts : Cmd.setArgs env argv = .ok opts) (hkeep : opts.keepttl = true)
    (hlive : db.live env.now (arg argv 1) = some (o, some d))
    (hafter : (Cmd.set env argv db).db.live env.now (arg argv 1) = some e) :
    e.2 = some d ↔ ¬(¬(opts.nx ∧ o.string?.isSome) ∧ opts.deadline ≠ 0 ∧ opts.deadline ≠ d) := by
  rw [Cmd.set_present env argv db (peek_of_entry hlive) hopts] at hafter
  split_ifs at hafter with hnx
  · rw [hlive] at hafter
    exact iff_of_true (by rw [← Option.some.inj hafter]) (by simp [hnx])
  · have he := live_deadline hafter
    rw [setWrite_deadline hkeep hlive] at he
    rw [← he]
    by_cases h0 : opts.deadline = 0
    · simp [h0]
    · simp [h0, hnx]

/-- Another command on a key with a deadline leaves that deadline, if it succeeds and
leaves the key, unless it drops it. -/
theorem deadline_kept_iff (hr : route argv = .ok spec) (hm : ¬mayChangeTtl env argv spec.name)
    (hlive : db.live env.now k = some (o, some d)) (hok : isError (execCore env argv db).reply = false)
    (hafter : (execCore env argv db).db.live env.now k = some e) :
    e.2 = some d ↔ ¬(k = arg argv 1 ∧ dropsTtl env argv spec.name o d) := by
  simp only [execCore, hr] at hok hafter
  have hmem := find_mem (route_ok hr).1
  -- Where the key keeps its deadline, the command does not drop it.
  have hkept : Kept env.now db (spec.fn env argv db).db → ¬dropsTtl env argv spec.name o d →
      (e.2 = some d ↔ ¬(k = arg argv 1 ∧ dropsTtl env argv spec.name o d)) :=
    fun h hno => iff_of_true (h k _ e hlive hafter) fun hd => hno hd.2
  have hother : Only (arg argv 1 = ·) db (spec.fn env argv db).db → arg argv 1 ≠ k →
      (e.2 = some d ↔ ¬(k = arg argv 1 ∧ dropsTtl env argv spec.name o d)) := by
    intro h hk
    rw [Only.live h env.now hk, hlive] at hafter
    exact iff_of_true (by rw [← Option.some.inj hafter]) fun hd => hk hd.1.symm
  cases hw : spec.write with
  | false =>
    have hno : ¬dropsTtl env argv spec.name o d := not_dropsTtl (reader_name hmem.1 hw)
    cases deeds spec hmem.1 with
    | reads _ _ h => exact hkept (.of_looked (h env argv db (route_ok hr).2).looked) hno
    | flush _ _ hf =>
      refine hkept (.of_none fun k => ?_) hno
      rw [hf]
      exact live_of_none (by simp [Cmd.flushall, Keyspace.clear]) env.now
    | tame ht => exact absurd (ht.symm.trans hw) (by decide)
    | shrinks ht => exact absurd (ht.symm.trans hw) (by decide)
    | zadd hz => exact absurd ((congrArg CommandSpec.write hz).symm.trans hw) (by decide)
  | true =>
    cases ttlDeeds spec (mem_writers hmem.1 hw) with
    | keeps hd h => exact hkept (h env argv db) (not_dropsTtl hd)
    | drops hd hf ho =>
      by_cases hk : k = arg argv 1
      · subst hk
        have := hf env argv db hok e hafter
        refine iff_of_false (by simp [this]) (not_not.2 ⟨rfl, .inl hd⟩)
      · exact hother (ho env argv db) (Ne.symm hk)
    | pfadd hn h =>
      rw [h] at hafter hother hok
      by_cases hk : k = arg argv 1
      · subst hk
        have hdrops : dropsTtl env argv spec.name o d ↔ ∃ regs ∈ o.str?, Cmd.pfRaises argv regs := by
          rw [hn]
          simp [dropsTtl, show ascii "pfadd" ∉ droppers by decide, show ascii "pfadd" ≠ ascii "set" by decide]
        rw [pfadd_kept_iff hlive hok hafter, hdrops, and_iff_right rfl]
      · exact hother (Cmd.pfadd_tame db env argv rfl).only (Ne.symm hk)
    | set hn h =>
      rw [h] at hafter hother
      by_cases hk : k = arg argv 1
      · subst hk
        obtain ⟨opts, hopts, hkeep⟩ : ∃ opts, Cmd.setArgs env argv = .ok opts ∧ opts.keepttl = true := by
          by_contra hno
          refine hm (.inr ⟨hn, fun opts hopts => ?_⟩)
          by_contra hk
          exact hno ⟨opts, hopts, by simpa using hk⟩
        have hdrops : dropsTtl env argv spec.name o d ↔ ¬(opts.nx ∧ o.string?.isSome) ∧
            opts.deadline ≠ 0 ∧ opts.deadline ≠ d := by
          rw [hn]
          simp [dropsTtl, show ascii "set" ∉ droppers by decide, show ascii "set" ≠ ascii "pfadd" by decide, hopts]
        rw [set_kept_iff hopts hkeep hlive hafter, hdrops, and_iff_right rfl]
      · exact hother (Cmd.set_tame db env argv rfl).only (Ne.symm hk)
    | overwrites h => exact absurd (.inl h) hm

theorem append_keeps_deadline : ((execCore (.quiet 0) [ascii "APPEND", [107], [98]]
    ((Keyspace.empty.set [107] (.string [97])).setDeadline [107] 5)).db.live 0 [107]).map Prod.snd = some (some 5) := by
  obtain ⟨spec, hr, hn⟩ : ∃ spec, route [ascii "APPEND", [107], [98]] = .ok spec ∧ spec.name = ascii "append" :=
    ⟨_, rfl, rfl⟩
  have hno : ¬dropsTtl (.quiet 0) [ascii "APPEND", [107], [98]] spec.name (.string [97]) 5 :=
    not_dropsTtl (by rw [hn]; decide)
  have hm : ¬mayChangeTtl (.quiet 0) [ascii "APPEND", [107], [98]] spec.name := by
    rw [hn]
    rintro (h | ⟨h, -⟩) <;> exact absurd h (by decide)
  have hlive : ((Keyspace.empty.set [107] (.string [97])).setDeadline [107] 5).live 0 [107] =
      some (.string [97], some 5) := by simp [live, peek, dead]
  have hsome : ((execCore (.quiet 0) [ascii "APPEND", [107], [98]]
      ((Keyspace.empty.set [107] (.string [97])).setDeadline [107] 5)).db.live 0 [107]).isSome := by
    decide +kernel
  obtain ⟨e, he⟩ := Option.isSome_iff_exists.1 hsome
  have hd := (deadline_kept_iff hr hm hlive (by decide +kernel) he).2 fun h => hno h.2
  rw [he, Option.map_some, hd]

/-- `INCR` makes a key with a deadline permanent. -/
theorem incr_drops_deadline : ¬ ∀ (env : Env) (db : Keyspace) (k : Bytes) (o : Object) (d : ℕ) (e : Entry),
    db.live env.now k = some (o, some d) → isError (execCore env [ascii "INCR", k] db).reply = false →
      (execCore env [ascii "INCR", k] db).db.live env.now k = some e → e.2 = some d := by
  intro h
  have hgone : ((execCore (.quiet 0) [ascii "INCR", [107]]
      ((Keyspace.empty.set [107] (.string [49])).setDeadline [107] 5)).db.live 0 [107]).map Prod.snd =
        some none := by decide +kernel
  obtain ⟨e, he, hnone⟩ := Option.map_eq_some_iff.1 hgone
  have hkept := h (.quiet 0) ((Keyspace.empty.set [107] (.string [49])).setDeadline [107] 5) [107]
    (.string [49]) 5 e (by simp [Env.quiet, live, peek, dead]) (by decide +kernel) he
  rw [hnone] at hkept
  cases hkept

end Main

end BlazeKV
