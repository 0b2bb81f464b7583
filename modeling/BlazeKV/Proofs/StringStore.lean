import BlazeKV.Lib.Overtaking
import BlazeKV.Lib.Machine
import BlazeKV.Proofs.FanOut
import BlazeKV.Proofs.Placement
import BlazeKV.Proofs.Timeless

/-! Keyspaces of strings without deadlines. The commands of strings are operations on what is
under their keys, and the clock does not matter. -/

namespace BlazeKV

open Keyspace Lib

structure Strings (db : Keyspace) : Prop where
  bare : Bare db
  strings : db.All fun o => ∃ s, o = .string s

def stored (db : Keyspace) (k : Bytes) : Option Object := db.dict.find k

/-- What a command does, with the environment first. -/
def perform (argv : List Bytes) (env : Env) (db : Keyspace) : Keyspace × Bytes := execStep db (env, argv)

section Closed

variable {db : Keyspace} (env : Env) {argv : List Bytes}

theorem Strings.value (h : Strings db) {k : Bytes} {o : Object} (ho : db.dict.find k = some o) : ∃ s, o = .string s :=
  h.strings k o ho

theorem Strings.set (h : Strings db) (key s : Bytes) : Strings (db.set key (.string s)) :=
  ⟨h.bare.set key (by simp [Object.type]), h.strings.set ⟨s, rfl⟩⟩

theorem Strings.erase (h : Strings db) (key : Bytes) : Strings (db.erase key) := ⟨h.bare.erase key, h.strings.erase⟩

theorem find_of_live {now : ℕ} (h : Bare db) {k : Bytes} {x : Option Object} (hl : db.live now k = x.map fun o => (o, none)) :
    db.dict.find k = x := by
  rw [h.live] at hl
  cases hd : db.dict.find k <;> cases x <;> simp_all

/-- Active expiry finds nothing. -/
theorem expire_bare (h : Bare db) (now : ℕ) : (db.activeExpireCycle now 20).1 = db := by
  have hnone : db.expires.forEach = [] := List.eq_nil_iff_forall_not_mem.2 fun e he => by
    have hfind := (Dict.mem_forEach _ _ _).1 he
    rw [h.deadline] at hfind
    cases hfind
  unfold activeExpireCycle deadKeys
  rw [hnone]
  split_ifs <;> rfl

namespace Cmd

theorem get_closed (h : Strings db) : (get env argv db).db = db ∧
    (get env argv db).reply = replyOpt ((db.dict.find (arg argv 1)).bind Object.string?) := by
  simp only [get, getString, h.bare.getAs]
  cases ho : db.dict.find (arg argv 1) with
  | none => exact ⟨rfl, rfl⟩
  | some o =>
    obtain ⟨s, rfl⟩ := h.value ho
    exact ⟨rfl, rfl⟩

theorem mget_closed (h : Bare db) : (mget env argv db).db = db ∧ (mget env argv db).reply =
    Reply.arrayHeader (argv.length - 1) ++
      (argv.tail.map fun k => replyOpt ((db.dict.find k).bind Object.string?)).flatten := by
  refine ⟨mget_unmoved env argv db h, ?_⟩
  have hf := (mget_fold env argv.tail db (db, Reply.arrayHeader (argv.length - 1)) fun _ => rfl).2
  simp only [h.peek] at hf
  exact hf

theorem exists_closed (h : Bare db) : (exists' env argv db).db = db ∧ (exists' env argv db).reply =
    Reply.integer (argv.tail.countP fun k => (db.dict.find k).isSome) := by
  refine ⟨exists'_unmoved env argv db h, ?_⟩
  have hf := (exists_fold env argv.tail db db fun _ => rfl).2
  simp only [h.peek] at hf
  simp only [exists', Result.clean_reply, hf]

theorem del_closed (h : Strings db) : Strings (del env argv db).db ∧
    (∀ k, (del env argv db).db.dict.find k = if k ∈ argv.tail then none else db.dict.find k) ∧
      (del env argv db).reply = Reply.integer (storedCount (fun k => (db.dict.find k).isSome) argv.tail) := by
  have hs : Strings (del env argv db).db := countLoop_keeps (P := Strings) argv.tail (fun _ k _ h => h.erase k) h
  obtain ⟨hl, hc⟩ := erase_fold env argv.tail db
  refine ⟨hs, fun k => ?_, ?_⟩
  · refine find_of_live hs.bare ((hl k).trans ?_)
    rw [h.bare.live]
    split_ifs <;> rfl
  · simp only [del, Result.markedIf_reply, hc]

/-- The value that the last of some assignments gives a key. -/
def lastOf (init : Option Object) (ps : List (Bytes × Bytes)) (k : Bytes) : Option Object :=
  ps.foldl (fun o p => if p.1 = k then some (.string p.2) else o) init

theorem foldl_set_closed (ps : List (Bytes × Bytes)) (h : Strings db) :
    Strings (ps.foldl (fun db p => db.set p.1 (.string p.2)) db) ∧
      ∀ k, (ps.foldl (fun db p => db.set p.1 (.string p.2)) db).dict.find k = lastOf (db.dict.find k) ps k := by
  induction ps generalizing db with
  | nil => exact ⟨h, fun _ => rfl⟩
  | cons p ps ih =>
    obtain ⟨hs, hf⟩ := ih (h.set p.1 p.2)
    refine ⟨hs, fun k => ?_⟩
    rw [List.foldl_cons, hf, find_dict_set]
    simp only [lastOf, List.foldl_cons, eq_comm (a := k)]

theorem mset_closed (hodd : argv.length % 2 = 1) (h : Strings db) : Strings (mset env argv db).db ∧
    (∀ k, (mset env argv db).db.dict.find k = lastOf (db.dict.find k) (pairs argv.tail) k) ∧
      (mset env argv db).reply = Reply.simpleString (ascii "OK") := by
  simp only [mset, hodd, ne_eq, not_true_eq_false, if_false]
  exact ⟨(foldl_set_closed _ h).1, (foldl_set_closed _ h).2, rfl⟩

/-- What `SET` without an expiry option reads from its options. -/
def setPlain (argv : List Bytes) : Except Bytes SetOpts := setOpts 0 ⟨0, false, false, false, false⟩ (argv.drop 3)

/-- Whether `SET` writes, and its reply, by what is under its key. -/
def setWrites (argv : List Bytes) (x : Option Object) : Bool :=
  match setPlain argv with
  | .error _ => false
  | .ok o => ¬(o.nx ∧ (x.bind Object.string?).isSome) ∧ ¬(o.xx ∧ x.isNone)

def setAnswer (argv : List Bytes) (x : Option Object) : Bytes :=
  match setPlain argv with
  | .error e => e
  | .ok o =>
    if o.nx ∧ (x.bind Object.string?).isSome then if o.get then replyOpt (x.bind Object.string?) else Reply.nullBulk
    else if o.xx ∧ x.isNone then Reply.nullBulk
    else if o.get then replyOpt (x.bind Object.string?) else Reply.simpleString (ascii "OK")

theorem set_closed (hfree : ∀ a ∈ argv.drop 3, isExpireOpt (lowercase a) = false) (h : Strings db) :
    (set env argv db).db = (if setWrites argv (db.dict.find (arg argv 1)) then
        db.set (arg argv 1) (.string (arg argv 2)) else db) ∧
      (set env argv db).reply = setAnswer argv (db.dict.find (arg argv 1)) := by
  obtain ⟨hopts, hdl⟩ := setOpts_free hfree 0 env.now ⟨0, false, false, false, false⟩
  cases ho : setPlain argv with
  | error e =>
    have ho' := hopts.trans ho
    simp only [set, ho', setWrites, setAnswer, ho]
    exact ⟨rfl, rfl⟩
  | ok o =>
    have ho' := hopts.trans ho
    have hdl0 : o.deadline = 0 := hdl o ho
    have hwrite : setWrite o db (arg argv 1) (arg argv 2) = db.set (arg argv 1) (.string (arg argv 2)) := by
      simp only [setWrite, hdl0, h.bare.deadlineOrZero, ite_self, ne_eq, not_true_eq_false, if_false]
    simp only [set, h.bare.lookup, ho', setWrites, setAnswer, ho, ite_self, hwrite]
    by_cases hnx : o.nx ∧ ((db.dict.find (arg argv 1)).bind Object.string?).isSome
    · simp [hnx, Result.clean]
    · by_cases hxx : o.xx ∧ (db.dict.find (arg argv 1)).isNone
      · simp [hnx, hxx, Result.clean]
      · simp only [hnx, hxx, not_false_iff, and_self, decide_true, if_true]
        exact ⟨rfl, rfl⟩

end Cmd

end Closed

/-! The commands as operations. -/

/-- A handler as an operation. -/
def asOp (f : Handler) (argv : List Bytes) (env : Env) (db : Keyspace) : Keyspace × Bytes :=
  ((f env argv db).db, (f env argv db).reply)

abbrev LocalOp (f : Env → Keyspace → Keyspace × Bytes) (K : Set Bytes) : Prop := Local stored Strings f K

abbrev ReadingOp (f : Env → Keyspace → Keyspace × Bytes) : Prop := Reading stored Strings f

section Operations

variable {argv : List Bytes} {K : Set Bytes}

/-- A handler that only looks at values. -/
theorem localOp_read {f : Handler} {R : (Bytes → Option Object) → Bytes} (hdb : ∀ env db, Strings db → (f env argv db).db = db)
    (hrep : ∀ env db, Strings db → (f env argv db).reply = R (stored db))
    (hR : ∀ m m' : Bytes → Option Object, (∀ k ∈ K, m k = m' k) → R m = R m') :
    LocalOp (asOp f argv) K ∧ ReadingOp (asOp f argv) := by
  have hview : ∀ e s, Strings s → ∀ k, stored (asOp f argv e s).1 k = stored s k := by
    intro e s hs k
    show stored (f e argv s).db k = stored s k
    rw [hdb e s hs]
  refine ⟨.of_view (W := id) (fun e s hs => ?_) hview hrep (fun _ _ _ => rfl) fun m m' h => ⟨hR m m' h, h⟩, hview⟩
  show Strings (f e argv s).db
  rwa [hdb e s hs]

theorem get_local (hk : arg argv 1 ∈ K) : LocalOp (asOp Cmd.get argv) K ∧ ReadingOp (asOp Cmd.get argv) :=
  localOp_read (R := fun m => Cmd.replyOpt ((m (arg argv 1)).bind Object.string?)) (fun e _ h => (Cmd.get_closed e h).1)
    (fun e _ h => (Cmd.get_closed e h).2) fun m m' h => by
      rw [h _ hk]

theorem mget_local (hk : ∀ k ∈ argv.tail, k ∈ K) : LocalOp (asOp Cmd.mget argv) K ∧ ReadingOp (asOp Cmd.mget argv) :=
  localOp_read (R := fun m => Reply.arrayHeader (argv.length - 1) ++
      (argv.tail.map fun k => Cmd.replyOpt ((m k).bind Object.string?)).flatten)
    (fun e _ h => (Cmd.mget_closed e h.bare).1) (fun e _ h => (Cmd.mget_closed e h.bare).2) fun m m' h => by
      rw [List.map_congr_left fun k hmem => by rw [h k (hk k hmem)]]

theorem exists_local (hk : ∀ k ∈ argv.tail, k ∈ K) :
    LocalOp (asOp Cmd.exists' argv) K ∧ ReadingOp (asOp Cmd.exists' argv) :=
  localOp_read (R := fun m => Reply.integer (argv.tail.countP fun k => (m k).isSome))
    (fun e _ h => (Cmd.exists_closed e h.bare).1) (fun e _ h => (Cmd.exists_closed e h.bare).2) fun m m' h => by
      rw [List.countP_congr fun k hmem => by rw [h k (hk k hmem)]]

theorem set_local (hfree : ∀ a ∈ argv.drop 3, Cmd.isExpireOpt (lowercase a) = false) (hk : arg argv 1 ∈ K) :
    LocalOp (asOp Cmd.set argv) K := by
  refine .of_view (W := fun m k => if k = arg argv 1 ∧ Cmd.setWrites argv (m (arg argv 1)) then
    some (.string (arg argv 2)) else m k) (R := fun m => Cmd.setAnswer argv (m (arg argv 1))) (fun e s hs => ?_)
    (fun e s hs k => ?_) (fun e s hs => (Cmd.set_closed e hfree hs).2) (fun m k hno => ?_) fun m m' h => ?_
  · show Strings (Cmd.set e argv s).db
    rw [(Cmd.set_closed e hfree hs).1]
    split_ifs
    · exact hs.set _ _
    · exact hs
  · show (Cmd.set e argv s).db.dict.find k = _
    rw [(Cmd.set_closed e hfree hs).1]
    cases hw : Cmd.setWrites argv (s.dict.find (arg argv 1)) <;> simp [hw, stored]
  · exact if_neg fun he : k = arg argv 1 ∧ _ => hno (he.1 ▸ hk)
  · rw [h _ hk]
    exact ⟨rfl, fun k hmem => by rw [h k hmem]⟩

theorem del_local (hk : ∀ k ∈ argv.tail, k ∈ K) : LocalOp (asOp Cmd.del argv) K := by
  refine .of_view (W := fun m k => if k ∈ argv.tail then none else m k)
    (R := fun m => Reply.integer (storedCount (fun k => (m k).isSome) argv.tail)) (fun e s hs => (Cmd.del_closed e hs).1)
    (fun e s hs => (Cmd.del_closed e hs).2.1) (fun e s hs => (Cmd.del_closed e hs).2.2) (fun m k hno => ?_) fun m m' h => ?_
  · exact if_neg fun he => hno (hk k he)
  · refine ⟨?_, fun k hmem => by rw [h k hmem]⟩
    have hcount : storedCount (fun k => (m k).isSome) argv.tail = storedCount (fun k => (m' k).isSome) argv.tail :=
      congrArg Finset.card (Finset.filter_congr fun k hmem => by
        simp only [h k (hk k (List.mem_toFinset.1 hmem))])
    rw [hcount]

theorem lastOf_frame {init : Option Object} {ps : List (Bytes × Bytes)} {k : Bytes} (hk : ∀ p ∈ ps, p.1 ≠ k) :
    Cmd.lastOf init ps k = init := by
  induction ps generalizing init with
  | nil => rfl
  | cons p ps ih =>
    rw [Cmd.lastOf, List.foldl_cons, if_neg (hk p List.mem_cons_self)]
    exact ih fun q hq => hk q (List.mem_cons_of_mem _ hq)

theorem mset_local (hodd : argv.length % 2 = 1) (hk : ∀ p ∈ pairs argv.tail, p.1 ∈ K) : LocalOp (asOp Cmd.mset argv) K := by
  refine .of_view (W := fun m k => Cmd.lastOf (m k) (pairs argv.tail) k) (R := fun _ => Reply.simpleString (ascii "OK"))
    (fun e s hs => (Cmd.mset_closed e hodd hs).1) (fun e s hs => (Cmd.mset_closed e hodd hs).2.1)
    (fun e s hs => (Cmd.mset_closed e hodd hs).2.2) (fun m k hno => ?_) fun m m' h => ⟨rfl, fun k hmem => ?_⟩
  · exact lastOf_frame fun p hp he => hno (he ▸ hk p hp)
  · rw [h k hmem]

end Operations

/-! Which commands these are. -/

/-- A well-formed `GET`, `SET`, `DEL`, `EXISTS`, `MGET` or `MSET` that sets no deadline. -/
def Plain (argv : List Bytes) : Prop := ∃ spec, route argv = .ok spec ∧
  spec.name ∈ [ascii "get", ascii "set", ascii "del", ascii "exists", ascii "mget", ascii "mset"] ∧
  (spec.name = ascii "mset" → argv.length % 2 = 1) ∧
  (spec.name = ascii "set" → ∀ a ∈ argv.drop 3, Cmd.isExpireOpt (lowercase a) = false)

/-- The keys of a command, and whether it writes. -/
def keysOf (argv : List Bytes) : List Bytes :=
  match route argv with
  | .ok spec => extractKeys spec argv
  | .error _ => []

def writes (argv : List Bytes) : Bool :=
  match route argv with
  | .ok spec => spec.write
  | .error _ => false

/-- The keys of a command as a set. -/
abbrev keySet (argv : List Bytes) : Set Bytes := {k | k ∈ keysOf argv}

theorem perform_ok {argv : List Bytes} {spec : CommandSpec} (hr : route argv = .ok spec) :
    perform argv = asOp spec.fn argv := by
  funext env db
  simp [perform, execStep, execCore, hr, asOp]

theorem Plain.noFlush {argv : List Bytes} (h : Plain argv) (env : Env) (db : Keyspace) :
    (execCore env argv db).flush = false := by
  obtain ⟨spec, hr, hn, -⟩ := h
  obtain ⟨hf, har⟩ := route_ok hr
  simp only [execCore, hr]
  cases deeds spec (find_mem hf).1 with
  | reads hw _ h => exact (h env argv db har).flush
  | tame hw _ h => exact (h env argv db har).flush
  | shrinks hw _ h => exact (h env argv db har).flush
  | zadd h =>
    subst h
    exact Cmd.zadd_flush env argv db
  | flush hname hw => rcases hname with hname | hname <;> exact absurd (hname ▸ hn) (by decide)

theorem keysOf_ok {argv : List Bytes} {spec : CommandSpec} (hr : route argv = .ok spec) :
    keysOf argv = extractKeys spec argv := by rw [keysOf, hr]

theorem writes_ok {argv : List Bytes} {spec : CommandSpec} (hr : route argv = .ok spec) : writes argv = spec.write := by
  rw [writes, hr]

theorem Plain.operation {argv : List Bytes} (h : Plain argv) : LocalOp (perform argv) (keySet argv) ∧
    (writes argv = false → ReadingOp (perform argv)) := by
  obtain ⟨spec, hr, hn, hodd, hfree⟩ := h
  have hone : spec.firstKey = 1 → spec.lastKey = 1 → spec.keyStep = 1 → 2 ≤ spec.arity.natAbs → arg argv 1 ∈ keySet argv :=
    fun hf hl hs ha => by
      show _ ∈ keysOf argv
      rw [keysOf_ok hr]
      exact arg_one_mem hf hl hs (ha.trans (arity_le (route_ok hr).2))
  have htail : spec.firstKey = 1 → spec.lastKey = -1 → spec.keyStep = 1 → ∀ k ∈ argv.tail, k ∈ keySet argv :=
    fun hf hl hs k hk => by
      show _ ∈ keysOf argv
      rwa [keysOf_ok hr, extractKeys_tail hf hl hs]
  rw [perform_ok hr, writes_ok hr]
  simp only [List.mem_cons, List.not_mem_nil, or_false] at hn
  rcases hn with hn | hn | hn | hn | hn | hn
  · obtain rfl := route_spec hr hn rfl
    exact (get_local (hone rfl rfl rfl (by decide))).imp_right fun h _ => h
  · obtain rfl := route_spec hr hn rfl
    exact ⟨set_local (hfree hn) (hone rfl rfl rfl (by decide)), fun h => by cases h⟩
  · obtain rfl := route_spec hr hn rfl
    exact ⟨del_local (htail rfl rfl rfl), fun h => by cases h⟩
  · obtain rfl := route_spec hr hn rfl
    exact (exists_local (htail rfl rfl rfl)).imp_right fun h _ => h
  · obtain rfl := route_spec hr hn rfl
    exact (mget_local (htail rfl rfl rfl)).imp_right fun h _ => h
  · obtain rfl := route_spec hr hn rfl
    refine ⟨mset_local (hodd hn) fun p hp => ?_, fun h => by cases h⟩
    show _ ∈ keysOf argv
    rw [keysOf_ok hr, extractKeys_mset rfl rfl rfl (hodd hn)]
    exact List.mem_map_of_mem hp

/-- Commands that are apart: no key of the one is a key of the other, or neither writes. -/
def Unrelated (argv argv' : List Bytes) : Prop :=
  (∀ k ∈ keysOf argv, k ∉ keysOf argv') ∨ (writes argv = false ∧ writes argv' = false)

instance (argv argv' : List Bytes) : Decidable (Unrelated argv argv') :=
  inferInstanceAs (Decidable ((∀ k ∈ keysOf argv, k ∉ keysOf argv') ∨ (writes argv = false ∧ writes argv' = false)))

theorem Unrelated.apart {argv argv' : List Bytes} (h : Unrelated argv argv') (hp : Plain argv) (hp' : Plain argv') :
    Apart stored Strings (perform argv) (keySet argv) (perform argv') (keySet argv') :=
  h.imp (fun h => Set.disjoint_left.2 h) fun h => ⟨hp.operation.2 h.1, hp'.operation.2 h.2⟩

section Parts

theorem one_key {spec : CommandSpec} {argv : List Bytes} (hf : spec.firstKey = 1) (hl : spec.lastKey = 1)
    (hs : spec.keyStep = 1) : (extractKeys spec argv).length ≤ 1 := by
  have h0 : ¬(1 : ℤ) < 0 := by decide
  unfold extractKeys keyIndexes
  simp only [hf, hl, hs, one_ne_zero, if_false, h0, List.length_map, List.length_range', Nat.cast_one, Int.ediv_one]
  split_ifs <;> omega

variable {ι : Type} [DecidableEq ι] (shardFor : Bytes → ι) (self : ι) {argv : List Bytes}

theorem Plain.not_refused (h : Plain argv) (b : Bytes) : plan shardFor self argv ≠ .refuse b := by
  obtain ⟨spec, hr, hn, -⟩ := h
  have hname : spec.name = lowercase (cmdName argv) := (find_mem (route_ok hr).1).2
  unfold plan
  rw [hr]
  dsimp only
  split
  · simp
  · next key keys hkeys =>
    split_ifs with hall hself hdec
    · simp
    · simp
    · simp
    · -- Only `GET` and `SET` are not decomposable, and they have one key.
      have hone : ∀ name spec', spec.name = name → CommandTable.find name = some spec' → spec'.firstKey = 1 →
          spec'.lastKey = 1 → spec'.keyStep = 1 → keys = [] := by
        intro name spec' hn hf h1 h2 h3
        obtain rfl := route_spec hr hn hf
        have hle : (extractKeys spec argv).length ≤ 1 := one_key h1 h2 h3
        rw [hkeys, List.length_cons] at hle
        exact List.length_eq_zero_iff.1 (by omega)
      refine absurd ?_ hall
      simp only [List.mem_cons, List.not_mem_nil, or_false] at hn
      rw [← hname] at hdec
      rcases hn with hn | hn | hn | hn | hn | hn
      · simp [hone _ _ hn rfl rfl rfl rfl]
      · simp [hone _ _ hn rfl rfl rfl rfl]
      all_goals exact absurd (hn ▸ by decide) hdec

/-- The parts of a command are commands of the same kind. -/
theorem Plain.part (h : Plain argv) {r : ι × List Bytes} (hr : r ∈ requests shardFor self argv) :
    Plain r.2 ∧ ∀ k ∈ keysOf r.2, shardFor k = r.1 := by
  have hplain : Plain r.2 := by
    unfold requests at hr
    cases hp : plan shardFor self argv with
    | refuse e => simp [hp] at hr
    | inline =>
      simp only [hp, List.mem_singleton] at hr
      exact hr ▸ h
    | forward t =>
      simp only [hp, List.mem_singleton] at hr
      exact hr ▸ h
    | fanOut keys =>
      simp only [hp] at hr
      obtain ⟨i, hi, rfl⟩ := List.mem_mapIdx.1 hr
      have hfree : ∀ key v : Bytes, ∀ a ∈ [ascii "SET", key, v].drop 3, Cmd.isExpireOpt (lowercase a) = false := by simp
      cases kindOf (lowercase (cmdName argv)) with
      | mget => exact ⟨_, rfl, by decide, fun h => absurd h (by decide), fun h => absurd h (by decide)⟩
      | mset => exact ⟨_, rfl, by decide, fun h => absurd h (by decide), fun _ => hfree _ _⟩
      | existsCount => exact ⟨_, rfl, by decide, fun h => absurd h (by decide), fun h => absurd h (by decide)⟩
      | _ => exact ⟨_, rfl, by decide, fun h => absurd h (by decide), fun h => absurd h (by decide)⟩
  refine ⟨hplain, fun k hk => ?_⟩
  obtain ⟨spec, hroute, -⟩ := hplain
  rw [keysOf_ok hroute] at hk
  exact requests_keyed shardFor self argv r hr spec hroute k hk

end Parts

/-! Commands on one keyspace, one after another. -/

section InTurn

/-- An environment, where it does not matter. -/
def calm : Env := .quiet 0

/-- The commands, and their replies. -/
def inTurn (db : Keyspace) (argvs : List (List Bytes)) : Keyspace × List Bytes :=
  runTotal execStep db (argvs.map fun argv => (calm, argv))

@[simp] theorem inTurn_nil (db : Keyspace) : inTurn db [] = (db, []) := rfl

theorem inTurn_cons (db : Keyspace) (argv : List Bytes) (argvs : List (List Bytes)) : inTurn db (argv :: argvs) =
    ((inTurn (perform argv calm db).1 argvs).1, (perform argv calm db).2 :: (inTurn (perform argv calm db).1 argvs).2) := rfl

theorem inTurn_append (db : Keyspace) (argvs argvs' : List (List Bytes)) : inTurn db (argvs ++ argvs') =
    ((inTurn (inTurn db argvs).1 argvs').1, (inTurn db argvs).2 ++ (inTurn (inTurn db argvs).1 argvs').2) := by
  induction argvs generalizing db with
  | nil => rfl
  | cons argv argvs ih => simp only [List.cons_append, inTurn_cons, ih]

@[simp] theorem inTurn_length (db : Keyspace) (argvs : List (List Bytes)) : (inTurn db argvs).2.length = argvs.length := by
  induction argvs generalizing db with
  | nil => rfl
  | cons argv argvs ih => simp [inTurn_cons, ih]

variable {U : Keyspace}

theorem inTurn_strings {argvs : List (List Bytes)} (h : Strings U) (hp : ∀ argv ∈ argvs, Plain argv) :
    Strings (inTurn U argvs).1 := by
  induction argvs generalizing U with
  | nil => exact h
  | cons argv argvs ih =>
    exact ih ((hp argv List.mem_cons_self).operation.1.keeps calm U h) fun c hc => hp c (List.mem_cons_of_mem _ hc)

theorem perform_get (h : Strings U) (env : Env) (k : Bytes) : perform [ascii "GET", k] env U =
    (U, Cmd.replyOpt ((U.dict.find k).bind Object.string?)) := by
  have hr : route [ascii "GET", k] = .ok ⟨ascii "get", Cmd.get, 2, false, 1, 1, 1⟩ := rfl
  rw [perform_ok hr]
  exact Prod.ext (Cmd.get_closed env h).1 (Cmd.get_closed env h).2

theorem perform_exists (h : Strings U) (env : Env) (k : Bytes) : perform [ascii "EXISTS", k] env U =
    (U, Reply.integer (if (U.dict.find k).isSome then 1 else 0)) := by
  have hr : route [ascii "EXISTS", k] = .ok ⟨ascii "exists", Cmd.exists', -2, false, 1, -1, 1⟩ := rfl
  have hclosed : (Cmd.exists' env [ascii "EXISTS", k] U).db = U ∧ (Cmd.exists' env [ascii "EXISTS", k] U).reply =
      Reply.integer ([k].countP fun k => (U.dict.find k).isSome) := Cmd.exists_closed env h.bare
  rw [perform_ok hr]
  refine Prod.ext hclosed.1 (hclosed.2.trans ?_)
  cases hs : (U.dict.find k).isSome <;> simp [hs]

theorem perform_del (env : Env) (k : Bytes) : perform [ascii "DEL", k] env U =
    (U.erase k, Reply.integer (if (U.dict.find k).isSome then 1 else 0)) := by
  have hr : route [ascii "DEL", k] = .ok ⟨ascii "del", Cmd.del, -2, true, 1, -1, 1⟩ := rfl
  rw [perform_ok hr]
  cases h : (U.dict.find k).isSome <;> simp [asOp, Cmd.del, countLoop, Cmd.eraseRound, Result.markedIf, h]

theorem perform_set (h : Strings U) (env : Env) (k v : Bytes) : perform [ascii "SET", k, v] env U =
    (U.set k (.string v), Reply.simpleString (ascii "OK")) := by
  have hr : route [ascii "SET", k, v] = .ok ⟨ascii "set", Cmd.set, -3, true, 1, 1, 1⟩ := rfl
  have hclosed : (Cmd.set env [ascii "SET", k, v] U).db = U.set k (.string v) ∧
      (Cmd.set env [ascii "SET", k, v] U).reply = Reply.simpleString (ascii "OK") := Cmd.set_closed env (by simp) h
  rw [perform_ok hr]
  exact Prod.ext hclosed.1 hclosed.2

theorem inTurn_gets (h : Strings U) (ks : List Bytes) : inTurn U (ks.map fun k => [ascii "GET", k]) =
    (U, ks.map fun k => Cmd.replyOpt ((U.dict.find k).bind Object.string?)) := by
  induction ks with
  | nil => rfl
  | cons k ks ih => rw [List.map_cons, inTurn_cons, perform_get h, ih, List.map_cons]

theorem inTurn_exists (h : Strings U) (ks : List Bytes) : inTurn U (ks.map fun k => [ascii "EXISTS", k]) =
    (U, ks.map fun k => Reply.integer (if (U.dict.find k).isSome then 1 else 0)) := by
  induction ks with
  | nil => rfl
  | cons k ks ih => rw [List.map_cons, inTurn_cons, perform_exists h, ih, List.map_cons]

theorem inTurn_sets (h : Strings U) (ps : List (Bytes × Bytes)) : (inTurn U (ps.map fun p => [ascii "SET", p.1, p.2])).1 =
    ps.foldl (fun db p => db.set p.1 (.string p.2)) U := by
  induction ps generalizing U with
  | nil => rfl
  | cons p ps ih =>
    rw [List.map_cons, inTurn_cons, perform_set h, List.foldl_cons]
    exact ih (h.set p.1 p.2)

theorem inTurn_dels (ks : List Bytes) : (∀ k, (inTurn U (ks.map fun k => [ascii "DEL", k])).1.dict.find k =
      if k ∈ ks then none else U.dict.find k) ∧
    ((inTurn U (ks.map fun k => [ascii "DEL", k])).2.map parseRespInteger).sum =
      storedCount (fun k => (U.dict.find k).isSome) ks := by
  have hone : parseRespInteger (Reply.integer 1) = 1 := by decide
  have hzero : parseRespInteger (Reply.integer 0) = 0 := by decide
  induction ks using List.reverseRecOn with
  | nil => exact ⟨fun _ => rfl, rfl⟩
  | append_singleton ks key ih =>
    obtain ⟨hfind, hsum⟩ := ih
    rw [List.map_append, List.map_singleton, inTurn_append, inTurn_cons, perform_del, inTurn_nil]
    refine ⟨fun k => ?_, ?_⟩
    · rw [find_dict_erase, hfind]
      by_cases hk : k = key <;> simp [hk]
    · rw [List.map_append, List.sum_append, hsum, storedCount_snoc, hfind]
      by_cases hk : key ∈ ks
      · simp [hk, hzero]
      · cases hs : (U.dict.find key).isSome <;> simp [hk, hs, hone, hzero]

variable {ι : Type} [DecidableEq ι] {shardFor : Bytes → ι} {self : ι} {argv : List Bytes}

theorem sum_stored (stored : Bytes → Bool) (ks : List Bytes) :
    ((ks.map fun k => Reply.integer (if stored k then 1 else 0)).map parseRespInteger).sum = (ks.countP stored : ℕ) := by
  have hone : parseRespInteger (Reply.integer 1) = 1 := by decide
  have hzero : parseRespInteger (Reply.integer 0) = 0 := by decide
  induction ks with
  | nil => rfl
  | cons k ks ih =>
    rw [List.map_cons, List.map_cons, List.sum_cons, ih, List.countP_cons]
    cases stored k <;> simp [hone, hzero, add_comm]

/-- The parts of a split command, in turn, do what the command does. -/
theorem split_inTurn (hp : Plain argv) {keys : List Bytes} (hplan : plan shardFor self argv = .fanOut keys) (hU : Strings U) :
    let r := inTurn U ((requests shardFor self argv).map Prod.snd)
    assembled (kindOf (lowercase (cmdName argv))) r.2 = (perform argv calm U).2 ∧
      ∀ k, r.1.dict.find k = (perform argv calm U).1.dict.find k := by
  obtain ⟨spec, hr, hn, hodd, -⟩ := hp
  obtain ⟨spec', hr', hkeys⟩ := plan_fanOut hplan
  obtain rfl : spec = spec' := Except.ok.inj (hr.symm.trans hr')
  have hname : lowercase (cmdName argv) = spec.name := (find_mem (route_ok hr).1).2.symm
  have hdec := fanOut_name shardFor self argv hplan
  have hreqs : ∀ w : Bytes, (∀ i key, subCommand (kindOf spec.name) argv i key = [w, key]) →
      (requests shardFor self argv).map Prod.snd = keys.map fun k => [w, k] := by
    intro w hw
    rw [requests_fanOut hplan, hname]
    simp only [hw]
    rw [mapIdx_const (fun k => (shardFor k, [w, k])) keys, List.map_map]
    rfl
  rw [hname] at hdec ⊢
  rw [perform_ok hr]
  simp only [List.mem_cons, List.not_mem_nil, or_false] at hn
  rcases hn with hn | hn | hn | hn | hn | hn
  · rw [hn] at hdec
    exact absurd hdec (by decide)
  · rw [hn] at hdec
    exact absurd hdec (by decide)
  · obtain rfl := route_spec hr hn rfl
    have hk : keys = argv.tail := hkeys.trans (extractKeys_tail rfl rfl rfl)
    obtain ⟨hfind, hsum⟩ := inTurn_dels (U := U) argv.tail
    rw [hreqs (ascii "DEL") fun _ _ => rfl, hk]
    exact ⟨(congrArg Reply.integer hsum).trans (Cmd.del_closed calm hU).2.2.symm,
      fun k => (hfind k).trans ((Cmd.del_closed calm hU).2.1 k).symm⟩
  · obtain rfl := route_spec hr hn rfl
    have hk : keys = argv.tail := hkeys.trans (extractKeys_tail rfl rfl rfl)
    have hdb : (Cmd.exists' calm argv U).db = U := (Cmd.exists_closed calm hU.bare).1
    rw [hreqs (ascii "EXISTS") fun _ _ => rfl, hk, inTurn_exists hU]
    exact ⟨(congrArg Reply.integer (sum_stored _ argv.tail)).trans (Cmd.exists_closed calm hU.bare).2.symm,
      fun k => by rw [asOp, hdb]⟩
  · obtain rfl := route_spec hr hn rfl
    have hk : keys = argv.tail := hkeys.trans (extractKeys_tail rfl rfl rfl)
    have hpos : 1 ≤ argv.length := le_trans (by decide) (arity_le (route_ok hr).2)
    have hdb : (Cmd.mget calm argv U).db = U := (Cmd.mget_closed calm hU.bare).1
    have hlen : ((argv.tail.map fun k => Cmd.replyOpt ((U.dict.find k).bind Object.string?)).length : ℤ) =
        argv.length - 1 := by
      rw [List.length_map, List.length_tail]
      omega
    rw [hreqs (ascii "GET") fun _ _ => rfl, hk, inTurn_gets hU]
    refine ⟨Eq.trans ?_ (Cmd.mget_closed calm hU.bare).2.symm, fun k => by rw [asOp, hdb]⟩
    rw [← hlen]
    rfl
  · obtain rfl := route_spec hr hn rfl
    have hk : keys = (pairs argv.tail).map Prod.fst := hkeys.trans (extractKeys_mset rfl rfl rfl (hodd hn))
    have hparts : (requests shardFor self argv).map Prod.snd =
        (pairs argv.tail).map fun p => [ascii "SET", p.1, p.2] := by
      have hkind : kindOf (ascii "mset") = .mset := rfl
      rw [requests_fanOut hplan, hname, hk]
      dsimp only
      rw [hkind, requests_mset rfl, List.map_map]
      rfl
    have hset : (asOp Cmd.mset argv calm U).1 = (pairs argv.tail).foldl (fun db p => db.set p.1 (.string p.2)) U := by
      simp only [asOp, Cmd.mset, hodd hn, ne_eq, not_true_eq_false, if_false]
      rfl
    rw [hparts]
    refine ⟨(Cmd.mset_closed calm (hodd hn) hU).2.2.symm, fun k => ?_⟩
    rw [inTurn_sets hU, hset]

end InTurn

end BlazeKV
