import BlazeKV.Proofs.Placement
import BlazeKV.Proofs.Representation
import BlazeKV.Proofs.Timeless

/-! Recovery of one shard after commands that set no deadline. The log is never cut, so
what was logged before a snapshot is replayed on top of it. -/

namespace BlazeKV

open Keyspace

/-- Equivalent values under the same keys. -/
def SameValues (db db' : Keyspace) : Prop := ∀ k, sameObject (db.dict.find k) (db'.dict.find k)

section Values

variable {db db' db'' : Keyspace}

theorem SameValues.refl (db : Keyspace) : SameValues db db := fun _ => .refl _

theorem SameValues.trans (h : SameValues db db') (h' : SameValues db' db'') : SameValues db db'' := by
  intro k
  have h1 := h k
  have h2 := h' k
  cases hd : db.dict.find k <;> cases hd' : db'.dict.find k <;> cases hd'' : db''.dict.find k <;>
    rw [hd, hd'] at h1 <;> rw [hd', hd''] at h2 <;>
    first | trivial | exact False.elim h1 | exact False.elim h2 | exact Object.Equiv.trans h1 h2

theorem SameValues.contents (h : SameValues db db') (hb : Bare db) (hb' : Bare db') : Contents db db' :=
  fun k => ⟨h k, by rw [hb.deadline, hb'.deadline]⟩

theorem Contents.values (h : Contents db db') : SameValues db db' := fun k => (h k).1

/-- Equal strings under one key. -/
theorem sameObject.string {o o' : Option Object} (h : sameObject o o') {s : Bytes} (hs : o.bind Object.string? = some s) :
    o'.bind Object.string? = some s := by
  obtain ⟨x, rfl, hx⟩ := Option.bind_eq_some_iff.1 hs
  cases o' with
  | none => exact False.elim h
  | some x' =>
    cases x <;> cases x' <;> first | exact False.elim h | cases hx
    exact congrArg some (Eq.symm h)

theorem SameValues.symm (h : SameValues db db') : SameValues db' db := fun k => (h k).symm

/-- Without deadlines, what looks the same is the same. -/
theorem SameValues.of_live {now : ℕ} (h : LiveEquiv now db db') (hb : Bare db) (hb' : Bare db') : SameValues db db' := by
  intro k
  have := h k
  rw [hb.live, hb'.live] at this
  cases hd : db.dict.find k <;> cases hd' : db'.dict.find k <;> rw [hd, hd'] at this
  · trivial
  · exact this
  · exact this
  · exact this.1

end Values

section Commands

variable {γ : Type} (g : HnswGraph γ) {env : Env} {argv : List Bytes} {st : Store γ} {spec : CommandSpec}

/-- A command that leaves no record leaves what is live, with the two exceptions. -/
theorem unrecorded_keeps (hr : route argv = .ok spec) (hfl : ¬flushes argv) (hp : ¬zaddPartial env argv st.db)
    (hq : ¬quietErase env argv st.db) (hno : (execStore g env argv st).2.record = none) :
    LiveEquiv env.now st.db (execStore g env argv st).1.db := by
  obtain ⟨hf, har⟩ := route_ok hr
  rw [zaddPartial_ok hr] at hp
  rw [quietErase_ok hr] at hq
  rw [execStore_ok g env argv st hr] at hno ⊢
  have hclean : spec.write = true → (spec.fn (env.withVectors g st.vectors) argv st.db).dirty = false := by
    intro hw
    by_contra hd
    simp [hw, Bool.eq_true_of_not_eq_false hd] at hno
  cases deeds spec (find_mem hf).1 with
  | reads hw hn h => exact (h (env.withVectors g st.vectors) argv st.db har).looked.liveEquiv
  | tame hw hn h => exact (h (env.withVectors g st.vectors) argv st.db har).tidy (hclean hw)
  | shrinks hw hn h =>
    exact ((h (env.withVectors g st.vectors) argv st.db har).tidy (hclean hw)).2 (Bool.eq_false_of_not_eq_true hq)
  | zadd h =>
    subst h
    cases hstop : Cmd.zaddStops env argv st.db with
    | true =>
      obtain ⟨-, -, hiff⟩ := Cmd.zadd_stop_iff (env.withVectors g st.vectors) argv st.db hstop
      exact hiff.2 (by_contra fun hno => hp ⟨rfl, hstop, hno⟩)
    | false =>
      have hiff := Cmd.zadd_clean_iff (env.withVectors g st.vectors) argv st.db hstop (hclean rfl)
      exact hiff.2 (Bool.eq_false_of_not_eq_true hq)
  | flush hn hw h => exact absurd ⟨spec, hr, hn⟩ hfl

/-- A command that sets no deadline and is no flush leaves no deadline. -/
theorem exec_bare (hfree : TtlFree argv) (hfl : ¬flushes argv) (hb : Bare st.db) :
    Bare (execStore g env argv st).1.db := by
  cases hr : route argv with
  | error e => rwa [execStore_error g env argv st hr]
  | ok spec =>
    obtain ⟨hmem, hname⟩ := find_mem (route_ok hr).1
    rw [execStore_ok g env argv st hr]
    cases hw : spec.write with
    | true => exact (timeless spec (mem_writers hmem hw) (hname ▸ hfree.1) (hname ▸ hfree.2)).bare _ _ hb
    | false =>
      have hn : spec.name ∉ [ascii "flushall", ascii "flushdb"] := fun h => hfl ⟨spec, hr, by simpa using h⟩
      dsimp only
      rwa [unmoved spec (mem_readers hmem hw) hn _ _ _ hb]

theorem exec_flush (hfl : ¬flushes argv) : (execStore g env argv st).2.flush = false := by
  cases hr : route argv with
  | error e => rw [execStore_error g env argv st hr]
  | ok spec =>
    obtain ⟨hf, har⟩ := route_ok hr
    rw [execStore_ok g env argv st hr]
    cases deeds spec (find_mem hf).1 with
    | reads hw hn h => exact (h (env.withVectors g st.vectors) argv st.db har).flush
    | tame hw hn h => exact (h (env.withVectors g st.vectors) argv st.db har).flush
    | shrinks hw hn h => exact (h (env.withVectors g st.vectors) argv st.db har).flush
    | zadd h =>
      subst h
      exact Cmd.zadd_flush (env.withVectors g st.vectors) argv st.db
    | flush hn hw h => exact absurd ⟨spec, hr, hn⟩ hfl

/-- A record that a replay executes as the run did. -/
structure Replayable (c : List Bytes) : Prop where
  loggable : Loggable c
  free : TtlFree c
  fits : Fits c
  spop : lowercase (cmdName c) ≠ ascii "spop"

theorem Replayable.noFlush (hc : Replayable argv) : ¬flushes argv := hc.loggable.noFlush

/-- The step lemma of a replay: whatever the clocks and the layout of the tables. -/
theorem Replayable.same (hc : Replayable argv) {st st' : Store γ} (hb : Bare st.db) (hb' : Bare st'.db)
    (hs : SameValues st.db st'.db) (env env' : Env) :
    SameValues (execStore g env argv st).1.db (execStore g env' argv st').1.db := by
  obtain ⟨spec, hr, hw⟩ := hc.loggable
  obtain ⟨hmem, hname⟩ := find_mem (route_ok hr).1
  have hclock := (timeless spec (mem_writers hmem hw) (hname ▸ hc.free.1) (hname ▸ hc.free.2)).clock
    (env'.withVectors g st'.vectors) st'.db env.now hb'
  have hkept : Contents (execCore (env.withVectors g st.vectors) argv st.db).db
      (execCore { env'.withVectors g st'.vectors with now := env.now } argv st'.db).db :=
    contents_kept hr hw (hname ▸ hc.spop) rfl (hs.contents hb hb')
  simp only [execCore, hr, hclock] at hkept
  rw [execStore_ok g env argv st hr, execStore_ok g env' argv st' hr]
  exact hkept.values

/-- The run lemma. -/
theorem replay_same {cs : List (List Bytes)} (hcs : ∀ c ∈ cs, Replayable c) (r r' : ℕ × Store γ) (hb : Bare r.2.db)
    (hb' : Bare r'.2.db) (hs : SameValues r.2.db r'.2.db) (clock clock' : ℕ → Env) :
    Bare (cs.foldl (Host.execReplay g clock) r).2.db ∧ Bare (cs.foldl (Host.execReplay g clock') r').2.db ∧
      SameValues (cs.foldl (Host.execReplay g clock) r).2.db (cs.foldl (Host.execReplay g clock') r').2.db := by
  induction cs generalizing r r' with
  | nil => exact ⟨hb, hb', hs⟩
  | cons c cs ih =>
    have hc := hcs c List.mem_cons_self
    exact ih (fun c hc => hcs c (List.mem_cons_of_mem _ hc)) _ _ (exec_bare g hc.free hc.noFlush hb)
      (exec_bare g hc.free hc.noFlush hb') (hc.same g hb hb' hs _ _)

end Commands

section Recovery

variable {γ : Type} (g : HnswGraph γ)

/-- The commands of which a command makes a record. -/
def recorded (env : Env) (argv : List Bytes) (st : Store γ) : List (List Bytes) :=
  if (execStore g env argv st).2.record.isSome then [argv] else []

/-- The keyspace, when the commands of the log are executed once more on it. -/
def Host.again (h : Host γ) (cs : List (List Bytes)) : Keyspace :=
  (cs.foldl (Host.execReplay g fun _ => .quiet 0) (0, ⟨h.node.store.db, fun _ => none⟩)).2.db

/-- What a run leaves in the log. -/
structure Tracked (h : Host γ) (cs : List (List Bytes)) : Prop where
  bare : Bare h.node.store.db
  log : ∃ a, h.node.aof = some a ∧ a.close = logOf cs
  records : ∀ c ∈ cs, Replayable c

/-- The log rebuilds the keyspace of the shard from what its snapshot holds. -/
def Anchored (h : Host γ) (cs : List (List Bytes)) : Prop := ∃ db, Bare db ∧
  (match h.snapshot with
    | none => db = Keyspace.empty
    | some data => data = Snapshot.save db ∧ Snapshot.Fitting db) ∧
  SameValues h.node.store.db (cs.foldl (Host.execReplay g fun _ => .quiet 0) (0, ⟨db, fun _ => none⟩)).2.db

variable {h : Host γ} {cs : List (List Bytes)} {env : Env} {argv : List Bytes}

/-- One command more: with a record it is one more of the log, and without one it changes
nothing. -/
theorem Tracked.command (ht : Tracked h cs) (hfree : TtlFree argv) (hfl : ¬flushes argv)
    (hok : ∀ c ∈ recorded g env argv h.node.store, Fits c ∧ lowercase (cmdName c) ≠ ascii "spop") :
    Tracked (h.exec g env argv) (cs ++ recorded g env argv h.node.store) ∧
      ((¬zaddPartial env argv h.node.store.db ∧ ¬quietErase env argv h.node.store.db) → Anchored g h cs →
        Anchored g (h.exec g env argv) (cs ++ recorded g env argv h.node.store)) := by
  have hbare : Bare (execStore g env argv h.node.store).1.db := exec_bare g hfree hfl ht.bare
  have hflush : (execStore g env argv h.node.store).2.flush = false := exec_flush g hfl
  obtain ⟨a, ha, hlog⟩ := ht.log
  cases hrec : (execStore g env argv h.node.store).2.record with
  | none =>
    have haof : (h.exec g env argv).node.aof = some a := by simp [Host.exec, Node.exec, hflush, hrec, ha]
    simp only [recorded, hrec, Option.isSome_none, Bool.false_eq_true, if_false, List.append_nil]
    refine ⟨⟨hbare, ⟨a, haof, hlog⟩, ht.records⟩, ?_⟩
    rintro hc ⟨db, hdb, hsnap, hsame⟩
    refine ⟨db, hdb, hsnap, SameValues.trans ?_ hsame⟩
    cases hr : route argv with
    | error e =>
      have hst : (execStore g env argv h.node.store).1 = h.node.store := by rw [execStore_error g env argv _ hr]
      show SameValues (execStore g env argv h.node.store).1.db h.node.store.db
      rw [hst]
      exact .refl _
    | ok spec => exact (SameValues.of_live (unrecorded_keeps g hr hfl hc.1 hc.2 hrec) ht.bare hbare).symm
  | some b =>
    obtain ⟨rfl, hl⟩ := record_spec g hrec
    simp only [recorded, hrec, Option.isSome_some, if_true, List.mem_singleton, forall_eq] at hok ⊢
    have hc : Replayable argv := ⟨hl, hfree, hok.1, hok.2⟩
    have haof : (h.exec g env argv).node.aof = some (a.append (encodeMultibulk argv)) := by
      simp [Host.exec, Node.exec, hflush, hrec, ha]
    refine ⟨⟨hbare, ⟨_, haof, by simp [hlog, logOf]⟩, fun c hmem => ?_⟩, ?_⟩
    · rcases List.mem_append.1 hmem with hmem | hmem
      · exact ht.records c hmem
      · exact List.mem_singleton.1 hmem ▸ hc
    · rintro - ⟨db, hdb, hsnap, hsame⟩
      refine ⟨db, hdb, hsnap, ?_⟩
      have hback := (replay_same g ht.records (0, ⟨db, fun _ => none⟩) (0, ⟨db, fun _ => none⟩) hdb hdb
        (.refl db) (fun _ => .quiet 0) fun _ => .quiet 0).1
      rw [List.foldl_append]
      exact hc.same g ht.bare hback hsame _ _

/-- The log of a shard, read from its file. -/
theorem Tracked.replayed (ht : Tracked h cs) {a : Aof} (ha : h.node.aof = some a) (hsize : a.close.length < 2 ^ 62) :
    replayed a.close = cs := by
  obtain ⟨a', ha', hlog⟩ := ht.log
  obtain rfl := Option.some.inj (ha.symm.trans ha')
  rw [hlog] at hsize ⊢
  exact replayed_logOf (fun c hc => ⟨(ht.records c hc).loggable.ne_nil, (ht.records c hc).fits⟩) hsize

theorem Tracked.save (ht : Tracked h cs) : Tracked h.save cs := ⟨ht.bare, ht.log, ht.records⟩

/-- A shard that starts without files, with a log. -/
def freshHost (policy : FsyncPolicy) : Host γ := ⟨⟨⟨.empty, fun _ => none⟩, some (Aof.openFile policy [])⟩, none⟩

end Recovery

end BlazeKV
