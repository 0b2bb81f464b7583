import BlazeKV.Proofs.HnswSafety
import BlazeKV.Proofs.LinkedSets
import BlazeKV.Spec.Checked.Registry

/-! No command faults where no string would outgrow `max_size()` and no index the identifiers of its
nodes. Nothing catches what `resize` and `append` throw. -/

namespace BlazeKV.Checked

open Hnsw Lib

/-- A handler does what the model without accesses says. -/
def Completes (lim : Limits) (spec : CommandSpec) (fn : CheckedHandler) : Prop :=
  ∀ env argv db, spec.arity.natAbs ≤ argv.length → db.All LinkedObject →
    (spec.name = ascii "setrange" → setrangeFits lim env argv db) →
    (spec.name = ascii "append" → appendFits lim env argv db) → fn env argv db = .ok (spec.fn env argv db)

/-- The table and the handlers side by side; the vector commands have handlers of another kind. -/
inductive Beside (lim : Limits) : List CommandSpec → List (Bytes × CheckedHandler) → Prop
  | nil : Beside lim [] []
  | vector {spec specs fns} (h : spec.name ∈ [ascii "vadd", ascii "vsim", ascii "vcard", ascii "vrem"])
      (hrest : Beside lim specs fns) : Beside lim (spec :: specs) fns
  | cons {spec specs fn fns} (h : Completes lim spec fn) (hrest : Beside lim specs fns) :
      Beside lim (spec :: specs) ((spec.name, fn) :: fns)

section Table

variable {lim : Limits} {spec : CommandSpec} {fn : CheckedHandler}

theorem completes_args (n : ℕ) (hn : n ≤ spec.arity.natAbs)
    (h : ∀ env argv db, n ≤ argv.length → fn env argv db = .ok (spec.fn env argv db)) : Completes lim spec fn :=
  fun env argv db har _ _ _ => h env argv db (hn.trans har)

theorem completes_sets (n : ℕ) (hn : n ≤ spec.arity.natAbs)
    (h : ∀ env argv db, Keyspace.All LinkedObject db → n ≤ argv.length → fn env argv db = .ok (spec.fn env argv db)) :
    Completes lim spec fn :=
  fun env argv db har hdb _ _ => h env argv db hdb (hn.trans har)

theorem completes_always (h : ∀ env argv db, fn env argv db = .ok (spec.fn env argv db)) : Completes lim spec fn :=
  fun env argv db _ _ _ _ => h env argv db

theorem handlers_beside : Beside lim CommandTable.specs (handlers lim) := by
  unfold CommandTable.specs specsWith handlers
  exact .cons (completes_args 2 (by decide) fun _ _ _ h => get_runs h) <|
    .cons (completes_args 3 (by decide) fun _ _ _ h => set_runs h) <|
    .cons (completes_args 3 (by decide) fun _ _ _ h => setnx_runs h) <|
    .cons (completes_args 4 (by decide) fun _ _ _ h => setex_runs h) <|
    .cons (completes_args 4 (by decide) fun _ _ _ h => setex_runs h) <|
    .cons (completes_args 3 (by decide) fun _ _ _ h => getset_runs h) <|
    .cons (fun _ _ _ har _ _ hfit => append_runs _ har (hfit rfl)) <|
    .cons (completes_args 2 (by decide) fun _ _ _ h => strlen_runs h) <|
    .cons (completes_args 2 (by decide) fun _ _ _ h => incrBy_runs h 1) <|
    .cons (completes_args 2 (by decide) fun _ _ _ h => incrBy_runs h (-1)) <|
    .cons (completes_args 3 (by decide) fun _ _ _ h => incrby_runs h) <|
    .cons (completes_args 3 (by decide) fun _ _ _ h => decrby_runs h) <|
    .cons (completes_args 3 (by decide) fun _ _ _ h => incrbyfloat_runs h) <|
    .cons (completes_always fun _ _ _ => mget_runs) <|
    .cons (completes_always fun _ _ _ => mset_runs) <|
    .cons (completes_args 4 (by decide) fun _ _ _ h => getrange_runs h) <|
    .cons (fun _ _ _ har _ hfit _ => setrange_runs _ har (hfit rfl)) <|
    .cons (completes_always fun _ _ _ => del_runs) <|
    .cons (completes_always fun _ _ _ => del_runs) <|
    .cons (completes_always fun _ _ _ => exists'_runs) <|
    .cons (completes_always fun _ _ _ => exists'_runs) <|
    .cons (completes_args 3 (by decide) fun _ _ _ h => expireBy_runs h _) <|
    .cons (completes_args 3 (by decide) fun _ _ _ h => expireBy_runs h _) <|
    .cons (completes_args 3 (by decide) fun _ _ _ h => expireBy_runs h _) <|
    .cons (completes_args 2 (by decide) fun _ _ _ h => ttl_runs h) <|
    .cons (completes_args 2 (by decide) fun _ _ _ h => pttl_runs h) <|
    .cons (completes_args 2 (by decide) fun _ _ _ h => persist_runs h) <|
    .cons (completes_args 2 (by decide) fun _ _ _ h => type_runs h) <|
    .cons (completes_args 2 (by decide) fun _ _ _ h => keys_runs h) <|
    .cons (completes_always fun _ _ _ => scan_runs) <|
    .cons (completes_args 3 (by decide) fun _ _ _ h => rename_runs h) <|
    .cons (completes_always fun _ _ _ => rfl) <|
    .cons (completes_args 2 (by decide) fun _ _ _ h => object_runs h) <|
    .cons (completes_args 2 (by decide) fun _ _ _ h => hset_runs h) <|
    .cons (completes_args 2 (by decide) fun _ _ _ h => hset_runs h) <|
    .cons (completes_args 3 (by decide) fun _ _ _ h => hget_runs h) <|
    .cons (completes_args 2 (by decide) fun _ _ _ h => hdel_runs h) <|
    .cons (completes_args 3 (by decide) fun _ _ _ h => hexists_runs h) <|
    .cons (completes_args 2 (by decide) fun _ _ _ h => hashEntries_runs h _ _) <|
    .cons (completes_args 2 (by decide) fun _ _ _ h => hashEntries_runs h _ _) <|
    .cons (completes_args 2 (by decide) fun _ _ _ h => hashEntries_runs h _ _) <|
    .cons (completes_args 2 (by decide) fun _ _ _ h => hlen_runs h) <|
    .cons (completes_args 4 (by decide) fun _ _ _ h => hincrby_runs h) <|
    .cons (completes_args 2 (by decide) fun _ _ _ h => hmget_runs h) <|
    .cons (completes_args 2 (by decide) fun _ _ _ h => push_runs h true) <|
    .cons (completes_args 2 (by decide) fun _ _ _ h => push_runs h false) <|
    .cons (completes_args 2 (by decide) fun _ _ _ h => pop_runs h true) <|
    .cons (completes_args 2 (by decide) fun _ _ _ h => pop_runs h false) <|
    .cons (completes_args 2 (by decide) fun _ _ _ h => llen_runs h) <|
    .cons (completes_args 4 (by decide) fun _ _ _ h => lrange_runs h) <|
    .cons (completes_args 3 (by decide) fun _ _ _ h => lindex_runs h) <|
    .cons (completes_args 4 (by decide) fun _ _ _ h => lset_runs h) <|
    .cons (completes_args 2 (by decide) fun _ _ _ h => sadd_runs h) <|
    .cons (completes_args 2 (by decide) fun _ _ _ h => srem_runs h) <|
    .cons (completes_args 3 (by decide) fun _ _ _ h => sismember_runs h) <|
    .cons (completes_args 2 (by decide) fun _ _ _ h => scard_runs h) <|
    .cons (completes_args 2 (by decide) fun _ _ _ h => smembers_runs h) <|
    .cons (completes_args 2 (by decide) fun _ _ _ h => spop_runs h) <|
    .cons (completes_sets 2 (by decide) fun _ _ _ hdb h => zadd_runs hdb h) <|
    .cons (completes_sets 2 (by decide) fun _ _ _ hdb h => zrem_runs hdb h) <|
    .cons (completes_args 3 (by decide) fun _ _ _ h => zscore_runs h) <|
    .cons (completes_args 2 (by decide) fun _ _ _ h => zcard_runs h) <|
    .cons (completes_sets 3 (by decide) fun _ _ _ hdb h => zrank_runs hdb h) <|
    .cons (completes_sets 4 (by decide) fun _ _ _ hdb h => zrange_runs hdb h) <|
    .cons (completes_sets 4 (by decide) fun _ _ _ hdb h => zrangebyscore_runs hdb h) <|
    .cons (completes_sets 4 (by decide) fun _ _ _ hdb h => zincrby_runs hdb h) <|
    .cons (completes_args 2 (by decide) fun _ _ _ h => pfadd_runs _ h) <|
    .cons (completes_always fun _ _ _ => pfcount_runs _) <|
    .cons (completes_args 2 (by decide) fun _ _ _ h => pfmerge_runs _ h) <|
    .vector (by decide) <| .vector (by decide) <| .vector (by decide) <| .vector (by decide) <|
    .cons (completes_always fun _ _ _ => ping_runs) <|
    .cons (completes_args 2 (by decide) fun _ _ _ h => echo_runs h) <|
    .cons (completes_always fun _ _ _ => rfl) <|
    .cons (completes_always fun _ _ _ => command_runs) <|
    .cons (completes_always fun _ _ _ => info_runs) <|
    .cons (completes_always fun _ _ _ => rfl) <|
    .cons (completes_always fun _ _ _ => rfl) <|
    .cons (completes_always fun _ _ _ => rfl) <|
    .cons (completes_args 2 (by decide) fun _ _ _ h => config_runs h) <|
    .cons (completes_always fun _ _ _ => rfl) <|
    .cons (completes_args 2 (by decide) fun _ _ _ h => client_runs h) <|
    .cons (completes_always fun _ _ _ => rfl) <|
    .cons (completes_args 2 (by decide) fun _ _ _ h => debug_runs h) <|
    .cons (completes_always fun _ _ _ => rfl) .nil

/-- A lookup in either table finds the same command. -/
theorem Beside.lookup {specs : List CommandSpec} {fns : List (Bytes × CheckedHandler)} (h : Beside lim specs fns) {name : Bytes}
    (hname : name ∉ [ascii "vadd", ascii "vsim", ascii "vcard", ascii "vrem"])
    (hfind : specs.find? (fun s => s.name = name) = some spec) :
    spec.name = name ∧ ∃ fn, fns.lookup name = some fn ∧ Completes lim spec fn := by
  induction h with
  | nil => exact absurd hfind (by simp)
  | @vector s specs fns hs hrest ih =>
    have hne : s.name ≠ name := fun he => hname (he ▸ hs)
    exact ih (by rwa [List.find?_cons_of_neg (by simpa using hne)] at hfind)
  | @cons s specs fn fns hc hrest ih =>
    by_cases he : s.name = name
    · rw [List.find?_cons_of_pos (by simpa using he)] at hfind
      obtain rfl := Option.some.inj hfind
      exact ⟨he, fn, by rw [← he, List.lookup_cons_self], hc⟩
    · rw [List.find?_cons_of_neg (by simpa using he)] at hfind
      obtain ⟨hn, fn', hl, hc'⟩ := ih hfind
      refine ⟨hn, fn', ?_, hc'⟩
      rw [List.lookup_cons, beq_eq_false_iff_ne.2 (Ne.symm he)]
      exact hl

end Table

section Shard

variable {F : Type} {lim : Limits} {M : Metric F} {env : Env} {argv : List Bytes} {st : Store (Graph F)} {spec : CommandSpec}

/-- The strings that the command would lengthen stay within `max_size()`. -/
def StringsFit (lim : Limits) (env : Env) (argv : List Bytes) (db : Keyspace) : Prop :=
  ∀ spec, route argv = .ok spec → (spec.name = ascii "setrange" → setrangeFits lim env argv db) ∧
    (spec.name = ascii "append" → appendFits lim env argv db)

/-- An index that would take in a new node has an identifier for it. -/
def VectorsFit (argv : List Bytes) (vs : Vectors (Graph F)) : Prop :=
  ∀ spec, route argv = .ok spec → spec.name = ascii "vadd" → vaddFits argv vs

/-- What the shard stores is well formed. -/
structure SoundStore (st : Store (Graph F)) : Prop where
  db : InOrder LinkedObject st.db
  vectors : st.vectors.Sound

theorem soundStore_start : SoundStore (⟨.empty, fun _ => none⟩ : Store (Graph F)) :=
  ⟨.empty, fun _ _ h => absurd h (by simp)⟩

theorem lookup_vectorHandlers {name : Bytes} {fn} (h : (vectorHandlers lim M).lookup name = some fn) :
    name = ascii "vadd" ∧ fn = vadd lim M ∨ name = ascii "vsim" ∧ fn = vsim lim M ∨ name = ascii "vcard" ∧ fn = vcard ∨
      name = ascii "vrem" ∧ fn = vrem := by
  obtain ⟨l₁, l₂, hl, -⟩ := List.lookup_eq_some_iff.1 h
  have hmem : (name, fn) ∈ vectorHandlers lim M := by
    rw [hl]
    simp
  simpa [vectorHandlers] using hmem

theorem not_mem_vectorHandlers {name : Bytes} (h : (vectorHandlers lim M).lookup name = none) :
    name ∉ [ascii "vadd", ascii "vsim", ascii "vcard", ascii "vrem"] := by
  intro hmem
  have := List.lookup_eq_none_iff.1 h
  simp only [vectorHandlers, List.forall_mem_cons] at this
  simp only [List.mem_cons, List.not_mem_nil, or_false] at hmem
  simp_all

/-- The arity of a command by its name. -/
theorem arity_of_find {n : ℤ} (hr : route argv = .ok spec)
    (hfind : (CommandTable.find spec.name).map CommandSpec.arity = some n) : n.natAbs ≤ argv.length := by
  have hspec := (route_ok hr).1
  rw [← (find_mem hspec).2] at hspec
  rw [hspec] at hfind
  obtain rfl := Option.some.inj hfind
  exact arity_le (route_ok hr).2

theorem execStore_runs (hst : SoundStore st) (hstr : StringsFit lim env argv st.db) (hvec : VectorsFit argv st.vectors) :
    ∃ r, execStore lim M env argv st = .ok r ∧ SoundStore r.1 := by
  unfold execStore
  cases hr : route argv with
  | error e => exact ⟨_, rfl, hst⟩
  | ok spec =>
    have hmem := find_mem (route_ok hr).1
    dsimp only
    cases hl : (vectorHandlers lim M).lookup spec.name with
    | some fn =>
      have hruns : ∃ v, fn argv st.vectors = .ok v ∧ v.vectors.Sound := by
        rcases lookup_vectorHandlers hl with ⟨hn, rfl⟩ | ⟨hn, rfl⟩ | ⟨hn, rfl⟩ | ⟨hn, rfl⟩
        · have := arity_of_find (n := -4) hr (by rw [hn]; rfl)
          exact vadd_runs hst.vectors (by omega) (hvec spec hr hn)
        · have := arity_of_find (n := -4) hr (by rw [hn]; rfl)
          exact vsim_runs hst.vectors (by omega)
        · have := arity_of_find (n := 2) hr (by rw [hn]; rfl)
          exact vcard_runs hst.vectors (by omega)
        · have := arity_of_find (n := 3) hr (by rw [hn]; rfl)
          exact vrem_runs hst.vectors (by omega)
      obtain ⟨v, hv, hsound⟩ := hruns
      exact ⟨_, by dsimp only; rw [hv]; rfl, ⟨hst.db, hsound⟩⟩
    | none =>
      obtain ⟨hn, fn, hfn, hc⟩ := handlers_beside.lookup (not_mem_vectorHandlers hl) (hmem.2 ▸ (route_ok hr).1)
      have har := arity_le (route_ok hr).2
      have hruns := hc env argv st.db har hst.db.all (hstr spec hr).1 (hstr spec hr).2
      refine ⟨_, by dsimp only; rw [hfn, need_of_eq rfl, ok_bind, hruns]; rfl, ⟨fn_linked hmem.1 har hst.db, ?_⟩⟩
      dsimp only
      split_ifs
      · exact fun _ _ h => absurd h (by simp)
      · exact hst.vectors

/-- A command of the keyspace runs its handler. -/
theorem execStore_error {fn : CheckedHandler} {f : Fault} (hr : route argv = .ok spec)
    (hv : (vectorHandlers lim M).lookup spec.name = none) (hfn : (handlers lim).lookup spec.name = some fn)
    (hf : fn env argv st.db = .error f) : execStore lim M env argv st = .error f := by
  unfold execStore
  rw [hr]
  dsimp only
  rw [hv]
  dsimp only
  rw [hfn, need_of_eq rfl, ok_bind, hf]
  rfl

theorem execStore_fails (h : ¬ StringsFit lim env argv st.db) : execStore lim M env argv st = .error .length := by
  unfold StringsFit at h
  push Not at h
  obtain ⟨spec, hr, h⟩ := h
  by_cases hset : spec.name = ascii "setrange" ∧ ¬ setrangeFits lim env argv st.db
  · have har := arity_of_find (n := 4) hr (by rw [hset.1]; rfl)
    exact execStore_error hr (by rw [hset.1]; rfl) (by rw [hset.1]; rfl) (setrange_fails _ har hset.2)
  · obtain ⟨hn, happ⟩ := h fun hn => by_contra fun hf => hset ⟨hn, hf⟩
    have har := arity_of_find (n := 3) hr (by rw [hn]; rfl)
    exact execStore_error hr (by rw [hn]; rfl) (by rw [hn]; rfl) (append_fails _ har happ)

end Shard

section Runs

variable {F : Type} (lim : Limits) (M : Metric F)

/-- What a shard can come to store as long as nothing faults: commands that meet a condition, active
expiry, snapshot loads and flushes in any order and at any readings of the clock. -/
inductive Reached (ok : Env → List Bytes → Store (Graph F) → Prop) : Store (Graph F) → Prop
  | start : Reached ok ⟨.empty, fun _ => none⟩
  | command {st st' : Store (Graph F)} {e : Exec} (env : Env) (argv : List Bytes) (h : Reached ok st) (hok : ok env argv st)
      (he : execStore lim M env argv st = .ok (st', e)) : Reached ok st'
  | cycle {st : Store (Graph F)} (now budget : ℕ) (h : Reached ok st) :
      Reached ok ⟨(st.db.activeExpireCycle now budget).1, st.vectors⟩
  | load {st : Store (Graph F)} (clock : ℕ → ℕ) (levels : Bytes → Levels) (data : Bytes) (h : Reached ok st) :
      Reached ok ⟨(Snapshot.loadInto clock levels data st.db).1, st.vectors⟩
  | flush {st : Store (Graph F)} (h : Reached ok st) : Reached ok ⟨st.db.clear, fun _ => none⟩

/-- Neither a string nor the identifiers of an index run over. -/
def Fits (lim : Limits) (env : Env) (argv : List Bytes) (st : Store (Graph F)) : Prop :=
  StringsFit lim env argv st.db ∧ VectorsFit argv st.vectors

variable {lim M} {st : Store (Graph F)}

theorem Reached.sound (h : Reached lim M (Fits lim) st) : SoundStore st := by
  induction h with
  | start => exact soundStore_start
  | command env argv h hok he ih =>
    obtain ⟨r, hr, hsound⟩ := @execStore_runs F lim M env argv _ ih hok.1 hok.2
    rw [he] at hr
    obtain rfl := Except.ok.inj hr
    exact hsound
  | cycle now budget h ih => exact ⟨cycle_ordered now budget ih.db, ih.vectors⟩
  | load clock levels data h ih =>
    exact ⟨Snapshot.loadInto_ordered (fun levels type s r hr => Snapshot.readValue_linked levels type s r hr) clock data ih.db,
      ih.vectors⟩
  | flush h ih => exact ⟨.clear _, fun _ _ hv => absurd hv (by simp)⟩

/-- In every state of a run in which everything fits, a command that fits runs to completion, and one
that would lengthen a string beyond `max_size()` throws. -/
theorem handlers_complete (h : Reached lim M (Fits lim) st) (env : Env) (argv : List Bytes) :
    (Fits lim env argv st → ∃ r, execStore lim M env argv st = .ok r) ∧
    (¬ StringsFit lim env argv st.db → execStore lim M env argv st = .error .length) := by
  refine ⟨fun hfit => ?_, execStore_fails⟩
  obtain ⟨r, hr, -⟩ := @execStore_runs F lim M env argv _ h.sound hfit.1 hfit.2
  exact ⟨r, hr⟩

end Runs

/-- The limits of a common library. -/
def wide : Limits := ⟨2 ^ 62 - 1, 2 ^ 60 - 1, by decide, by decide⟩

/-- A metric for which all vectors are the same. -/
def flat : Metric Unit where
  prepare _ _ := ()
  distance _ _ := ()
  lt _ _ := false
  score _ := .zero
  level _ := 0
  nearest _ := 0
  farthest _ := 0
  sort l := l
  sort_perm l := .refl l

/-- `SETRANGE a offset x`. -/
def setrangeAt (offset : String) : List Bytes := [ascii "SETRANGE", ascii "a", ascii offset, ascii "x"]

theorem setrangeAt_route (offset : String) : ∃ spec, route (setrangeAt offset) = .ok spec ∧ spec.name = ascii "setrange" := ⟨_, rfl, rfl⟩

/-- An offset that a 64-bit number holds, and no string. -/
theorem setrange_too_far : ¬ StringsFit wide (.quiet 0) (setrangeAt "9223372036854775807") .empty := by
  intro h
  obtain ⟨spec, hr, hn⟩ := setrangeAt_route "9223372036854775807"
  have hparse : parseInt (ascii "9223372036854775807") = some 9223372036854775807 := by decide +kernel
  have hlen := (h spec hr).1 hn 9223372036854775807 hparse (by decide) [] rfl
  exact absurd hlen (by decide)

theorem setrange_near : Fits wide (.quiet 0) (setrangeAt "3") (⟨.empty, fun _ => none⟩ : Store (Graph Unit)) := by
  obtain ⟨spec, hr, hn⟩ := setrangeAt_route "3"
  have hparse : parseInt (ascii "3") = some 3 := by decide +kernel
  refine ⟨fun spec' hr' => ?_, fun spec' hr' hn' => ?_⟩ <;> obtain rfl := Except.ok.inj (hr.symm.trans hr')
  · refine ⟨fun _ offset hoffset _ s hs => ?_, fun hn' => absurd (hn.symm.trans hn') (by decide)⟩
    obtain rfl := Option.some.inj (hparse.symm.trans hoffset)
    obtain rfl := Option.some.inj hs
    decide
  · exact absurd (hn.symm.trans hn') (by decide)

/-- A string of four bytes, and one of 2^63. -/
theorem handlers_complete_setrange :
    (∃ r, execStore wide flat (.quiet 0) (setrangeAt "3") ⟨.empty, fun _ => none⟩ = .ok r) ∧
    execStore wide flat (.quiet 0) (setrangeAt "9223372036854775807") ⟨.empty, fun _ => none⟩ = .error .length :=
  ⟨(handlers_complete .start (.quiet 0) (setrangeAt "3")).1 setrange_near,
    (@handlers_complete Unit wide flat _ .start (.quiet 0) (setrangeAt "9223372036854775807")).2 setrange_too_far⟩

/-- The shard does not survive the second of them. -/
theorem setrange_throws : ¬ ∀ st : Store (Graph Unit), Reached wide flat (fun _ _ _ => True) st →
    ∀ env argv spec, route argv = .ok spec → ∃ r, execStore wide flat env argv st = .ok r := by
  intro h
  obtain ⟨spec, hr, -⟩ := setrangeAt_route "9223372036854775807"
  obtain ⟨r, hrun⟩ := h _ .start (.quiet 0) _ spec hr
  rw [execStore_fails setrange_too_far] at hrun
  cases hrun

end BlazeKV.Checked
