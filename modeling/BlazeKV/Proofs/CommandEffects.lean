import BlazeKV.Proofs.CommandTable
import BlazeKV.Spec.Vectors

/-! What one command may leave behind: nothing after an error, and nothing that its
record does not tell. `ZADD` breaks both, and the commands that find an empty container
break the second. -/

namespace BlazeKV

open Keyspace

theorem find_mem {name : Bytes} {spec : CommandSpec} (h : CommandTable.find name = some spec) :
    spec ∈ CommandTable.specs ∧ spec.name = name :=
  ⟨List.mem_of_find?_eq_some h, by simpa using List.find?_some h⟩

/-- The entry of a name is the one that the table finds. -/
theorem route_spec {argv : List Bytes} {spec spec' : CommandSpec} (h : route argv = .ok spec) {name : Bytes}
    (hn : spec.name = name) (hf : CommandTable.find name = some spec') : spec = spec' := by
  have hfind := (route_ok h).1
  rw [← (find_mem hfind).2, hn, hf] at hfind
  exact (Option.some.inj hfind).symm

section Vectors

variable {γ : Type} (g : HnswGraph γ) (argv : List Bytes) (vs : Vectors γ)

/-- An error of a vector command leaves the indexes. -/
theorem Vectors.run_error (h : isError (Vectors.run g argv vs).reply) : (Vectors.run g argv vs).vectors = vs := by
  have hdim : isError Vectors.errDimension = true := rfl
  simp only [Vectors.run, Vectors.vadd, Vectors.vsim, Vectors.vcard, Vectors.vrem] at h ⊢
  grind

/-- So does a vector command that is not marked dirty. -/
theorem Vectors.run_tidy (h : (Vectors.run g argv vs).dirty = false) : (Vectors.run g argv vs).vectors = vs := by
  have hrem : ∀ x : HnswIndex γ, ∀ l, (x.remove g l).2 = false → (x.remove g l).1 = x := by
    intro x l hx
    unfold HnswIndex.remove at hx ⊢
    split at hx
    · rfl
    · cases hx
  have hback : ∀ x, vs (arg argv 1) = some x → Function.update vs (arg argv 1) (some x) = vs := by
    intro x hx
    rw [← hx, Function.update_eq_self]
  simp only [Vectors.run, Vectors.vadd, Vectors.vsim, Vectors.vcard, Vectors.vrem] at h ⊢
  grind

/-- The commands that change indexes reply with, and are marked by, what these say. -/
inductive VectorSpec (spec : CommandSpec) : Prop
  | vadd (h : spec.write) (hf : spec.fn = Cmd.vadd)
  | vrem (h : spec.write) (hf : spec.fn = Cmd.vrem)

theorem vsim_vectors : (Vectors.vsim g argv vs).vectors = vs := by
  unfold Vectors.vsim
  grind

theorem vectorSpec {spec : CommandSpec} (h : CommandTable.find (lowercase (cmdName argv)) = some spec) :
    VectorSpec spec ∨ (Vectors.run g argv vs).vectors = vs := by
  unfold Vectors.run
  dsimp only
  split_ifs with h1 h2 h3 h4
  · rw [h1] at h
    obtain rfl := Option.some.inj h
    exact .inl (.vadd rfl rfl)
  · exact .inr (vsim_vectors g argv vs)
  · exact .inr rfl
  · rw [h4] at h
    obtain rfl := Option.some.inj h
    exact .inl (.vrem rfl rfl)
  · exact .inr rfl

end Vectors

section Store

variable {γ : Type} (g : HnswGraph γ) (env : Env) (argv : List Bytes) (st : Store γ)

@[simp] theorem withVectors_now (vs : Vectors γ) : (env.withVectors g vs).now = env.now := rfl

theorem execStore_error {e : Bytes} (h : route argv = .error e) :
    execStore g env argv st = (st, ⟨st.db, e, false, none⟩) := by
  simp [execStore, execCore, h]

theorem execStore_ok {spec : CommandSpec} (h : route argv = .ok spec) :
    execStore g env argv st =
      (let r := spec.fn (env.withVectors g st.vectors) argv st.db
       (⟨r.db, if r.flush then fun _ => none else (Vectors.run g argv st.vectors).vectors⟩,
        ⟨r.db, r.reply, r.flush, if r.dirty && spec.write then some (encodeMultibulk argv) else none⟩)) := by
  simp [execStore, execCore, h]

/-- A handler that replies with an error leaves the indexes. -/
theorem vectors_error {spec : CommandSpec} (h : route argv = .ok spec)
    (he : isError (spec.fn (env.withVectors g st.vectors) argv st.db).reply) :
    (Vectors.run g argv st.vectors).vectors = st.vectors := by
  rcases vectorSpec g argv st.vectors (route_ok h).1 with hv | hv
  · refine Vectors.run_error g argv st.vectors ?_
    cases hv with
    | vadd _ hf => rwa [hf] at he
    | vrem _ hf => rwa [hf] at he
  · exact hv

/-- So does a handler that leaves no record. -/
theorem vectors_tidy {spec : CommandSpec} (h : route argv = .ok spec)
    (hd : ((spec.fn (env.withVectors g st.vectors) argv st.db).dirty && spec.write) = false) :
    (Vectors.run g argv st.vectors).vectors = st.vectors := by
  rcases vectorSpec g argv st.vectors (route_ok h).1 with hv | hv
  · cases hv with
    | vadd hw hf =>
      rw [hf, hw, Bool.and_true] at hd
      exact Vectors.run_tidy g argv st.vectors hd
    | vrem hw hf =>
      rw [hf, hw, Bool.and_true] at hd
      exact Vectors.run_tidy g argv st.vectors hd
  · exact hv

/-- `ZADD` meets a score that does not parse after it has changed the sorted set. -/
def zaddPartial (env : Env) (argv : List Bytes) (db : Keyspace) : Prop :=
  (∃ spec, route argv = .ok spec ∧ spec.name = ascii "zadd") ∧ Cmd.zaddStops env argv db ∧
    ¬Cmd.ZaddUndone env argv db

/-- The command reaches its handler, which drops a key without being marked dirty. -/
def quietErase (env : Env) (argv : List Bytes) (db : Keyspace) : Prop :=
  ∃ spec, route argv = .ok spec ∧ quietlyErases spec.name env argv db

/-- `FLUSHALL` or `FLUSHDB`. -/
def flushes (argv : List Bytes) : Prop :=
  ∃ spec, route argv = .ok spec ∧ (spec.name = ascii "flushall" ∨ spec.name = ascii "flushdb")

/-- The live keys with their values and deadlines are the same, and so are the indexes. -/
def Store.Same (now : ℕ) (st st' : Store γ) : Prop :=
  LiveEquiv now st.db st'.db ∧ st'.vectors = st.vectors

theorem Store.Same.isSome {now : ℕ} {st st' : Store γ} (h : st.Same now st') (k : Bytes) :
    (st'.db.peek now k).isSome = (st.db.peek now k).isSome := Cmd.peek_of_live (h.1 k)

theorem Store.Same.refl (now : ℕ) (st : Store γ) : st.Same now st := ⟨.refl _, rfl⟩

variable {spec : CommandSpec} {env argv}

theorem zaddPartial_ok (h : route argv = .ok spec) {db : Keyspace} : zaddPartial env argv db ↔
    spec.name = ascii "zadd" ∧ Cmd.zaddStops env argv db ∧ ¬Cmd.ZaddUndone env argv db := by
  simp [zaddPartial, h]

theorem quietErase_ok (h : route argv = .ok spec) {db : Keyspace} :
    quietErase env argv db ↔ quietlyErases spec.name env argv db := by
  simp [quietErase, h]

theorem quietlyErases_none {name : Bytes} (h : name ∉ shrinkers) {db : Keyspace} :
    quietlyErases name env argv db = false := by
  simp only [shrinkers, List.mem_cons, List.not_mem_nil, or_false, not_or] at h
  simp [quietlyErases, h]

variable (env argv)

/-- A command that is replied to with an error leaves the live keys and the indexes as
they were, unless it is a `ZADD` that had changed the sorted set when it met the bad
score. -/
theorem error_leaves_store_iff :
    (isError (execStore g env argv st).2.reply → st.Same env.now (execStore g env argv st).1) ↔
      ¬zaddPartial env argv st.db := by
  cases hr : route argv with
  | error e =>
    rw [execStore_error g env argv st hr]
    exact iff_of_true (fun _ => .refl _ st) (by simp [zaddPartial, hr])
  | ok spec =>
    have hmem := find_mem (route_ok hr).1
    have har := (route_ok hr).2
    rw [zaddPartial_ok hr, execStore_ok g env argv st hr]
    dsimp only
    cases deeds spec hmem.1 with
    | reads hw hn h =>
      have hreads := h (env.withVectors g st.vectors) argv st.db har
      refine iff_of_true (fun he => ⟨hreads.looked.liveEquiv, ?_⟩) (fun hz => hn (by simp [hz.1, shrinkers]))
      simp only [hreads.flush, Bool.false_eq_true, if_false]
      exact vectors_error g env argv st hr he
    | tame hw hn h =>
      have htame := h (env.withVectors g st.vectors) argv st.db har
      refine iff_of_true (fun he => ⟨htame.fails he, ?_⟩) (fun hz => hn (by simp [hz.1, shrinkers]))
      simp only [htame.flush, Bool.false_eq_true, if_false]
      exact vectors_error g env argv st hr he
    | shrinks hw hn h =>
      have hsh := h (env.withVectors g st.vectors) argv st.db har
      refine iff_of_true (fun he => ⟨hsh.fails he, ?_⟩) (fun hz => hn hz.1)
      simp only [hsh.flush, Bool.false_eq_true, if_false]
      exact vectors_error g env argv st hr he
    | zadd h =>
      have hv := fun he => vectors_error g env argv st hr he
      subst h
      simp only [Cmd.zadd_flush, Bool.false_eq_true, if_false, Store.Same, true_and, not_and, not_not]
      cases hstop : Cmd.zaddStops env argv st.db with
      | true =>
        obtain ⟨he, -, hiff⟩ := Cmd.zadd_stop_iff (env.withVectors g st.vectors) argv st.db hstop
        exact ⟨fun h _ => hiff.1 (h he).1, fun h _ => ⟨hiff.2 (h rfl), hv he⟩⟩
      | false =>
        refine iff_of_true (fun he => ⟨?_, hv he⟩) (by simp)
        exact Cmd.zadd_noStop (env.withVectors g st.vectors) argv st.db hstop he
    | flush hn hw h =>
      refine iff_of_true (fun he => ?_) fun hz => ?_
      · rw [h] at he
        cases he
      · rcases hn with hn | hn <;> rw [hn] at hz <;> exact absurd hz.1 (by decide)

/-- `ZADD z 1 a bad b` replies with an error after it has created `z` with a member. -/
theorem zadd_error_stores : ¬ ∀ (g : HnswGraph Unit) (env : Env) (argv : List Bytes) (st : Store Unit),
    isError (execStore g env argv st).2.reply → st.Same env.now (execStore g env argv st).1 := by
  intro h
  have hsame := h ⟨(), fun _ _ _ => (), fun _ _ _ => (), fun _ _ => (), fun _ _ _ _ => []⟩ (.quiet 0)
    [ascii "ZADD", [122], ascii "1", [97], ascii "bad", [98]] ⟨.empty, fun _ => none⟩ (by decide +kernel)
  exact absurd (hsame.isSome [122]) (by decide +kernel)

/-- A command that is not a flush and changes a live key or an index is recorded, unless
it is a `ZADD` that stops at a bad score or a command that quietly erases a key. -/
theorem change_is_recorded_iff (hfl : ¬flushes argv) :
    (¬st.Same env.now (execStore g env argv st).1 →
      (execStore g env argv st).2.record = some (encodeMultibulk argv)) ↔
      ¬zaddPartial env argv st.db ∧ ¬quietErase env argv st.db := by
  cases hr : route argv with
  | error e =>
    rw [execStore_error g env argv st hr]
    exact iff_of_true (fun hne => absurd (.refl _ st) hne) (by simp [zaddPartial, quietErase, hr])
  | ok spec =>
    have hmem := find_mem (route_ok hr).1
    have har := (route_ok hr).2
    rw [zaddPartial_ok hr, quietErase_ok hr, execStore_ok g env argv st hr]
    have hv := vectors_tidy g env argv st hr
    dsimp only
    cases deeds spec hmem.1 with
    | reads hw hn h =>
      have hreads := h (env.withVectors g st.vectors) argv st.db har
      refine iff_of_true (fun hne => absurd ⟨hreads.looked.liveEquiv, ?_⟩ hne)
        ⟨fun hz => hn (by simp [hz.1, shrinkers]), by simp [quietlyErases_none hn]⟩
      simp only [hreads.flush, Bool.false_eq_true, if_false]
      exact hv (by simp [hw])
    | tame hw hn h =>
      have htame := h (env.withVectors g st.vectors) argv st.db har
      refine iff_of_true (fun hne => ?_)
        ⟨fun hz => hn (by simp [hz.1, shrinkers]), by simp [quietlyErases_none hn]⟩
      cases hd : (spec.fn (env.withVectors g st.vectors) argv st.db).dirty with
      | true => simp [hw]
      | false =>
        refine absurd ⟨htame.tidy hd, ?_⟩ hne
        simp only [htame.flush, Bool.false_eq_true, if_false]
        exact hv (by simp [hd])
    | shrinks hw hn h =>
      have hsh := h (env.withVectors g st.vectors) argv st.db har
      have hsame : quietlyErases spec.name (env.withVectors g st.vectors) argv st.db =
        quietlyErases spec.name env argv st.db := rfl
      simp only [hsh.flush, Bool.false_eq_true, if_false, hn, false_and, not_false_iff, true_and, Store.Same]
      cases hd : (spec.fn (env.withVectors g st.vectors) argv st.db).dirty with
      | true =>
        refine iff_of_true (fun _ => by simp [hw]) fun hq => ?_
        exact absurd (hsh.quiet (hsame ▸ hq)) (by simp [hd])
      | false =>
        have htidy := hsh.tidy hd
        rw [hsame, withVectors_now] at htidy
        rw [htidy, hv (by simp [hd])]
        cases quietlyErases spec.name env argv st.db <;> simp
    | zadd h =>
      subst h
      have herase : quietlyErases (ascii "zadd") env argv st.db = Cmd.zaddVain env argv st.db := rfl
      simp only [Cmd.zadd_flush, Bool.false_eq_true, if_false, Store.Same, true_and, herase] at hv ⊢
      cases hstop : Cmd.zaddStops env argv st.db with
      | true =>
        obtain ⟨-, hd, hiff⟩ := Cmd.zadd_stop_iff (env.withVectors g st.vectors) argv st.db hstop
        have hvain : Cmd.zaddVain env argv st.db = false := by
          simp only [Cmd.zaddStops, Bool.and_eq_true, Bool.not_eq_true'] at hstop
          simp [Cmd.zaddVain, hstop.1.2]
        have hundone : Cmd.ZaddUndone (env.withVectors g st.vectors) argv st.db ↔
          Cmd.ZaddUndone env argv st.db := .rfl
        rw [hundone, withVectors_now] at hiff
        rw [hiff, hv (by simp [hd]), hvain]
        simp [hd]
      | false =>
        have hiff := Cmd.zadd_clean_iff (env.withVectors g st.vectors) argv st.db hstop
        rw [withVectors_now] at hiff
        cases hd : (Cmd.zadd (env.withVectors g st.vectors) argv st.db).dirty with
        | true =>
          refine iff_of_true (fun _ => by simp) ⟨by simp, fun hvain => ?_⟩
          have := Cmd.zaddVain_quiet (env.withVectors g st.vectors) argv st.db hvain
          rw [hd] at this
          cases this
        | false =>
          have hvain : Cmd.zaddVain (env.withVectors g st.vectors) argv st.db = Cmd.zaddVain env argv st.db := rfl
          rw [hiff hd, hv (by simp [hd]), hvain]
          cases Cmd.zaddVain env argv st.db <;> simp
    | flush hn hw h => exact absurd ⟨spec, hr, hn⟩ hfl

theorem change_is_recorded_set : (execStore ⟨(), fun _ _ _ => (), fun _ _ _ => (), fun _ _ => (), fun _ _ _ _ => []⟩
    (.quiet 0) [ascii "SET", [97], [98]] ⟨.empty, fun _ => none⟩).2.record =
      some (encodeMultibulk [ascii "SET", [97], [98]]) := by
  have hname : lowercase (cmdName [ascii "SET", [97], [98]]) = ascii "set" := by decide
  have hspec : ∀ spec, route [ascii "SET", [97], [98]] = .ok spec → spec.name = ascii "set" := fun spec h =>
    (find_mem (route_ok h).1).2.trans hname
  refine (change_is_recorded_iff _ (.quiet 0) [ascii "SET", [97], [98]] ⟨.empty, fun _ => none⟩ ?_).2 ⟨?_, ?_⟩ ?_
  · rintro ⟨spec, h, hs⟩
    rw [hspec spec h] at hs
    exact absurd hs (by decide)
  · rintro ⟨⟨spec, h, hs⟩, -⟩
    rw [hspec spec h] at hs
    exact absurd hs (by decide)
  · rintro ⟨spec, h, hs⟩
    rw [hspec spec h] at hs
    exact absurd hs (by decide +kernel)
  · intro hsame
    exact absurd (hsame.isSome [97]) (by decide +kernel)

/-- `ZADD z bad a` creates `z` and leaves no record. -/
theorem zadd_unrecorded : ¬ ∀ (g : HnswGraph Unit) (env : Env) (argv : List Bytes) (st : Store Unit),
    ¬flushes argv → ¬st.Same env.now (execStore g env argv st).1 →
      (execStore g env argv st).2.record = some (encodeMultibulk argv) := by
  intro h
  have hrec := h ⟨(), fun _ _ _ => (), fun _ _ _ => (), fun _ _ => (), fun _ _ _ _ => []⟩ (.quiet 0)
    [ascii "ZADD", [122], ascii "bad", [97]] ⟨.empty, fun _ => none⟩ ?_ ?_
  · exact absurd hrec (by decide +kernel)
  · rintro ⟨spec, hok, hn⟩
    rw [(find_mem (route_ok hok).1).2] at hn
    exact absurd hn (by decide)
  · intro hsame
    exact absurd (hsame.isSome [122]) (by decide +kernel)

end Store

end BlazeKV
