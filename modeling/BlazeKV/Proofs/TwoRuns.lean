import BlazeKV.Proofs.Deadlines

/-! A command on two keyspaces that hold the same. The relation compares what is live,
and where `P` holds also what is stored: the values by contents, and the deadlines. -/

namespace BlazeKV

open Keyspace

/-- Equivalent objects, or none on both sides. -/
def sameObject : Option Object → Option Object → Prop
  | none, none => True
  | some o, some o' => o.Equiv o'
  | _, _ => False

theorem sameObject.refl (o : Option Object) : sameObject o o := by
  cases o
  · trivial
  · exact Object.Equiv.refl _

theorem sameObject.entry {o o' : Option Object} (h : sameObject o o') (d : Option ℕ) :
    sameEntry (o.map fun o => (o, d)) (o'.map fun o => (o, d)) := by
  cases o <;> cases o' <;> trivial

theorem sameObject.isSome {o o' : Option Object} (h : sameObject o o') : o'.isSome = o.isSome := by
  cases o <;> cases o' <;> first | rfl | exact False.elim h

/-- The same keys with equivalent values and the same deadlines, whatever the layout of
the tables. -/
def Contents (db db' : Keyspace) : Prop :=
  ∀ k, sameObject (db.dict.find k) (db'.dict.find k) ∧ db'.expires.find k = db.expires.find k

structure Like (P : Prop) (now : ℕ) (db db' : Keyspace) : Prop where
  live : LiveEquiv now db db'
  stored : P → Contents db db'

theorem Contents.live {db db' : Keyspace} (h : Contents db db') (now : ℕ) : LiveEquiv now db db' := by
  intro k
  obtain ⟨ho, he⟩ := h k
  have hdead : db'.dead now k = db.dead now k := by rw [dead, dead, he]
  unfold Keyspace.live peek
  rw [hdead, he]
  split_ifs
  · trivial
  · exact ho.entry _

theorem Contents.like {db db' : Keyspace} (P : Prop) (h : Contents db db') (now : ℕ) : Like P now db db' :=
  ⟨h.live now, fun _ => h⟩

namespace Like

variable {P : Prop} {now : ℕ} {db db' : Keyspace} {key : Bytes} {o o' : Object}

theorem peek (h : Like P now db db') (key : Bytes) : sameObject (db.peek now key) (db'.peek now key) := by
  have := h.live key
  unfold Keyspace.live at this
  cases h1 : db.peek now key <;> cases h2 : db'.peek now key <;> rw [h1, h2] at this
  · trivial
  · exact this
  · exact this
  · exact this.1

theorem isSome (h : Like P now db db') (hs : (db.peek now key).isSome) : (db'.peek now key).isSome :=
  (h.peek key).isSome.trans hs

@[grind .] theorem lookup (h : Like P now db db') (key : Bytes) :
    Like P now (db.lookup now key).1 (db'.lookup now key).1 := by
  refine ⟨fun k => ?_, fun hP k => ?_⟩
  · rw [live_lookup, live_lookup]
    exact h.live k
  · obtain ⟨hk, he⟩ := h.stored hP key
    have hdead : db'.dead now key = db.dead now key := by rw [dead, dead, he]
    have hsome := hk.isSome
    rw [lookup_find_dict, lookup_find_dict, lookup_find_expires, lookup_find_expires, hdead, hsome]
    obtain ⟨ho, he⟩ := h.stored hP k
    constructor
    · split_ifs
      · trivial
      · exact ho
    · rw [he]

@[grind .] theorem set (h : Like P now db db') (key : Bytes) (ho : o.Equiv o') :
    Like P now (db.set key o) (db'.set key o') := by
  refine ⟨fun k => ?_, fun hP k => ?_⟩
  · rw [live_set, live_set]
    split_ifs
    · exact ⟨ho, rfl⟩
    · exact h.live k
  · obtain ⟨hk, he⟩ := h.stored hP k
    rw [find_dict_set, find_dict_set, find_expires_set, find_expires_set, he]
    refine ⟨?_, rfl⟩
    split_ifs
    · exact ho
    · exact hk

@[grind .] theorem write (h : Like P now db db') (key : Bytes) (ho : o.Equiv o') :
    Like P now (db.write key o) (db'.write key o') := by
  refine ⟨fun k => ?_, fun hP k => ?_⟩
  · rw [live_write, live_write]
    split_ifs
    · have := h.live key
      cases h1 : db.live now key <;> cases h2 : db'.live now key <;> rw [h1, h2] at this
      · trivial
      · exact this
      · exact this
      · exact ⟨ho, this.2⟩
    · exact h.live k
  · obtain ⟨hkey, -⟩ := h.stored hP key
    have hsome := hkey.isSome
    obtain ⟨hk, he⟩ := h.stored hP k
    rw [find_dict_write, find_dict_write, hsome]
    refine ⟨?_, he⟩
    split_ifs
    · exact ho
    · exact hk

@[grind .] theorem erase (h : Like P now db db') (key : Bytes) : Like P now (db.erase key) (db'.erase key) := by
  refine ⟨fun k => ?_, fun hP k => ?_⟩
  · rw [live_erase, live_erase]
    split_ifs
    · trivial
    · exact h.live k
  · obtain ⟨hk, he⟩ := h.stored hP k
    rw [find_dict_erase, find_dict_erase, find_expires_erase, find_expires_erase, he]
    refine ⟨?_, rfl⟩
    split_ifs
    · trivial
    · exact hk

theorem found (h : Like P now db db') (hs : (db.peek now key).isSome) :
    sameObject (db.dict.find key) (db'.dict.find key) ∧ db'.expires.find key = db.expires.find key := by
  have hl := h.live key
  obtain ⟨x, hx⟩ := Option.isSome_iff_exists.1 hs
  obtain ⟨y, hy⟩ := Option.isSome_iff_exists.1 (h.isSome hs)
  unfold Keyspace.live at hl
  rw [hx, hy] at hl
  rw [find_of_peek _ _ _ _ hx, find_of_peek _ _ _ _ hy]
  exact ⟨hl.1, hl.2.symm⟩

theorem of_expires {db₁ db₁' : Keyspace} (h : Like P now db db') (hs : (db.peek now key).isSome)
    (hd : db₁.dict = db.dict) (hd' : db₁'.dict = db'.dict)
    (hother : ∀ k, k ≠ key → db₁.expires.find k = db.expires.find k ∧ db₁'.expires.find k = db'.expires.find k)
    (hkey : db₁'.expires.find key = db₁.expires.find key) : Like P now db₁ db₁' := by
  have hf := h.found hs
  refine ⟨fun k => ?_, fun hP k => ?_⟩
  · by_cases hk : k = key
    · subst hk
      have hdead : db₁'.dead now k = db₁.dead now k := by rw [dead, dead, hkey]
      unfold Keyspace.live Keyspace.peek
      rw [hdead, hkey, hd, hd']
      split_ifs
      · trivial
      · exact hf.1.entry _
    · rw [live_congr (by rw [hd]) (hother k hk).1, live_congr (by rw [hd']) (hother k hk).2]
      exact h.live k
  · rw [hd, hd']
    obtain ⟨ho, he⟩ := h.stored hP k
    refine ⟨ho, ?_⟩
    by_cases hk : k = key
    · rw [hk, hkey]
    · rw [(hother k hk).1, (hother k hk).2, he]

@[grind .] theorem setDeadline (h : Like P now db db') (hs : (db.peek now key).isSome) (dl : ℕ) :
    Like P now (db.setDeadline key dl) (db'.setDeadline key dl) :=
  h.of_expires hs rfl rfl (fun k hk => by simp [hk]) (by simp)

@[grind .] theorem persist (h : Like P now db db') (hs : (db.peek now key).isSome) :
    Like P now (db.persist key).1 (db'.persist key).1 :=
  h.of_expires hs rfl rfl (fun k hk => by simp [hk]) (by simp)

end Like

/-! What the typed lookups find on both sides. -/

/-- The same finding, with related values. -/
inductive FoundRel {α : Type} (r : α → α → Prop) : Found α → Found α → Prop
  | absent : FoundRel r .absent .absent
  | wrongType : FoundRel r .wrongType .wrongType
  | present {a a' : α} (h : r a a') : FoundRel r (.present a) (.present a')

section Views

variable {o o' : Option Object}

theorem found_rel {α : Type} {view : Object → Option α} {r : α → α → Prop} (h : sameObject o o')
    (hv : ∀ o o' : Object, o.Equiv o' → (view o).isSome = (view o').isSome)
    (hr : ∀ (o o' : Object) (a a' : α), o.Equiv o' → view o = some a → view o' = some a' → r a a') :
    FoundRel r (found view o) (found view o') := by
  cases o with
  | none =>
    cases o' with
    | none => exact .absent
    | some o' => exact False.elim h
  | some o =>
    cases o' with
    | none => exact False.elim h
    | some o' =>
      have hs := hv o o' h
      have ha := hr o o'
      cases hx : view o <;> cases hy : view o'
      · simpa [found, hx, hy] using FoundRel.wrongType
      · simp [hx, hy] at hs
      · simp [hx, hy] at hs
      · simpa [found, hx, hy] using FoundRel.present (ha _ _ h hx hy)

theorem found_string (h : sameObject o o') : FoundRel (· = ·) (found Object.string? o) (found Object.string? o') := by
  refine found_rel h (fun o o' he => ?_) fun o o' a a' he ha ha' => ?_ <;>
    cases o <;> cases o' <;> simp_all [Object.Equiv, Object.string?]

theorem found_list (h : sameObject o o') : FoundRel (· = ·) (found Object.list? o) (found Object.list? o') := by
  refine found_rel h (fun o o' he => ?_) fun o o' a a' he ha ha' => ?_ <;>
    cases o <;> cases o' <;> simp_all [Object.Equiv, Object.list?]

theorem found_str (h : sameObject o o') : FoundRel (· = ·) (found Object.str? o) (found Object.str? o') := by
  refine found_rel h (fun o o' he => ?_) fun o o' a a' he ha ha' => ?_ <;>
    cases o <;> cases o' <;> simp_all [Object.Equiv, Object.str?]

theorem found_hash (h : sameObject o o') : FoundRel Dict.Equiv (found Object.hash? o) (found Object.hash? o') := by
  refine found_rel h (fun o o' he => ?_) fun o o' a a' he ha ha' => ?_ <;>
    cases o <;> cases o' <;> simp_all [Object.Equiv, Object.hash?]

theorem found_set (h : sameObject o o') : FoundRel sameMembers (found Object.set? o) (found Object.set? o') := by
  refine found_rel h (fun o o' he => ?_) fun o o' a a' he ha ha' => ?_ <;>
    cases o <;> cases o' <;> simp_all [Object.Equiv, Object.set?]

theorem found_zset (h : sameObject o o') : FoundRel ZSet.Equiv (found Object.zset? o) (found Object.zset? o') := by
  refine found_rel h (fun o o' he => ?_) fun o o' a a' he ha ha' => ?_ <;>
    cases o <;> cases o' <;> simp_all [Object.Equiv, Object.zset?]

end Views

/-- Results that hold the same and reply the same. -/
structure Alike (P : Prop) (now : ℕ) (r r' : Result) : Prop where
  db : Like P now r.db r'.db
  reply : r'.reply = r.reply

@[grind .] theorem Alike.clean {P : Prop} {now : ℕ} {db db' : Keyspace} (h : Like P now db db') (reply : Bytes) :
    Alike P now (.clean db reply) (.clean db' reply) := ⟨h, rfl⟩

@[grind .] theorem Alike.marked {P : Prop} {now : ℕ} {db db' : Keyspace} (h : Like P now db db') (reply : Bytes) :
    Alike P now (.marked db reply) (.marked db' reply) := ⟨h, rfl⟩

@[grind .] theorem Alike.markedIf {P : Prop} {now : ℕ} {db db' : Keyspace} (h : Like P now db db') (d d' : Bool)
    (reply : Bytes) : Alike P now (.markedIf d db reply) (.markedIf d' db' reply) := ⟨h, rfl⟩

attribute [grind .] Object.Equiv.refl

/-! Loops on both sides. -/

section Loops

variable {σ α : Type}

theorem countLoop_rel (step : σ → α → σ × Bool) {r : σ → σ → Prop} (hstep : ∀ s s' x, r s s' → r (step s x).1 (step s' x).1 ∧
    (step s x).2 = (step s' x).2) {s s' : σ} (h : r s s') (xs : List α) :
    r (countLoop step s xs).1 (countLoop step s' xs).1 ∧ (countLoop step s xs).2 = (countLoop step s' xs).2 := by
  induction xs generalizing s s' with
  | nil => exact ⟨h, rfl⟩
  | cons x xs ih =>
    obtain ⟨hs, hb⟩ := hstep s s' x h
    obtain ⟨hr, hc⟩ := ih hs
    rw [countLoop_cons, countLoop_cons, hc, hb]
    exact ⟨hr, rfl⟩

theorem foldl_rel {β : Type} {f : σ → β → σ} {r : σ → σ → Prop} (hstep : ∀ s s' x, r s s' → r (f s x) (f s' x))
    {s s' : σ} (h : r s s') (xs : List β) : r (xs.foldl f s) (xs.foldl f s') := by
  induction xs generalizing s s' with
  | nil => exact h
  | cons x xs ih => exact ih (hstep s s' x h)

end Loops

section Containers

variable {h h' : Dict Bytes} {s s' : Dict UInt8} {z z' : ZSet}

theorem insertOrAssign_rel (hE : h.Equiv h') (p : Bytes × Bytes) :
    (h.insertOrAssign p.1 p.2).1.Equiv (h'.insertOrAssign p.1 p.2).1 ∧
      (h.insertOrAssign p.1 p.2).2 = (h'.insertOrAssign p.1 p.2).2 := by
  refine ⟨fun k => ?_, by simp [hE p.1]⟩
  simp [hE k]

theorem eraseKey_rel (hE : h.Equiv h') (k : Bytes) :
    (h.eraseKey k).1.Equiv (h'.eraseKey k).1 ∧ (h.eraseKey k).2 = (h'.eraseKey k).2 := by
  refine ⟨fun k' => ?_, by simp [hE k]⟩
  simp [hE k']

theorem addMember_rel (hE : sameMembers s s') (m : Bytes) :
    sameMembers (s.insertOrAssign m 1).1 (s'.insertOrAssign m 1).1 ∧
      (s.insertOrAssign m 1).2 = (s'.insertOrAssign m 1).2 := by
  have hm := hE m
  refine ⟨fun k => ?_, ?_⟩
  · rw [Dict.insertOrAssign_fst, Dict.insertOrAssign_fst, Dict.find_insert, Dict.find_insert]
    split_ifs
    · rfl
    · exact hE k
  · cases h1 : s.find m <;> cases h2 : s'.find m <;> simp_all

theorem eraseMember_rel (hE : sameMembers s s') (m : Bytes) :
    sameMembers (s.eraseKey m).1 (s'.eraseKey m).1 ∧ (s.eraseKey m).2 = (s'.eraseKey m).2 := by
  refine ⟨fun k => ?_, by simp [hE m]⟩
  rw [Dict.eraseKey_fst, Dict.eraseKey_fst, Dict.find_erase, Dict.find_erase]
  split_ifs
  · rfl
  · exact hE k

theorem sameMembers.size_eq_zero (hE : sameMembers s s') : s.size = 0 ↔ s'.size = 0 := by
  rw [Dict.size_eq_zero, Dict.size_eq_zero]
  refine forall_congr' fun k => ?_
  have := hE k
  cases h1 : s.find k <;> cases h2 : s'.find k <;> simp_all

theorem ZSet.Equiv.find (hE : z.Equiv z') (m : Bytes) : z'.dict.find m = z.dict.find m := (hE m).symm

theorem ZSet.Equiv.size_eq_zero (hE : z.Equiv z') : z.size = 0 ↔ z'.size = 0 := Dict.Equiv.size_eq_zero hE

theorem ZSet.Equiv.set (hE : z.Equiv z') (levels levels' : Levels) (m : Bytes) (score : Double) :
    (z.set levels m score).1.Equiv (z'.set levels' m score).1 := by
  intro k
  have hk := hE k
  unfold ZSet.set
  rw [hE.find m]
  cases hm : z.dict.find m with
  | none => simp [hk]
  | some cur =>
    have hm' := (hE.find m).trans hm
    dsimp only
    split_ifs
    · exact hk
    · simp [hk, hm, hm']

theorem removeMember_rel (hE : z.Equiv z') (m : Bytes) :
    (z.remove m).1.Equiv (z'.remove m).1 ∧ (z.remove m).2 = (z'.remove m).2 := by
  unfold ZSet.remove
  rw [hE.find m]
  cases hm : z.dict.find m with
  | none => exact ⟨hE, rfl⟩
  | some cur =>
    refine ⟨fun k => ?_, rfl⟩
    simp [hE k]

theorem Object.Equiv.hash (hE : h.Equiv h') : (Object.hash h).Equiv (.hash h') := hE
theorem Object.Equiv.set (hE : sameMembers s s') : (Object.set s).Equiv (.set s') := hE
theorem Object.Equiv.zset (hE : z.Equiv z') : (Object.zset z).Equiv (.zset z') := hE

end Containers

namespace Cmd

variable {P : Prop} {env env' : Env} {db db' : Keyspace} (argv : List Bytes)

theorem append_alike (hn : env'.now = env.now) (h : Like P env.now db db') :
    Alike P env.now (append env argv db) (append env' argv db') := by
  have hf := found_string (h.peek (arg argv 1))
  have hl := h.lookup (arg argv 1)
  simp only [append, getString, getAs_eq, hn]
  grind [FoundRel]

theorem incrBy_alike (delta : ℤ) (hn : env'.now = env.now) (h : Like P env.now db db') :
    Alike P env.now (incrBy delta env argv db) (incrBy delta env' argv db') := by
  have hf := found_string (h.peek (arg argv 1))
  have hl := h.lookup (arg argv 1)
  simp only [incrBy, getString, getAs_eq, hn]
  grind [FoundRel]

theorem getset_alike (hn : env'.now = env.now) (h : Like P env.now db db') :
    Alike P env.now (getset env argv db) (getset env' argv db') := by
  have hf := found_string (h.peek (arg argv 1))
  have hl := h.lookup (arg argv 1)
  simp only [getset, getString, getAs_eq, hn]
  grind [FoundRel]

theorem setrange_alike (hn : env'.now = env.now) (h : Like P env.now db db') :
    Alike P env.now (setrange env argv db) (setrange env' argv db') := by
  have hf := found_string (h.peek (arg argv 1))
  have hl := h.lookup (arg argv 1)
  simp only [setrange, getString, getAs_eq, hn]
  cases parseInt (arg argv 2) with
  | none => exact .clean h _
  | some offset =>
    dsimp only
    generalize found Object.string? (db.peek env.now (arg argv 1)) = f at hf ⊢
    generalize found Object.string? (db'.peek env.now (arg argv 1)) = f' at hf ⊢
    cases hf <;> grind

theorem incrbyfloat_alike (hn : env'.now = env.now) (h : Like P env.now db db') :
    Alike P env.now (incrbyfloat env argv db) (incrbyfloat env' argv db') := by
  have hf := found_string (h.peek (arg argv 1))
  have hl := h.lookup (arg argv 1)
  simp only [incrbyfloat, getString, getAs_eq, hn]
  generalize found Object.string? (db.peek env.now (arg argv 1)) = f at hf ⊢
  generalize found Object.string? (db'.peek env.now (arg argv 1)) = f' at hf ⊢
  cases parseDouble (arg argv 2) with
  | none => exact .clean h _
  | some delta =>
    cases hf with
    | absent => exact .marked (hl.set _ (.refl _)) _
    | wrongType => exact .clean hl _
    | present he =>
      subst he
      dsimp only
      cases parseDouble _ with
      | none => exact .clean hl _
      | some cur => exact .marked (hl.set _ (.refl _)) _

theorem pop_alike (head : Bool) (hn : env'.now = env.now) (h : Like P env.now db db') :
    Alike P env.now (pop head env argv db) (pop head env' argv db') := by
  have hf := found_list (h.peek (arg argv 1))
  have hl := h.lookup (arg argv 1)
  simp only [pop, getList, getAs_eq, hn]
  generalize found Object.list? (db.peek env.now (arg argv 1)) = f at hf ⊢
  generalize found Object.list? (db'.peek env.now (arg argv 1)) = f' at hf ⊢
  cases hf with
  | absent => cases popCount argv <;> exact .clean hl _
  | wrongType => exact .clean hl _
  | present he =>
    subst he
    cases popCount argv with
    | none => exact .clean hl _
    | some count =>
      refine .marked ?_ _
      split_ifs
      · exact (hl.write _ (.refl _)).erase _
      · exact hl.write _ (.refl _)

theorem push_alike (head : Bool) (hn : env'.now = env.now) (h : Like P env.now db db') :
    Alike P env.now (push head env argv db) (push head env' argv db') := by
  have hf := found_list (h.peek (arg argv 1))
  have hl := h.lookup (arg argv 1)
  simp only [push, makeList, getOrMake_eq, hn]
  generalize found Object.list? (db.peek env.now (arg argv 1)) = f at hf ⊢
  generalize found Object.list? (db'.peek env.now (arg argv 1)) = f' at hf ⊢
  cases hf with
  | absent => exact .marked ((hl.set _ (.refl _)).write _ (.refl _)) _
  | wrongType => exact .clean hl _
  | present he =>
    subst he
    exact .marked (hl.write _ (.refl _)) _

theorem lset_alike (hn : env'.now = env.now) (h : Like P env.now db db') :
    Alike P env.now (lset env argv db) (lset env' argv db') := by
  have hf := found_list (h.peek (arg argv 1))
  have hl := h.lookup (arg argv 1)
  simp only [lset, getList, getAs_eq, hn]
  generalize found Object.list? (db.peek env.now (arg argv 1)) = f at hf ⊢
  generalize found Object.list? (db'.peek env.now (arg argv 1)) = f' at hf ⊢
  cases hf with
  | absent => exact .clean hl _
  | wrongType => exact .clean hl _
  | present he =>
    subst he
    dsimp only
    cases parseInt (arg argv 2) with
    | none => exact .clean hl _
    | some idx =>
      dsimp only
      cases listIndex _ idx with
      | none => exact .clean hl _
      | some i => exact .marked (hl.write _ (.refl _)) _

theorem incrby_alike (hn : env'.now = env.now) (h : Like P env.now db db') :
    Alike P env.now (incrby env argv db) (incrby env' argv db') := by
  have hi := fun d => incrBy_alike argv d hn h
  simp only [incrby]
  cases parseInt (arg argv 2) with
  | none => exact .clean h _
  | some d => exact hi d

theorem decrby_alike (hn : env'.now = env.now) (h : Like P env.now db db') :
    Alike P env.now (decrby env argv db) (decrby env' argv db') := by
  have hi := fun d => incrBy_alike argv d hn h
  simp only [decrby]
  cases parseInt (arg argv 2) with
  | none => exact .clean h _
  | some d => exact hi _

theorem hset_alike (hn : env'.now = env.now) (h : Like P env.now db db') :
    Alike P env.now (hset env argv db) (hset env' argv db') := by
  have hf := found_hash (h.peek (arg argv 1))
  have hl := h.lookup (arg argv 1)
  simp only [hset, makeHash, getOrMake_eq, hn]
  generalize found Object.hash? (db.peek env.now (arg argv 1)) = f at hf ⊢
  generalize found Object.hash? (db'.peek env.now (arg argv 1)) = f' at hf ⊢
  have hstep : ∀ (d d' : Dict Bytes) (p : Bytes × Bytes), d.Equiv d' →
      (d.insertOrAssign p.1 p.2).1.Equiv (d'.insertOrAssign p.1 p.2).1 ∧
        (d.insertOrAssign p.1 p.2).2 = (d'.insertOrAssign p.1 p.2).2 := fun _ _ p hE => insertOrAssign_rel hE p
  by_cases hodd : argv.length % 2 ≠ 0
  · rw [if_pos hodd, if_pos hodd]
    exact .clean h _
  · rw [if_neg hodd, if_neg hodd]
    cases hf with
    | absent => exact .marked ((hl.set _ (.refl _)).write _ (.refl _)) _
    | wrongType => exact .clean hl _
    | present hE =>
      obtain ⟨hE', hc⟩ := countLoop_rel (fun (d : Dict Bytes) (p : Bytes × Bytes) => d.insertOrAssign p.1 p.2) hstep hE
        (pairs (argv.drop 2))
      simp only [hc]
      exact .marked (hl.write _ (.hash hE')) _

theorem hincrby_alike (hn : env'.now = env.now) (h : Like P env.now db db') :
    Alike P env.now (hincrby env argv db) (hincrby env' argv db') := by
  have hf := found_hash (h.peek (arg argv 1))
  have hl := h.lookup (arg argv 1)
  simp only [hincrby, makeHash, getOrMake_eq, hn]
  generalize found Object.hash? (db.peek env.now (arg argv 1)) = f at hf ⊢
  generalize found Object.hash? (db'.peek env.now (arg argv 1)) = f' at hf ⊢
  cases parseInt (arg argv 3) with
  | none => exact .clean h _
  | some delta =>
    cases hf with
    | absent =>
      dsimp only
      cases fieldInt .empty (arg argv 2) with
      | none => exact .clean (hl.set _ (.refl _)) _
      | some cur => exact .marked ((hl.set _ (.refl _)).write _ (.refl _)) _
    | wrongType => exact .clean hl _
    | present hE =>
      rename_i d d'
      have hfield : fieldInt d' (arg argv 2) = fieldInt d (arg argv 2) := by rw [fieldInt, fieldInt, hE]
      simp only [hfield]
      cases fieldInt d (arg argv 2) with
      | none => exact .clean hl _
      | some cur =>
        refine .marked (hl.write _ (.hash fun k => ?_)) _
        simp [hE k]

theorem hdel_alike (hn : env'.now = env.now) (h : Like P env.now db db') :
    Alike P env.now (hdel env argv db) (hdel env' argv db') := by
  have hf := found_hash (h.peek (arg argv 1))
  have hl := h.lookup (arg argv 1)
  simp only [hdel, getHash, getAs_eq, hn]
  generalize found Object.hash? (db.peek env.now (arg argv 1)) = f at hf ⊢
  generalize found Object.hash? (db'.peek env.now (arg argv 1)) = f' at hf ⊢
  cases hf with
  | absent => exact .clean hl _
  | wrongType => exact .clean hl _
  | present hE =>
    obtain ⟨hE', hc⟩ := countLoop_rel (r := Dict.Equiv) Dict.eraseKey (fun _ _ x hs => eraseKey_rel hs x) hE (argv.drop 2)
    simp only [hc, hE'.size_eq_zero]
    refine .markedIf ?_ _ _ _
    split_ifs
    · exact (hl.write _ (.hash hE')).erase _
    · exact hl.write _ (.hash hE')

theorem sadd_alike (hn : env'.now = env.now) (h : Like P env.now db db') :
    Alike P env.now (sadd env argv db) (sadd env' argv db') := by
  have hf := found_set (h.peek (arg argv 1))
  have hl := h.lookup (arg argv 1)
  simp only [sadd, makeSet, getOrMake_eq, hn]
  generalize found Object.set? (db.peek env.now (arg argv 1)) = f at hf ⊢
  generalize found Object.set? (db'.peek env.now (arg argv 1)) = f' at hf ⊢
  cases hf with
  | absent => exact .markedIf ((hl.set _ (.refl _)).write _ (.refl _)) _ _ _
  | wrongType => exact .clean hl _
  | present hE =>
    have hstep : ∀ (s s' : Dict UInt8) (m : Bytes), sameMembers s s' →
        sameMembers (s.insertOrAssign m 1).1 (s'.insertOrAssign m 1).1 ∧ (s.insertOrAssign m 1).2 = (s'.insertOrAssign m 1).2 :=
      fun _ _ m hs => addMember_rel hs m
    obtain ⟨hE', hc⟩ := countLoop_rel (fun (s : Dict UInt8) (m : Bytes) => s.insertOrAssign m 1) hstep hE (argv.drop 2)
    simp only [hc]
    exact .markedIf (hl.write _ (.set hE')) _ _ _

theorem srem_alike (hn : env'.now = env.now) (h : Like P env.now db db') :
    Alike P env.now (srem env argv db) (srem env' argv db') := by
  have hf := found_set (h.peek (arg argv 1))
  have hl := h.lookup (arg argv 1)
  simp only [srem, getSet, getAs_eq, hn]
  generalize found Object.set? (db.peek env.now (arg argv 1)) = f at hf ⊢
  generalize found Object.set? (db'.peek env.now (arg argv 1)) = f' at hf ⊢
  cases hf with
  | absent => exact .clean hl _
  | wrongType => exact .clean hl _
  | present hE =>
    obtain ⟨hE', hc⟩ := countLoop_rel (r := sameMembers) Dict.eraseKey (fun _ _ x hs => eraseMember_rel hs x) hE (argv.drop 2)
    simp only [hc, hE'.size_eq_zero]
    refine .markedIf ?_ _ _ _
    split_ifs
    · exact (hl.write _ (.set hE')).erase _
    · exact hl.write _ (.set hE')

theorem zrem_alike (hn : env'.now = env.now) (h : Like P env.now db db') :
    Alike P env.now (zrem env argv db) (zrem env' argv db') := by
  have hf := found_zset (h.peek (arg argv 1))
  have hl := h.lookup (arg argv 1)
  simp only [zrem, getZSet, getAs_eq, hn]
  generalize found Object.zset? (db.peek env.now (arg argv 1)) = f at hf ⊢
  generalize found Object.zset? (db'.peek env.now (arg argv 1)) = f' at hf ⊢
  cases hf with
  | absent => exact .clean hl _
  | wrongType => exact .clean hl _
  | present hE =>
    obtain ⟨hE', hc⟩ := countLoop_rel (r := ZSet.Equiv) ZSet.remove (fun _ _ x hs => removeMember_rel hs x) hE (argv.drop 2)
    simp only [hc, hE'.size_eq_zero]
    refine .markedIf ?_ _ _ _
    split_ifs
    · exact (hl.write _ (.zset hE')).erase _
    · exact hl.write _ (.zset hE')

theorem zincrby_alike (hn : env'.now = env.now) (h : Like P env.now db db') :
    Alike P env.now (zincrby env argv db) (zincrby env' argv db') := by
  have hf := found_zset (h.peek (arg argv 1))
  have hl := h.lookup (arg argv 1)
  simp only [zincrby, makeZSet, getOrMake_eq, hn]
  generalize found Object.zset? (db.peek env.now (arg argv 1)) = f at hf ⊢
  generalize found Object.zset? (db'.peek env.now (arg argv 1)) = f' at hf ⊢
  cases parseDouble (arg argv 2) with
  | none => exact .clean h _
  | some delta =>
    cases hf with
    | absent => exact .marked ((hl.set _ (.refl _)).write _ (.zset (ZSet.Equiv.set (fun _ => rfl) _ _ _ _))) _
    | wrongType => exact .clean hl _
    | present hE =>
      simp only [hE.find]
      exact .marked (hl.write _ (.zset (hE.set _ _ _ _))) _

theorem pfadd_alike (hn : env'.now = env.now) (h : Like P env.now db db') :
    Alike P env.now (pfadd env argv db) (pfadd env' argv db') := by
  have hf := found_str (h.peek (arg argv 1))
  have hl := h.lookup (arg argv 1)
  simp only [pfadd, getHll, getAs_eq, hn]
  generalize found Object.str? (db.peek env.now (arg argv 1)) = f at hf ⊢
  generalize found Object.str? (db'.peek env.now (arg argv 1)) = f' at hf ⊢
  cases hf with
  | absent =>
    refine .markedIf ?_ _ _ _
    split_ifs
    · exact hl.set _ (.refl _)
    · exact hl
  | wrongType => exact .clean hl _
  | present he =>
    subst he
    refine .markedIf ?_ _ _ _
    split_ifs
    · exact hl.set _ (.refl _)
    · exact hl

theorem sameObject.str {o o' : Option Object} (h : sameObject o o') : o'.bind Object.str? = o.bind Object.str? := by
  cases o with
  | none =>
    cases o' with
    | none => rfl
    | some o' => exact False.elim h
  | some o =>
    cases o' with
    | none => exact False.elim h
    | some o' => cases o <;> cases o' <;> simp_all [sameObject, Object.Equiv, Object.str?]

theorem mergeRound_rel (now : ℕ) {r r' : Keyspace × Bytes} (h : Like P now r.1 r'.1 ∧ r'.2 = r.2) (key : Bytes) :
    Like P now (mergeRound now r key).1 (mergeRound now r' key).1 ∧ (mergeRound now r' key).2 = (mergeRound now r key).2 := by
  refine ⟨h.1.lookup key, ?_⟩
  have := sameObject.str (h.1.peek key)
  simp only [mergeRound, lookup_snd, this, h.2]

theorem pfmerge_alike (hn : env'.now = env.now) (h : Like P env.now db db') :
    Alike P env.now (pfmerge env argv db) (pfmerge env' argv db') := by
  have hs := sameObject.str (h.peek (arg argv 1))
  simp only [pfmerge, hn, lookup_snd, hs]
  set regs := Hll.ensure (((db.peek env.now (arg argv 1)).bind Object.str?).getD [])
  have hbase : Like P env.now ((db.lookup env.now (arg argv 1)).1, regs).1 ((db'.lookup env.now (arg argv 1)).1, regs).1 ∧
      ((db'.lookup env.now (arg argv 1)).1, regs).2 = ((db.lookup env.now (arg argv 1)).1, regs).2 := ⟨h.lookup _, rfl⟩
  obtain ⟨hl, he⟩ := foldl_rel (r := fun (r r' : Keyspace × Bytes) => Like P env.now r.1 r'.1 ∧ r'.2 = r.2)
    (fun _ _ x hr => mergeRound_rel env.now hr x) hbase argv.tail
  rw [he]
  exact .marked (hl.set _ (.refl _)) _

theorem setnx_alike (hn : env'.now = env.now) (h : Like P env.now db db') :
    Alike P env.now (setnx env argv db) (setnx env' argv db') := by
  have hp := h.peek (arg argv 1)
  have hl := h.lookup (arg argv 1)
  rw [lookup_eq, lookup_eq] at hl
  simp only [setnx, hn, lookup_eq]
  cases h1 : db.peek env.now (arg argv 1) <;> cases h2 : db'.peek env.now (arg argv 1) <;> rw [h1, h2] at hp
  · exact .marked (hl.set _ (.refl _)) _
  · exact False.elim hp
  · exact False.elim hp
  · exact .clean hl _

theorem setex_alike (hn : env'.now = env.now) (h : Like P env.now db db') :
    Alike P env.now (setex env argv db) (setex env' argv db') := by
  simp only [setex, hn]
  cases parseInt (arg argv 2) with
  | none => exact .clean h _
  | some secs =>
    dsimp only
    split_ifs
    · exact .clean h _
    · exact .marked ((h.set _ (.refl _)).setDeadline (by simp [peek, dead]) _) _
    · exact .marked ((h.set _ (.refl _)).setDeadline (by simp [peek, dead]) _) _

theorem mset_alike (h : Like P env.now db db') : Alike P env.now (mset env argv db) (mset env' argv db') := by
  unfold mset
  split_ifs
  · exact .clean h _
  · exact .marked (foldl_rel (fun _ _ p hr => hr.set p.1 (.refl _)) h _) _

theorem expireBy_alike (deadline : ℕ → ℕ → ℕ) (hn : env'.now = env.now) (h : Like P env.now db db') :
    Alike P env.now (expireBy deadline env argv db) (expireBy deadline env' argv db') := by
  have hs := (h.peek (arg argv 1)).isSome
  simp only [expireBy, setExpire, existsKey, hn, lookup_snd, hs]
  cases parseInt (arg argv 2) with
  | none => exact .clean h _
  | some n =>
    dsimp only
    cases hsome : (db.peek env.now (arg argv 1)).isSome with
    | false => exact .clean (h.lookup _) _
    | true =>
      obtain ⟨o, ho⟩ := Option.isSome_iff_exists.1 hsome
      refine .marked ((h.lookup _).setDeadline ?_ _) _
      rw [lookup_of_peek _ _ _ _ ho, ho]
      rfl

theorem persist_alike (hn : env'.now = env.now) (h : Like P env.now db db') :
    Alike P env.now (persist env argv db) (persist env' argv db') := by
  have hs := (h.peek (arg argv 1)).isSome
  simp only [persist, existsKey, hn, lookup_snd, hs]
  cases hsome : (db.peek env.now (arg argv 1)).isSome with
  | false => exact .clean (h.lookup _) _
  | true =>
    obtain ⟨o, ho⟩ := Option.isSome_iff_exists.1 hsome
    obtain ⟨o', ho'⟩ := Option.isSome_iff_exists.1 (h.isSome hsome)
    rw [lookup_of_peek _ _ _ _ ho, lookup_of_peek _ _ _ _ ho']
    have he := (h.found hsome).2
    simp only [persist_snd, he, Bool.not_true, Bool.false_eq_true, if_false]
    exact .markedIf (h.persist hsome) _ _ _

theorem rename_alike (hn : env'.now = env.now) (h : Like P env.now db db') :
    Alike P env.now (rename env argv db) (rename env' argv db') := by
  have hp := h.peek (arg argv 1)
  have hl := h.lookup (arg argv 1)
  cases h1 : db.peek env.now (arg argv 1) with
  | none =>
    cases h2 : db'.peek env.now (arg argv 1) with
    | none =>
      rw [lookup_eq, lookup_eq] at hl
      simp only [rename, hn, lookup_eq, h1, h2]
      exact .clean hl _
    | some o' =>
      rw [h1, h2] at hp
      exact False.elim hp
  | some o =>
    cases h2 : db'.peek env.now (arg argv 1) with
    | none =>
      rw [h1, h2] at hp
      exact False.elim hp
    | some o' =>
      have hdl : db'.deadlineOrZero (arg argv 1) = db.deadlineOrZero (arg argv 1) := by
        rw [deadlineOrZero, deadlineOrZero, (h.found (by rw [h1]; rfl)).2]
      rw [h1, h2] at hp
      simp only [rename, hn, lookup_of_peek _ _ _ _ h1, lookup_of_peek _ _ _ _ h2, hdl]
      have hset := (h.erase (arg argv 1)).set (arg argv 2) (show o.Equiv o' from hp)
      refine .marked ?_ _
      split_ifs
      · exact hset.setDeadline (by simp [peek, dead]) _
      · exact hset

/-- `DEL` counts what is stored, so that the replies agree where that agrees. -/
theorem del_like (h : Like P env.now db db') : Like P env.now (del env argv db).db (del env' argv db').db := by
  have hdb : ∀ (d : Keyspace) ks, (countLoop eraseRound d ks).1 = ks.foldl Keyspace.erase d := by
    intro d ks
    induction ks generalizing d with
    | nil => rfl
    | cons k ks ih =>
      rw [countLoop_cons, List.foldl_cons, ← ih]
      rfl
  simp only [del, Result.markedIf_db, hdb]
  exact foldl_rel (fun _ _ k hr => hr.erase k) h _

/-- Two states of the loop of `ZADD` that differ in layout only. -/
structure ZAddState.Alike (st st' : ZAddState) : Prop where
  z : st.z.Equiv st'.z
  added : st'.added = st.added
  changed : st'.changed = st.changed
  last : st'.last = st.last

theorem zaddRound_alike (f : ZAddFlags) (levels levels' : Levels) {st st' : ZAddState} (h : st.Alike st')
    (score : Double) (member : Bytes) :
    (zaddRound f levels st score member).Alike (zaddRound f levels' st' score member) := by
  obtain ⟨hz, ha, hc, hl⟩ := h
  unfold zaddRound
  rw [hz.find member]
  cases st.z.dict.find member with
  | none =>
    dsimp only
    generalize (if f.incr then score.add .zero else score) = s
    split_ifs
    · exact ⟨hz, ha, hc, hl⟩
    · exact ⟨hz.set _ _ _ _, by rw [ha], by rw [hc], rfl⟩
  | some cur =>
    dsimp only
    generalize (if f.incr then score.add cur else score) = s
    split_ifs
    · exact ⟨hz, ha, hc, hl⟩
    · exact ⟨hz, ha, hc, hl⟩
    · exact ⟨hz, ha, hc, hl⟩
    · exact ⟨hz, ha, hc, rfl⟩
    · exact ⟨hz.set _ _ _ _, ha, by rw [hc], rfl⟩

theorem zaddLoop_alike (f : ZAddFlags) (levels levels' : Levels) {st st' : ZAddState} (h : st.Alike st')
    (ps : List (Bytes × Bytes)) : (zaddLoop f levels st ps).1.Alike (zaddLoop f levels' st' ps).1 := by
  induction ps generalizing st st' with
  | nil => exact h
  | cons p ps ih =>
    obtain ⟨s, member⟩ := p
    simp only [zaddLoop]
    cases parseDouble s with
    | none => exact h
    | some score => exact ih (zaddRound_alike f levels levels' h score member)

theorem zaddOn_alike {z z' : ZSet} (h : Like P env.now db db') (hz : z.Equiv z') :
    Alike P env.now (zaddOn env argv db z) (zaddOn env' argv db' z') := by
  have hstart : ZAddState.Alike ⟨z, 0, 0, none⟩ ⟨z', 0, 0, none⟩ := ⟨hz, rfl, rfl, rfl⟩
  obtain ⟨hz', ha, hc, hl⟩ := zaddLoop_alike (zaddArgs argv).1 env.levels env'.levels hstart (pairs (zaddArgs argv).2)
  have hr : zaddReply (zaddArgs argv).1 (zaddLoop (zaddArgs argv).1 env'.levels ⟨z', 0, 0, none⟩ (pairs (zaddArgs argv).2)).1 =
      zaddReply (zaddArgs argv).1 (zaddLoop (zaddArgs argv).1 env.levels ⟨z, 0, 0, none⟩ (pairs (zaddArgs argv).2)).1 := by
    simp only [zaddReply, ha, hc, hl]
  simp only [zaddOn, zaddLoop_ok, hr, hz'.size_eq_zero]
  cases allParse (pairs (zaddArgs argv).2) with
  | false => exact .clean (h.write _ (.zset hz')) _
  | true =>
    refine .markedIf ?_ _ _ _
    split_ifs
    · exact (h.write _ (.zset hz')).erase _
    · exact h.write _ (.zset hz')

theorem zadd_alike (hn : env'.now = env.now) (h : Like P env.now db db') :
    Alike P env.now (zadd env argv db) (zadd env' argv db') := by
  have hf := found_zset (h.peek (arg argv 1))
  have hl := h.lookup (arg argv 1)
  rw [zadd_eq, zadd_eq, hn]
  generalize found Object.zset? (db.peek env.now (arg argv 1)) = f at hf ⊢
  generalize found Object.zset? (db'.peek env.now (arg argv 1)) = f' at hf ⊢
  split_ifs
  · cases hf with
    | absent => exact zaddOn_alike argv (hl.set _ (.refl _)) fun _ => rfl
    | wrongType => exact .clean hl _
    | present hE => exact zaddOn_alike argv hl hE
  · exact .clean h _

/-- What `SET` with `KEEPTTL` finds as the deadline of its key. -/
def keptDeadline (now : ℕ) (db : Keyspace) (key : Bytes) : ℕ := (db.lookup now key).1.deadlineOrZero key

theorem setWrite_like (opts : SetOpts) (h : Like P env.now db db') {key : Bytes}
    (hk : opts.keepttl → opts.deadline = 0 → db'.deadlineOrZero key = db.deadlineOrZero key) (val : Bytes) :
    Like P env.now (setWrite opts db key val) (setWrite opts db' key val) := by
  have hset := h.set key (.refl (.string val))
  have hp : ((db.set key (.string val)).peek env.now key).isSome := by simp [peek, dead]
  unfold setWrite
  by_cases h0 : opts.deadline = 0
  · cases hkeep : opts.keepttl with
    | false => simpa [h0] using hset
    | true =>
      simp only [h0, hk hkeep h0, ne_eq, not_true_eq_false, if_false, if_true]
      split_ifs
      · exact hset
      · exact hset.setDeadline hp _
  · simp only [ne_eq, h0, not_false_iff, if_true]
    exact hset.setDeadline hp _

theorem sameObject.string {o o' : Option Object} (h : sameObject o o') :
    o'.bind Object.string? = o.bind Object.string? := by
  cases o with
  | none =>
    cases o' with
    | none => rfl
    | some o' => exact False.elim h
  | some o =>
    cases o' with
    | none => exact False.elim h
    | some o' => cases o <;> cases o' <;> simp_all [sameObject, Object.Equiv, Object.string?]

theorem peek_lookup_none {now : ℕ} {key : Bytes} (h : db.peek now key = none) :
    (db.lookup now key).1.peek now key = none := by
  have := live_lookup db now key key
  simpa [live, h] using this

theorem set_alike (hn : env'.now = env.now) (h : Like P env.now db db')
    (hk : ∀ opts, setArgs env argv = .ok opts → opts.keepttl → opts.deadline = 0 → opts.xx = false →
      db.peek env.now (arg argv 1) = none →
        keptDeadline env.now db' (arg argv 1) = keptDeadline env.now db (arg argv 1)) :
    Alike P env.now (set env argv db) (set env' argv db') := by
  have hp := h.peek (arg argv 1)
  have hstr := sameObject.string hp
  unfold setArgs at hk
  simp only [set, hn, lookup_snd, hstr]
  cases ho : setOpts env.now ⟨0, false, false, false, false⟩ (argv.drop 3) with
  | error e => exact .clean h _
  | ok opts =>
    have hk := hk opts ho
    dsimp only
    by_cases hnx : opts.nx ∧ ((db.peek env.now (arg argv 1)).bind Object.string?).isSome
    · rw [if_pos hnx, if_pos hnx]
      exact .clean (h.lookup _) _
    rw [if_neg hnx, if_neg hnx]
    cases h1 : db.peek env.now (arg argv 1) with
    | none =>
      have h2 : db'.peek env.now (arg argv 1) = none := by
        rw [h1] at hp
        cases h2 : db'.peek env.now (arg argv 1) with
        | none => rfl
        | some o' =>
          rw [h2] at hp
          exact False.elim hp
      have hl := h.lookup (arg argv 1)
      cases hxx : opts.xx with
      | true =>
        have h1' := peek_lookup_none h1
        have h2' := peek_lookup_none h2
        simp only [if_true, lookup_snd, h1', h2', Option.isNone_none, and_self, if_true]
        exact .clean (hl.lookup _) _
      | false =>
        simp only [Bool.false_eq_true, if_false, false_and]
        exact .marked (setWrite_like opts hl (fun h3 h4 => hk h3 h4 hxx h1) _) _
    | some o =>
      obtain ⟨o', h2⟩ := Option.isSome_iff_exists.1 (h.isSome (by rw [h1]; rfl))
      have hdl : db'.deadlineOrZero (arg argv 1) = db.deadlineOrZero (arg argv 1) := by
        rw [deadlineOrZero, deadlineOrZero, (h.found (by rw [h1]; rfl)).2]
      have hw := setWrite_like opts h (fun _ _ => hdl) (arg argv 2)
      rw [lookup_of_peek _ _ _ _ h1, lookup_of_peek _ _ _ _ h2]
      cases opts.xx with
      | true =>
        simp only [if_true, lookup_of_peek _ _ _ _ h1, lookup_of_peek _ _ _ _ h2, h2, Option.isNone_some,
          Bool.false_eq_true, and_false, if_false]
        exact .marked hw _
      | false =>
        simp only [Bool.false_eq_true, if_false, false_and]
        exact .marked hw _

end Cmd

end BlazeKV
