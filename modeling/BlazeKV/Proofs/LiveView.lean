import BlazeKV.Proofs.KeyspaceOps

/-! What clients can see of a keyspace at a clock reading: the live keys with their
values and deadlines. Values are compared by what they contain, not by the layout
of their tables. -/

namespace BlazeKV

/-- Two tables with the same entries. -/
def Dict.Equiv {α : Type} [Inhabited α] (d d' : Dict α) : Prop := ∀ k, d.find k = d'.find k

/-- Two sorted sets with the same scores. -/
def ZSet.Equiv (z z' : ZSet) : Prop := z.dict.Equiv z'.dict

/-- The same members, whatever the unit values. -/
def sameMembers (s s' : Dict UInt8) : Prop := ∀ k, (s.find k).isSome = (s'.find k).isSome

/-- The same type and the same abstract value. -/
def Object.Equiv : Object → Object → Prop
  | string s, string s' => s = s'
  | list l, list l' => l = l'
  | hash h, hash h' => h.Equiv h'
  | set s, set s' => sameMembers s s'
  | zset z, zset z' => z.Equiv z'
  | hll s, hll s' => s = s'
  | _, _ => False

@[refl] theorem Object.Equiv.refl (o : Object) : o.Equiv o := by
  cases o <;> first | rfl | exact fun _ => rfl

theorem Object.Equiv.symm {o o' : Object} (h : o.Equiv o') : o'.Equiv o := by
  cases o <;> cases o' <;> simp only [Object.Equiv] at h ⊢ <;>
    first | exact h.symm | exact fun k => (h k).symm

theorem Object.Equiv.trans {o o' o'' : Object} (h : o.Equiv o') (h' : o'.Equiv o'') : o.Equiv o'' := by
  cases o <;> cases o' <;> simp only [Object.Equiv] at h <;> cases o'' <;>
    simp only [Object.Equiv] at h' ⊢ <;> first | exact h.trans h' | exact fun k => (h k).trans (h' k)

/-- An entry of the keyspace: a value and its deadline. -/
abbrev Entry := Object × Option ℕ

/-- Equivalent values with the same deadline, or no entry on both sides. -/
def sameEntry : Option Entry → Option Entry → Prop
  | none, none => True
  | some (o, d), some (o', d') => o.Equiv o' ∧ d = d'
  | _, _ => False

@[refl] theorem sameEntry.refl (e : Option Entry) : sameEntry e e := by
  rcases e with _ | ⟨o, d⟩
  · trivial
  · exact ⟨.refl o, rfl⟩

theorem sameEntry.symm {e e' : Option Entry} (h : sameEntry e e') : sameEntry e' e := by
  rcases e with _ | ⟨o, d⟩ <;> rcases e' with _ | ⟨o', d'⟩
  · trivial
  · exact h
  · exact h
  · exact ⟨h.1.symm, h.2.symm⟩

theorem sameEntry.trans {e e' e'' : Option Entry} (h : sameEntry e e') (h' : sameEntry e' e'') :
    sameEntry e e'' := by
  rcases e with _ | ⟨o, d⟩ <;> rcases e' with _ | ⟨o', d'⟩ <;> rcases e'' with _ | ⟨o'', d''⟩ <;>
    first | trivial | exact False.elim h | exact False.elim h' | exact ⟨h.1.trans h'.1, h.2.trans h'.2⟩

namespace Keyspace

variable (db : Keyspace) (now : ℕ) (key k : Bytes) (o : Object)

/-- The entry of a key that is live. -/
def live : Option Entry := (db.peek now k).map fun o => (o, db.expires.find k)

theorem live_congr {db db' : Keyspace} {k : Bytes} (hd : db'.dict.find k = db.dict.find k)
    (he : db'.expires.find k = db.expires.find k) (now : ℕ) : db'.live now k = db.live now k := by
  have hdead : db'.dead now k = db.dead now k := by rw [dead, dead, he]
  rw [live, live, peek, peek, hdead, hd, he]

theorem peek_eq_live : db.peek now k = (db.live now k).map Prod.fst := by
  unfold live
  cases db.peek now k <;> rfl

theorem peek_of_live_eq {now : ℕ} {db db' : Keyspace} {k : Bytes} (h : db'.live now k = db.live now k) :
    db'.peek now k = db.peek now k := by
  rw [peek_eq_live, peek_eq_live, h]

theorem live_of_none {db : Keyspace} {k : Bytes} (h : db.dict.find k = none) (now : ℕ) :
    db.live now k = none := by
  unfold live peek
  split_ifs <;> simp [h]

theorem live_of_dead {db : Keyspace} {now : ℕ} {k : Bytes} (h : db.dead now k) : db.live now k = none := by
  simp [live, peek, h]

theorem dead_mono {db : Keyspace} {now later : ℕ} {k : Bytes} (hle : now ≤ later) (h : db.dead now k) :
    db.dead later k := by
  unfold dead at h ⊢
  obtain ⟨dl, hd, hdl⟩ := (Option.any_eq_true _ _).1 h
  refine (Option.any_eq_true _ _).2 ⟨dl, hd, ?_⟩
  have : dl ≤ now := by simpa using hdl
  simpa using this.trans hle

/-- A lookup leaves what is live then and later. -/
theorem live_lookup_later {later : ℕ} (hle : now ≤ later) :
    (db.lookup now key).1.live later k = db.live later k := by
  by_cases h : k = key ∧ db.dead now key
  · obtain ⟨rfl, h⟩ := h
    rw [live_of_dead (dead_mono hle h), live_of_none]
    rw [lookup_find_dict]
    exact if_pos ⟨rfl, h⟩
  · refine live_congr ?_ ?_ later
    · rw [lookup_find_dict, if_neg h]
    · rw [lookup_find_expires, if_neg fun h' => h ⟨h'.1, h'.2.2⟩]

@[simp] theorem live_lookup : (db.lookup now key).1.live now k = db.live now k :=
  live_lookup_later db now key k (le_refl now)

theorem live_set : (db.set key o).live now k = if k = key then some (o, none) else db.live now k := by
  split_ifs with hk
  · subst hk
    simp [live, peek, dead]
  · exact live_congr (by simp [hk]) (by simp [hk]) now

theorem live_erase : (db.erase key).live now k = if k = key then none else db.live now k := by
  split_ifs with hk
  · exact live_of_none (by simp [hk]) now
  · exact live_congr (by simp [hk]) (by simp [hk]) now

theorem live_write : (db.write key o).live now k =
    if k = key then (db.live now key).map fun e => (o, e.2) else db.live now k := by
  split_ifs with hk
  · subst hk
    cases hd : db.dead now k <;> cases hf : db.dict.find k <;> simp_all [live, peek, dead]
  · have hd : (db.write key o).dict.find k = db.dict.find k := by simp [hk]
    exact live_congr hd rfl now

/-- Two keyspaces that look the same at a clock reading. -/
def LiveEquiv (db db' : Keyspace) : Prop := ∀ k, sameEntry (db.live now k) (db'.live now k)

variable {db now}

@[refl] theorem LiveEquiv.refl (db : Keyspace) : LiveEquiv now db db := fun _ => .refl _

theorem LiveEquiv.symm {db' : Keyspace} (h : LiveEquiv now db db') : LiveEquiv now db' db :=
  fun k => (h k).symm

theorem LiveEquiv.trans {db' db'' : Keyspace} (h : LiveEquiv now db db') (h' : LiveEquiv now db' db'') :
    LiveEquiv now db db'' := fun k => (h k).trans (h' k)

theorem LiveEquiv.lookup_right (now : ℕ) (db : Keyspace) (key : Bytes) : LiveEquiv now db (db.lookup now key).1 := by
  intro k
  rw [live_lookup]

/-- A value that is written back with the same contents. -/
theorem LiveEquiv.write_back {o' : Object} (h : db.peek now key = some o) (hE : o.Equiv o') :
    LiveEquiv now db (db.write key o') := by
  intro k
  rw [live_write]
  split_ifs with hk
  · subst hk
    simp only [live, h, Option.map_some]
    exact ⟨hE, rfl⟩
  · rfl

/-- Nothing changes outside some keys. -/
def Only (K : Bytes → Prop) (db db' : Keyspace) : Prop :=
  ∀ k, ¬K k → db'.dict.find k = db.dict.find k ∧ db'.expires.find k = db.expires.find k

section Only

variable {K : Bytes → Prop} {db' : Keyspace}

theorem Only.refl (db : Keyspace) : Only K db db := fun _ _ => ⟨rfl, rfl⟩

theorem Only.trans {db'' : Keyspace} (h : Only K db db') (h' : Only K db' db'') : Only K db db'' :=
  fun k hk => ⟨(h' k hk).1.trans (h k hk).1, (h' k hk).2.trans (h k hk).2⟩

theorem Only.set (h : Only K db db') (hk : K key) : Only K db (db'.set key o) := by
  intro k hn
  have hne : k ≠ key := fun e => hn (e ▸ hk)
  simpa [hne] using h k hn

theorem Only.write (h : Only K db db') (hk : K key) : Only K db (db'.write key o) := by
  intro k hn
  have hne : k ≠ key := fun e => hn (e ▸ hk)
  simpa [hne] using h k hn

theorem Only.erase (h : Only K db db') (hk : K key) : Only K db (db'.erase key) := by
  intro k hn
  have hne : k ≠ key := fun e => hn (e ▸ hk)
  simpa [hne] using h k hn

theorem Only.setDeadline (dl : ℕ) (h : Only K db db') (hk : K key) :
    Only K db (db'.setDeadline key dl) := by
  intro k hn
  have hne : k ≠ key := fun e => hn (e ▸ hk)
  simpa [hne] using h k hn

theorem Only.persist (h : Only K db db') (hk : K key) : Only K db (db'.persist key).1 := by
  intro k hn
  have hne : k ≠ key := fun e => hn (e ▸ hk)
  simpa [hne] using h k hn

theorem Only.lookup (now : ℕ) (h : Only K db db') (hk : K key) : Only K db (db'.lookup now key).1 := by
  intro k hn
  have hne : k ≠ key := fun e => hn (e ▸ hk)
  simpa [lookup_find_dict, lookup_find_expires, hne] using h k hn

end Only

end Keyspace

/-! The typed lookups by what they find. -/

section Typed

variable {α : Type} (view : Object → Option α)

def found : Option Object → Found α
  | none => .absent
  | some o => match view o with
    | some a => .present a
    | none => .wrongType

theorem found_absent {o : Option Object} : found view o = .absent ↔ o = none := by
  cases o with
  | none => exact iff_of_true rfl rfl
  | some o => cases h : view o <;> simp [found, h]

theorem found_present {o : Option Object} {a : α} :
    found view o = .present a ↔ ∃ x, o = some x ∧ view x = some a := by
  cases o with
  | none => simp [found]
  | some o => cases h : view o <;> simp [found, h]

theorem found_of_bind {o : Option Object} {a : α} (h : o.bind view = some a) : found view o = .present a :=
  (found_present view).2 (Option.bind_eq_some_iff.1 h)

theorem found_wrongType {o : Option Object} (h : found view o = .wrongType) :
    ∃ x, o = some x ∧ view x = none := by
  cases o with
  | none => cases h
  | some x =>
    cases hx : view x with
    | none => exact ⟨x, rfl, hx⟩
    | some a => simp [found, hx] at h

theorem getAs_eq (db : Keyspace) (now : ℕ) (key : Bytes) :
    getAs view db now key = ((db.lookup now key).1, found view (db.peek now key)) := by
  unfold getAs
  rw [Keyspace.lookup_eq]
  cases db.peek now key <;> rfl

theorem getOrMake_eq (make : α → Object) (fresh : α) (db : Keyspace) (now : ℕ) (key : Bytes) :
    getOrMake view make fresh db now key = match found view (db.peek now key) with
      | .absent => ((db.lookup now key).1.set key (make fresh), some fresh)
      | .wrongType => ((db.lookup now key).1, none)
      | .present a => ((db.lookup now key).1, some a) := by
  unfold getOrMake
  rw [getAs_eq]
  cases found view (db.peek now key) <;> rfl

end Typed

end BlazeKV
