import BlazeKV.Spec.Command

/-! The keyspace as a map from keys to objects and deadlines. A key whose deadline
has passed is dead: `lookup` does not find it, and erases it. -/

namespace BlazeKV

namespace Keyspace

variable (db : Keyspace) (now : ℕ) (key k : Bytes) (o : Object)

def dead : Bool := (db.expires.find key).any (· ≤ now)

/-- The object that a lookup finds. -/
def peek : Option Object := if db.dead now key then none else db.dict.find key

@[simp] theorem find_dict_empty : empty.dict.find k = none := Dict.find_empty k
@[simp] theorem find_expires_empty : empty.expires.find k = none := Dict.find_empty k

@[simp] theorem find_dict_erase :
    (db.erase key).dict.find k = if k = key then none else db.dict.find k := Dict.find_erase _ _ _

@[simp] theorem find_expires_erase :
    (db.erase key).expires.find k = if k = key then none else db.expires.find k :=
  Dict.find_erase _ _ _

@[simp] theorem find_dict_set :
    (db.set key o).dict.find k = if k = key then some o else db.dict.find k := Dict.find_insert _ _ _ _

@[simp] theorem find_expires_set :
    (db.set key o).expires.find k = if k = key then none else db.expires.find k :=
  Dict.find_erase _ _ _

@[simp] theorem find_dict_write : (db.write key o).dict.find k =
    if k = key ∧ (db.dict.find key).isSome then some o else db.dict.find k := Dict.find_write _ _ _ _

@[simp] theorem expires_write : (db.write key o).expires = db.expires := rfl

@[simp] theorem dict_setDeadline (dl : ℕ) : (db.setDeadline key dl).dict = db.dict := rfl

@[simp] theorem find_expires_setDeadline (dl : ℕ) : (db.setDeadline key dl).expires.find k =
    if k = key then some dl else db.expires.find k := Dict.find_insert _ _ _ _

@[simp] theorem dict_persist : (db.persist key).1.dict = db.dict := rfl

@[simp] theorem find_expires_persist : (db.persist key).1.expires.find k =
    if k = key then none else db.expires.find k := Dict.find_erase _ _ _

@[simp] theorem persist_snd : (db.persist key).2 = (db.expires.find key).isSome :=
  Dict.eraseKey_snd _ _

@[simp] theorem eraseKey_fst : (db.eraseKey key).1 = db.erase key := rfl

@[simp] theorem eraseKey_snd : (db.eraseKey key).2 = (db.dict.find key).isSome := Dict.eraseKey_snd _ _

/-- Erasing a key that a lookup finds dead. -/
def expire : Keyspace := { db.erase key with expired := db.expired + 1 }

@[simp] theorem find_dict_expire :
    (db.expire key).dict.find k = if k = key then none else db.dict.find k := Dict.find_erase _ _ _

@[simp] theorem find_expires_expire :
    (db.expire key).expires.find k = if k = key then none else db.expires.find k :=
  Dict.find_erase _ _ _

theorem lookup_eq : db.lookup now key =
    (if (db.dict.find key).isSome ∧ db.dead now key then db.expire key else db, db.peek now key) := by
  unfold lookup peek dead expire
  cases ho : db.dict.find key with
  | none => simp
  | some o =>
    by_cases hz : db.expires.size = 0
    · have := (Dict.size_eq_zero db.expires).1 hz key
      simp [hz, this]
    · cases hd : db.expires.find key with
      | none => simp
      | some dl =>
        by_cases hdl : dl ≤ now
        · simp [hz, hdl]
        · simp [hdl]

@[simp] theorem lookup_snd : (db.lookup now key).2 = db.peek now key := by rw [lookup_eq]

theorem lookup_find_dict : (db.lookup now key).1.dict.find k =
    if k = key ∧ db.dead now key then none else db.dict.find k := by
  rw [lookup_eq]
  dsimp only
  by_cases hk : k = key
  · subst hk
    cases h : db.dict.find k <;> cases db.dead now k <;> simp [h]
  · split_ifs <;> simp_all

/-- A lookup that finds nothing leaves nothing at its key. -/
theorem lookup_none {db : Keyspace} {now : ℕ} {key : Bytes} (h : db.peek now key = none) :
    (db.lookup now key).1.dict.find key = none := by
  rw [lookup_find_dict]
  cases hd : db.dead now key with
  | true => simp
  | false => simpa [peek, hd] using h

theorem lookup_find_expires : (db.lookup now key).1.expires.find k =
    if k = key ∧ (db.dict.find key).isSome ∧ db.dead now key then none else db.expires.find k := by
  rw [lookup_eq]
  dsimp only
  by_cases hk : k = key
  · subst hk
    split_ifs <;> simp_all
  · split_ifs <;> simp_all

/-- A key that a lookup finds is left as it was. -/
theorem lookup_of_peek (h : db.peek now key = some o) : db.lookup now key = (db, some o) := by
  rw [lookup_eq, h]
  have : db.dead now key = false := by
    by_contra hd
    simp [peek, hd] at h
  simp [this]

theorem find_of_peek (h : db.peek now key = some o) : db.dict.find key = some o := by
  unfold peek at h
  split_ifs at h
  exact h

/-- All the objects of a keyspace have a property. -/
def All (P : Object → Prop) (db : Keyspace) : Prop := ∀ k o, db.dict.find k = some o → P o

section All

variable {P : Object → Prop} {db : Keyspace} {now : ℕ} {key : Bytes} {o : Object}

theorem all_empty : All P empty := by simp [All]

theorem All.of_sub {db' : Keyspace} (h : All P db)
    (hsub : ∀ k o, db'.dict.find k = some o → db.dict.find k = some o) : All P db' :=
  fun k o hk => h k o (hsub k o hk)

theorem All.set (h : All P db) (ho : P o) : All P (db.set key o) := by
  intro k o' hk
  rw [find_dict_set] at hk
  split_ifs at hk
  · exact Option.some.inj hk ▸ ho
  · exact h k o' hk

theorem All.write (h : All P db) (ho : P o) : All P (db.write key o) := by
  intro k o' hk
  rw [find_dict_write] at hk
  split_ifs at hk
  · exact Option.some.inj hk ▸ ho
  · exact h k o' hk

theorem All.erase (h : All P db) : All P (db.erase key) := by
  refine h.of_sub fun k o hk => ?_
  rw [find_dict_erase] at hk
  split_ifs at hk
  exact hk

theorem All.lookup (h : All P db) : All P (db.lookup now key).1 := by
  refine h.of_sub fun k o hk => ?_
  rw [lookup_find_dict] at hk
  split_ifs at hk
  exact hk

end All

end Keyspace

section Typed

variable {α : Type} {view : Object → Option α} {make : α → Object} {fresh : α} {db : Keyspace}
  {now : ℕ} {key : Bytes} {P : Object → Prop}

theorem getAs_fst : (getAs view db now key).1 = (db.lookup now key).1 := by
  unfold getAs
  split <;> simp_all

theorem getAs_present {a : α} (h : (getAs view db now key).2 = .present a) :
    ∃ o, db.peek now key = some o ∧ view o = some a := by
  unfold getAs at h
  split at h
  · exact absurd h (by simp)
  · next db' o hl =>
    refine ⟨o, by rw [← Keyspace.lookup_snd, hl], ?_⟩
    cases hv : view o with
    | none => simp [hv] at h
    | some b => simpa [hv] using h

theorem getOrMake_fst_all (h : db.All P) (hf : P (make fresh)) :
    (getOrMake view make fresh db now key).1.All P := by
  have hl : (getAs view db now key).1.All P := by
    rw [getAs_fst]
    exact h.lookup
  unfold getOrMake
  generalize getAs view db now key = r at hl ⊢
  obtain ⟨db', found⟩ := r
  cases found with
  | absent => exact Keyspace.All.set hl hf
  | wrongType => exact hl
  | present a => exact hl

/-- A container that was found or made satisfies what all objects do. -/
theorem getOrMake_snd_all (h : db.All P) {a : α}
    (ha : (getOrMake view make fresh db now key).2 = some a) :
    a = fresh ∨ ∃ o, P o ∧ view o = some a := by
  unfold getOrMake at ha
  split at ha
  · exact .inl (Option.some.inj ha).symm
  · exact absurd ha (by simp)
  · next db' b heq =>
    obtain ⟨o, ho, hv⟩ := getAs_present (by rw [heq] : (getAs view db now key).2 = .present b)
    obtain rfl := Option.some.inj ha
    exact .inr ⟨o, h key o (db.find_of_peek now key o ho), hv⟩

end Typed

end BlazeKV
