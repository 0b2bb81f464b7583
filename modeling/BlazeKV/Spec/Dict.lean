import BlazeKV.Proofs.SwissOps
import BlazeKV.Spec.Hash

/-! The dictionaries of the store: swiss tables with string keys, together with
their invariant, so that every call on them ends. The results do not depend on
the group primitives, so the plain loops stand for every build. -/

namespace BlazeKV

open SwissTable

def Dict (α : Type) [Inhabited α] : Type := {t : SwissTable Bytes α // t.Inv bytesHash}

namespace Dict

variable {α : Type} [Inhabited α]

theorem find_isSome (d : Dict α) (k : Bytes) : (d.1.find .scalar bytesHash k).isSome := by
  obtain ⟨r, h, -⟩ := d.2.find_spec (G := .scalar) k
  simp [h]

theorem findSlot_isSome (d : Dict α) (k : Bytes) : (d.1.findSlot .scalar bytesHash k).isSome := by
  rcases d.2.findSlot_spec (G := .scalar) k with ⟨i, -, h, -⟩ | ⟨h, -⟩ <;> simp [h]

theorem insert_isSome (d : Dict α) (k : Bytes) (v : α) :
    (d.1.insertOrAssign .scalar bytesHash k v).isSome := by
  obtain ⟨t, b, h, -⟩ := d.2.insertOrAssign_spec (G := .scalar) k v
  simp [h]

theorem insert_inv (d : Dict α) (k : Bytes) (v : α) :
    ((d.1.insertOrAssign .scalar bytesHash k v).get (d.insert_isSome k v)).1.Inv bytesHash := by
  obtain ⟨t, b, h, hI, -⟩ := d.2.insertOrAssign_spec (G := .scalar) k v
  simpa [h] using hI

theorem erase_isSome (d : Dict α) (k : Bytes) : (d.1.erase .scalar bytesHash k).isSome := by
  obtain ⟨t, b, h, -⟩ := d.2.erase_spec (G := .scalar) k
  simp [h]

theorem erase_inv (d : Dict α) (k : Bytes) :
    ((d.1.erase .scalar bytesHash k).get (d.erase_isSome k)).1.Inv bytesHash := by
  obtain ⟨t, b, h, hI, -⟩ := d.2.erase_spec (G := .scalar) k
  simpa [h] using hI

/-- Writing through the pointer that `find` returned. -/
def writeSlot (t : SwissTable Bytes α) (o : Option ℕ) (v : α) : SwissTable Bytes α :=
  match o with
  | some i => t.setSlot i { t.slotAt i with value := v }
  | none => t

theorem write_inv (d : Dict α) (k : Bytes) (v : α) :
    (writeSlot d.1 ((d.1.findSlot .scalar bytesHash k).get (d.findSlot_isSome k)) v).Inv bytesHash := by
  rcases d.2.findSlot_spec (G := .scalar) k with ⟨i, hi, h, -⟩ | ⟨h, -⟩
  · simpa [h, writeSlot] using (d.2.setValue hi v).1
  · simpa [h, writeSlot] using d.2

def empty : Dict α := ⟨new, inv_new⟩

def find (d : Dict α) (k : Bytes) : Option α :=
  (d.1.find .scalar bytesHash k).get (d.find_isSome k)

/-- `insert_or_assign`, and whether the key was absent. -/
def insertOrAssign (d : Dict α) (k : Bytes) (v : α) : Dict α × Bool :=
  (⟨((d.1.insertOrAssign .scalar bytesHash k v).get (d.insert_isSome k v)).1, d.insert_inv k v⟩,
    ((d.1.insertOrAssign .scalar bytesHash k v).get (d.insert_isSome k v)).2)

def insert (d : Dict α) (k : Bytes) (v : α) : Dict α := (d.insertOrAssign k v).1

/-- `erase`, and whether the key was present. -/
def eraseKey (d : Dict α) (k : Bytes) : Dict α × Bool :=
  (⟨((d.1.erase .scalar bytesHash k).get (d.erase_isSome k)).1, d.erase_inv k⟩,
    ((d.1.erase .scalar bytesHash k).get (d.erase_isSome k)).2)

def erase (d : Dict α) (k : Bytes) : Dict α := (d.eraseKey k).1

/-- `*find(k) = v` for a key that is present. -/
def write (d : Dict α) (k : Bytes) (v : α) : Dict α :=
  ⟨writeSlot d.1 ((d.1.findSlot .scalar bytesHash k).get (d.findSlot_isSome k)) v, d.write_inv k v⟩

def clear (d : Dict α) : Dict α := ⟨d.1.clear, d.2.clear⟩

def size (d : Dict α) : ℕ := d.1.size

def forEach (d : Dict α) : List (Bytes × α) := d.1.forEach

variable (d : Dict α) (k k' : Bytes) (v v' : α)

theorem find_eq_some : d.find k = some v ↔ d.1.Holds k v := by
  obtain ⟨r, h, hr⟩ := d.2.find_spec (G := .scalar) k
  simp [find, h, hr]

@[simp] theorem find_empty : (empty : Dict α).find k = none := by
  rw [Option.eq_none_iff_forall_not_mem]
  intro v hv
  exact not_holds_fresh kGroup k v ((find_eq_some _ _ _).1 hv)

@[simp] theorem find_insert : (d.insert k v).find k' = if k' = k then some v else d.find k' := by
  obtain ⟨t, b, h, -, -, hh⟩ := d.2.insertOrAssign_spec (G := .scalar) k v
  ext v'
  rw [find_eq_some]
  simp only [insert, insertOrAssign, h, Option.get_some, hh]
  split_ifs
  · rw [Option.some.injEq, eq_comm]
  · rw [find_eq_some]

@[simp] theorem insertOrAssign_fst : (d.insertOrAssign k v).1 = d.insert k v := rfl

@[simp] theorem insertOrAssign_snd : (d.insertOrAssign k v).2 = (d.find k).isNone := by
  obtain ⟨t, b, h, -, hb, -⟩ := d.2.insertOrAssign_spec (G := .scalar) k v
  simp only [insertOrAssign, h, Option.get_some]
  rw [Bool.eq_iff_iff, hb, Option.isNone_iff_eq_none, Option.eq_none_iff_forall_not_mem]
  simp only [Option.mem_def, find_eq_some]

@[simp] theorem find_erase : (d.erase k).find k' = if k' = k then none else d.find k' := by
  obtain ⟨t, b, h, -, -, hh⟩ := d.2.erase_spec (G := .scalar) k
  ext v'
  rw [find_eq_some]
  simp only [erase, eraseKey, h, Option.get_some, hh]
  split_ifs with hk
  · simp [hk]
  · rw [find_eq_some]
    exact ⟨fun h => h.2, fun h => ⟨hk, h⟩⟩

@[simp] theorem eraseKey_fst : (d.eraseKey k).1 = d.erase k := rfl

@[simp] theorem eraseKey_snd : (d.eraseKey k).2 = (d.find k).isSome := by
  obtain ⟨t, b, h, -, hb, -⟩ := d.2.erase_spec (G := .scalar) k
  simp only [eraseKey, h, Option.get_some]
  rw [Bool.eq_iff_iff, hb, Option.isSome_iff_exists]
  simp only [find_eq_some]

@[simp] theorem find_write : (d.write k v).find k' =
    if k' = k ∧ (d.find k).isSome then some v else d.find k' := by
  rcases d.2.findSlot_spec (G := .scalar) k with ⟨i, hi, h, hf, hk⟩ | ⟨h, habs⟩
  · have hsome : (d.find k).isSome := by
      rw [Option.isSome_iff_exists]
      exact ⟨_, (find_eq_some _ _ _).2 ⟨i, hi, hf, by rw [← hk]⟩⟩
    have hd : (d.write k v).1 = d.1.setSlot i { d.1.slotAt i with value := v } := by
      simp only [write, h, Option.get_some, writeSlot]
    ext v'
    rw [find_eq_some, hd, holds_setValue d.2 hi hf, hk]
    simp only [hsome, and_true]
    split_ifs
    · rw [Option.some.injEq, eq_comm]
    · rw [find_eq_some]
  · have hnone : d.find k = none := by
      rw [Option.eq_none_iff_forall_not_mem]
      exact fun v hv => habs v ((find_eq_some _ _ _).1 hv)
    have hd : d.write k v = d := by
      apply Subtype.ext
      simp only [write, h, Option.get_some, writeSlot]
    rw [hnone, if_neg (by simp), hd]

@[simp] theorem find_clear : d.clear.find k = none := by
  rw [Option.eq_none_iff_forall_not_mem]
  intro v hv
  exact not_holds_clear k v ((find_eq_some _ _ _).1 hv)

theorem mem_forEach : (k, v) ∈ d.forEach ↔ d.find k = some v := by
  rw [find_eq_some, forEach, SwissTable.mem_forEach]

theorem forEach_nodup : (d.forEach.map Prod.fst).Nodup := d.2.forEach_nodup

theorem forEach_length : d.forEach.length = d.size := d.2.forEach_length

theorem size_eq_zero : d.size = 0 ↔ ∀ k, d.find k = none := by
  rw [← forEach_length, List.length_eq_zero_iff, List.eq_nil_iff_forall_not_mem]
  simp only [Prod.forall, mem_forEach, Option.eq_none_iff_forall_not_mem, Option.mem_def]

end Dict

end BlazeKV
