import BlazeKV.Spec.SwissTable
import Mathlib.Data.Finset.Card

/-! The probing invariant of the table. The slots of a key are listed by their
distance from its home position, so that group `j` of its probe sequence holds
the distances from `16 j` to `16 j + 15`; no group before the one that holds a
key may contain an empty byte. -/

set_option linter.unusedSectionVars false

namespace BlazeKV.SwissTable

variable {κ α : Type} [DecidableEq κ] [Inhabited κ] [Inhabited α]
variable {G : GroupOps} {hash : κ → ℕ}

/-- The slot at distance `d` from position `p` in the circular array. -/
def around (t : SwissTable κ α) (p d : ℕ) : ℕ := (p + d) % t.capacity

def fullSlots (t : SwissTable κ α) : Finset ℕ :=
  (Finset.range t.capacity).filter fun i => isFull (t.ctrlAt i) = true

def deletedSlots (t : SwissTable κ α) : Finset ℕ :=
  (Finset.range t.capacity).filter fun i => t.ctrlAt i = kDeleted

/-- No group before the one at distance `d` from the home of `k` has an empty byte. -/
def Reach (hash : κ → ℕ) (t : SwissTable κ α) (k : κ) (i : ℕ) : Prop :=
  ∃ d < t.capacity, i = t.around (h1 (hash k)) d ∧
    ∀ e < kGroup * (d / kGroup), t.ctrlAt (t.around (h1 (hash k)) e) ≠ kEmpty

structure Inv (hash : κ → ℕ) (t : SwissTable κ α) : Prop where
  pow : ∃ e, t.capacity = 2 ^ (e + 4)
  ctrl_length : t.ctrl.length = t.capacity + kGroup
  slots_length : t.slots.length = t.capacity
  mirror : ∀ i < kGroup, t.ctrlAt (t.capacity + i) = t.ctrlAt i
  bytes : ∀ i < t.capacity, t.ctrlAt i = kEmpty ∨ t.ctrlAt i = kDeleted ∨ isFull (t.ctrlAt i) = true
  size_eq : t.size = t.fullSlots.card
  tombstones_eq : t.tombstones = t.deletedSlots.card
  load : t.size + t.tombstones ≤ t.growAt
  tag : ∀ i < t.capacity, isFull (t.ctrlAt i) = true → t.ctrlAt i = h2 (hash (t.slotAt i).key)
  reach : ∀ i < t.capacity, isFull (t.ctrlAt i) = true → t.Reach hash (t.slotAt i).key i
  uniq : ∀ i < t.capacity, ∀ j < t.capacity, isFull (t.ctrlAt i) = true →
    isFull (t.ctrlAt j) = true → (t.slotAt i).key = (t.slotAt j).key → i = j

/-- Some slot holds the entry `(k, v)`. -/
def Holds (t : SwissTable κ α) (k : κ) (v : α) : Prop :=
  ∃ i < t.capacity, isFull (t.ctrlAt i) = true ∧ t.slotAt i = ⟨k, v⟩

@[simp] theorem isFull_kEmpty : isFull kEmpty = false := rfl
@[simp] theorem isFull_kDeleted : isFull kDeleted = false := rfl

@[simp] theorem isFull_h2 (h : ℕ) : isFull (h2 h) = true := by
  have hlt : h &&& 0x7F ≤ 127 := Nat.and_le_right
  simp only [isFull, h2, UInt8.toNat_ofNat', decide_eq_true_eq]
  omega

/-! Geometry of the circular array. -/

section Geometry

variable {t : SwissTable κ α}

theorem Inv.capacity_eq (hI : t.Inv hash) : t.capacity = kGroup * (t.capacity / kGroup) := by
  obtain ⟨e, he⟩ := hI.pow
  simp only [kGroup, he, pow_succ]
  omega

theorem Inv.capacity_ge (hI : t.Inv hash) : kGroup ≤ t.capacity := by
  obtain ⟨e, he⟩ := hI.pow
  have : 0 < 2 ^ e := by positivity
  simp only [kGroup, he, pow_succ]
  omega

theorem Inv.capacity_pos (hI : t.Inv hash) : 0 < t.capacity :=
  lt_of_lt_of_le (by decide) hI.capacity_ge

theorem Inv.and_mask (hI : t.Inv hash) (x : ℕ) : x &&& t.mask = x % t.capacity := by
  obtain ⟨e, he⟩ := hI.pow
  rw [mask, he, Nat.and_two_pow_sub_one_eq_mod]

theorem Inv.growAt_lt (hI : t.Inv hash) : t.growAt < t.capacity := by
  have := hI.capacity_pos
  simp only [growAt]
  omega

theorem Inv.around_lt (hI : t.Inv hash) (p d : ℕ) : t.around p d < t.capacity :=
  Nat.mod_lt _ hI.capacity_pos

theorem around_add (p d e : ℕ) : (t.around p d + e) % t.capacity = t.around p (d + e) := by
  rw [around, around, Nat.mod_add_mod, Nat.add_assoc]

/-- Every slot is at some distance from any position. -/
theorem Inv.exists_around (hI : t.Inv hash) (p : ℕ) {i : ℕ} (hi : i < t.capacity) :
    ∃ d < t.capacity, i = t.around p d := by
  have hp := Nat.mod_lt p hI.capacity_pos
  refine ⟨(i + (t.capacity - p % t.capacity)) % t.capacity, Nat.mod_lt _ hI.capacity_pos, ?_⟩
  rw [around, Nat.add_mod_mod, ← Nat.mod_add_mod,
    show p % t.capacity + (i + (t.capacity - p % t.capacity)) = i + t.capacity by omega,
    Nat.add_mod_right, Nat.mod_eq_of_lt hi]

/-- A group read never wraps: the mirrored tail gives the bytes of the head. -/
theorem Inv.group_eq (hI : t.Inv hash) {pos l : ℕ} (hpos : pos < t.capacity) (hl : l < kGroup) :
    t.group pos l = t.ctrlAt ((pos + l) % t.capacity) := by
  rw [group]
  by_cases h : pos + l < t.capacity
  · rw [Nat.mod_eq_of_lt h]
  · have hcap := hI.capacity_ge
    rw [Nat.mod_eq_sub_mod (not_lt.1 h), Nat.mod_eq_of_lt (by omega)]
    have := hI.mirror (pos + l - t.capacity) (by omega)
    rwa [show t.capacity + (pos + l - t.capacity) = pos + l by omega] at this

theorem Inv.group_around (hI : t.Inv hash) (p d : ℕ) {l : ℕ} (hl : l < kGroup) :
    t.group (t.around p d) l = t.ctrlAt (t.around p (d + l)) := by
  rw [hI.group_eq (hI.around_lt p d) hl, around_add]

theorem Inv.next_pos (hI : t.Inv hash) (p j : ℕ) :
    (t.around p (kGroup * j) + kGroup) &&& t.mask = t.around p (kGroup * (j + 1)) := by
  rw [hI.and_mask, around_add, Nat.mul_succ]

theorem Inv.home_pos (hI : t.Inv hash) (k : κ) :
    h1 (hash k) &&& t.mask = t.around (h1 (hash k)) (kGroup * 0) := by
  rw [hI.and_mask, around, Nat.mul_zero, Nat.add_zero]

end Geometry

/-! Some byte is empty, so every probe sequence meets one. -/

theorem Inv.exists_empty {t : SwissTable κ α} (hI : t.Inv hash) :
    ∃ i < t.capacity, t.ctrlAt i = kEmpty := by
  by_contra hno
  push Not at hno
  have hsub : Finset.range t.capacity ⊆ t.fullSlots ∪ t.deletedSlots := by
    intro i hi
    have hlt := Finset.mem_range.1 hi
    rcases hI.bytes i hlt with h | h | h
    · exact absurd h (hno i hlt)
    · exact Finset.mem_union_right _ (Finset.mem_filter.2 ⟨hi, h⟩)
    · exact Finset.mem_union_left _ (Finset.mem_filter.2 ⟨hi, h⟩)
  have hcard := (Finset.card_le_card hsub).trans (Finset.card_union_le _ _)
  rw [Finset.card_range, ← hI.size_eq, ← hI.tombstones_eq] at hcard
  have := hI.load
  have := hI.growAt_lt
  omega

theorem Inv.exists_empty_around {t : SwissTable κ α} (hI : t.Inv hash) (p : ℕ) :
    ∃ d < t.capacity, t.ctrlAt (t.around p d) = kEmpty := by
  obtain ⟨i, hi, he⟩ := hI.exists_empty
  obtain ⟨d, hd, rfl⟩ := hI.exists_around p hi
  exact ⟨d, hd, he⟩

/-! One group of a probe. -/

theorem Inv.matchAt_some {t : SwissTable κ α} (hI : t.Inv hash) {p d : ℕ} {needle : UInt8} {k : κ}
    {i : ℕ} (h : t.matchAt G (t.around p d) needle k = some i) :
    ∃ l < kGroup, i = t.around p (d + l) ∧ t.ctrlAt i = needle ∧ (t.slotAt i).key = k := by
  simp only [matchAt, Option.map_eq_some_iff] at h
  obtain ⟨l, hfind, rfl⟩ := h
  have hmem := List.mem_of_find?_eq_some hfind
  have hkey := List.find?_some hfind
  obtain ⟨hl, htag⟩ := (G.mem_lanes _ _ l).1 hmem
  have hpos : (t.around p d + l) &&& t.mask = t.around p (d + l) := by
    rw [hI.and_mask, around_add]
  rw [hI.group_around p d hl] at htag
  rw [hpos] at hkey ⊢
  exact ⟨l, hl, rfl, htag, by simpa using hkey⟩

theorem Inv.matchAt_none {t : SwissTable κ α} (hI : t.Inv hash) {p d : ℕ} {needle : UInt8} {k : κ}
    (h : t.matchAt G (t.around p d) needle k = none) :
    ∀ l < kGroup, ¬ (t.ctrlAt (t.around p (d + l)) = needle ∧
      (t.slotAt (t.around p (d + l))).key = k) := by
  rintro l hl ⟨htag, hkey⟩
  simp only [matchAt, Option.map_eq_none_iff] at h
  have hmem : l ∈ G.lanes (G.matchBits (t.group (t.around p d)) needle) :=
    (G.mem_lanes _ _ l).2 ⟨hl, by rw [hI.group_around p d hl, htag]⟩
  have := List.find?_eq_none.1 h l hmem
  rw [hI.and_mask, around_add] at this
  simp [hkey] at this

theorem Inv.matchEmpty_around {t : SwissTable κ α} (hI : t.Inv hash) (p d : ℕ) :
    G.matchEmpty (t.group (t.around p d)) = true ↔
      ∃ l < kGroup, t.ctrlAt (t.around p (d + l)) = kEmpty := by
  rw [G.matchEmpty_iff]
  constructor
  · rintro ⟨l, hl, h⟩
    exact ⟨l, hl, by rwa [hI.group_around p d hl] at h⟩
  · rintro ⟨l, hl, h⟩
    exact ⟨l, hl, by rwa [hI.group_around p d hl]⟩

theorem Inv.free_eq_zero {t : SwissTable κ α} (hI : t.Inv hash) {p d : ℕ}
    (h : G.matchEmptyOrDeleted (t.group (t.around p d)) = 0) :
    ∀ l < kGroup, isFull (t.ctrlAt (t.around p (d + l))) = true := by
  intro l hl
  have := (G.free_eq_zero_iff _).1 h l hl
  rwa [hI.group_around p d hl] at this

theorem Inv.first_free {t : SwissTable κ α} (hI : t.Inv hash) {p d : ℕ}
    (h : G.matchEmptyOrDeleted (t.group (t.around p d)) ≠ 0) :
    ∃ l < kGroup, (t.around p d + G.ctz (G.matchEmptyOrDeleted (t.group (t.around p d)))) &&& t.mask =
        t.around p (d + l) ∧
      isFull (t.ctrlAt (t.around p (d + l))) = false := by
  obtain ⟨hl, hfree, -⟩ := G.first_free _ h
  rw [hI.group_around p d hl] at hfree
  exact ⟨_, hl, by rw [hI.and_mask, around_add]; rfl, hfree⟩

/-- The next group either ends the probe at an empty byte or extends the
prefix of distances without one. -/
theorem extend_passed {t : SwissTable κ α} {p j : ℕ}
    (hpre : ∀ e < kGroup * j, t.ctrlAt (t.around p e) ≠ kEmpty)
    (hgrp : ¬ ∃ l < kGroup, t.ctrlAt (t.around p (kGroup * j + l)) = kEmpty) :
    ∀ e < kGroup * (j + 1), t.ctrlAt (t.around p e) ≠ kEmpty := by
  intro e he hemp
  by_cases hlt : e < kGroup * j
  · exact hpre e hlt hemp
  · exact hgrp ⟨e - kGroup * j, by rw [Nat.mul_succ] at he; omega, by
      rwa [show kGroup * j + (e - kGroup * j) = e by omega]⟩

theorem extend_miss {t : SwissTable κ α} {p j : ℕ} {needle : UInt8} {k : κ}
    (hpre : ∀ e < kGroup * j, ¬ (t.ctrlAt (t.around p e) = needle ∧ (t.slotAt (t.around p e)).key = k))
    (hgrp : ∀ l < kGroup, ¬ (t.ctrlAt (t.around p (kGroup * j + l)) = needle ∧
      (t.slotAt (t.around p (kGroup * j + l))).key = k)) :
    ∀ e < kGroup * (j + 1),
      ¬ (t.ctrlAt (t.around p e) = needle ∧ (t.slotAt (t.around p e)).key = k) := by
  intro e he
  by_cases hlt : e < kGroup * j
  · exact hpre e hlt
  · have := hgrp (e - kGroup * j) (by rw [Nat.mul_succ] at he; omega)
    rwa [show kGroup * j + (e - kGroup * j) = e by omega] at this

/-- A key is not in the table when a prefix of its probe that ends with an
empty byte does not hold it. -/
theorem Inv.absent_of_miss {t : SwissTable κ α} (hI : t.Inv hash) {k : κ} {j l : ℕ} (hl : l < kGroup)
    (hemp : t.ctrlAt (t.around (h1 (hash k)) (kGroup * j + l)) = kEmpty)
    (hmiss : ∀ e < kGroup * (j + 1), ¬ (t.ctrlAt (t.around (h1 (hash k)) e) = h2 (hash k) ∧
      (t.slotAt (t.around (h1 (hash k)) e)).key = k)) (v : α) : ¬ t.Holds k v := by
  rintro ⟨i, hi, hfull, hslot⟩
  have hkey : (t.slotAt i).key = k := by rw [hslot]
  obtain ⟨d, -, hid, hno⟩ := hI.reach i hi hfull
  have htag := hI.tag i hi hfull
  rw [hkey] at hid hno htag
  by_cases hd : d < kGroup * (j + 1)
  · exact hmiss d hd ⟨by rw [← hid, htag], by rw [← hid, hkey]⟩
  · have : kGroup * (j + 1) ≤ kGroup * (d / kGroup) :=
      Nat.mul_le_mul_left _ ((Nat.le_div_iff_mul_le (by decide)).2 (by rw [Nat.mul_comm]; omega))
    exact hno _ (by rw [Nat.mul_succ] at this; omega) hemp

/-! The probe loops. -/

/-- `find` and `erase` end within one tour of the groups. -/
theorem Inv.findLoop_spec {t : SwissTable κ α} (hI : t.Inv hash) (k : κ) (fuel j : ℕ)
    (hj : j + fuel = t.capacity / kGroup)
    (hpre : ∀ e < kGroup * j, t.ctrlAt (t.around (h1 (hash k)) e) ≠ kEmpty)
    (hmiss : ∀ e < kGroup * j, ¬ (t.ctrlAt (t.around (h1 (hash k)) e) = h2 (hash k) ∧
      (t.slotAt (t.around (h1 (hash k)) e)).key = k)) :
    (∃ i < t.capacity, t.findLoop G (h2 (hash k)) k fuel (t.around (h1 (hash k)) (kGroup * j)) =
        some (some i) ∧ isFull (t.ctrlAt i) = true ∧ (t.slotAt i).key = k) ∨
    (t.findLoop G (h2 (hash k)) k fuel (t.around (h1 (hash k)) (kGroup * j)) = some none ∧
      ∀ v, ¬ t.Holds k v) := by
  induction fuel generalizing j with
  | zero =>
    -- the whole array would be free of empty bytes
    obtain ⟨d, hd, he⟩ := hI.exists_empty_around (h1 (hash k))
    rw [hI.capacity_eq, ← hj] at hd
    exact absurd he (hpre d hd)
  | succ fuel ih =>
    simp only [findLoop]
    cases hm : t.matchAt G (t.around (h1 (hash k)) (kGroup * j)) (h2 (hash k)) k with
    | some i =>
      obtain ⟨l, hl, rfl, htag, hkey⟩ := hI.matchAt_some hm
      exact Or.inl ⟨_, hI.around_lt _ _, rfl, by rw [htag, isFull_h2], hkey⟩
    | none =>
      have hnext := extend_miss hmiss (hI.matchAt_none hm)
      by_cases hemp : G.matchEmpty (t.group (t.around (h1 (hash k)) (kGroup * j))) = true
      · obtain ⟨l, hl, he⟩ := (hI.matchEmpty_around _ _).1 hemp
        exact Or.inr ⟨by simp only [hemp, if_true], hI.absent_of_miss hl he hnext⟩
      · simp only [hemp, Bool.false_eq_true, if_false, hI.next_pos]
        exact ih (j + 1) (by omega) (extend_passed hpre (by rwa [← hI.matchEmpty_around])) hnext

theorem Inv.findSlot_spec {t : SwissTable κ α} (hI : t.Inv hash) (k : κ) :
    (∃ i < t.capacity, t.findSlot G hash k = some (some i) ∧
      isFull (t.ctrlAt i) = true ∧ (t.slotAt i).key = k) ∨
    (t.findSlot G hash k = some none ∧ ∀ v, ¬ t.Holds k v) := by
  rw [findSlot, hI.home_pos]
  exact hI.findLoop_spec k _ 0 (by simp) (by simp) (by simp)

/-- The free slot remembered by `insert_or_assign`. -/
def FreeAt (hash : κ → ℕ) (t : SwissTable κ α) (k : κ) (i : ℕ) : Prop :=
  i < t.capacity ∧ isFull (t.ctrlAt i) = false ∧ t.Reach hash k i

theorem Inv.freeAt_of_passed {t : SwissTable κ α} (hI : t.Inv hash) {k : κ} {j l : ℕ}
    (hj : j < t.capacity / kGroup) (hl : l < kGroup)
    (hpre : ∀ e < kGroup * j, t.ctrlAt (t.around (h1 (hash k)) e) ≠ kEmpty)
    (hfree : isFull (t.ctrlAt (t.around (h1 (hash k)) (kGroup * j + l))) = false) :
    t.FreeAt hash k (t.around (h1 (hash k)) (kGroup * j + l)) := by
  refine ⟨hI.around_lt _ _, hfree, kGroup * j + l, ?_, rfl, ?_⟩
  · have := Nat.mul_le_mul_left kGroup hj
    rw [hI.capacity_eq]
    rw [Nat.mul_succ] at this
    omega
  · rwa [Nat.mul_add_div (by decide), Nat.div_eq_of_lt hl, Nat.add_zero]

theorem Inv.insertLoop_spec {t : SwissTable κ α} (hI : t.Inv hash) (k : κ) (fuel j : ℕ)
    (insertAt : Option ℕ) (hj : j + fuel = t.capacity / kGroup)
    (hpre : ∀ e < kGroup * j, t.ctrlAt (t.around (h1 (hash k)) e) ≠ kEmpty)
    (hmiss : ∀ e < kGroup * j, ¬ (t.ctrlAt (t.around (h1 (hash k)) e) = h2 (hash k) ∧
      (t.slotAt (t.around (h1 (hash k)) e)).key = k))
    (hat : ∀ i, insertAt = some i → t.FreeAt hash k i) :
    (∃ i < t.capacity, t.insertLoop G (h2 (hash k)) k fuel (t.around (h1 (hash k)) (kGroup * j))
        insertAt = some (.found i) ∧ isFull (t.ctrlAt i) = true ∧ (t.slotAt i).key = k) ∨
    (∃ i, t.insertLoop G (h2 (hash k)) k fuel (t.around (h1 (hash k)) (kGroup * j))
        insertAt = some (.free i) ∧ t.FreeAt hash k i ∧ ∀ v, ¬ t.Holds k v) := by
  induction fuel generalizing j insertAt with
  | zero =>
    obtain ⟨d, hd, he⟩ := hI.exists_empty_around (h1 (hash k))
    rw [hI.capacity_eq, ← hj] at hd
    exact absurd he (hpre d hd)
  | succ fuel ih =>
    simp only [insertLoop]
    cases hm : t.matchAt G (t.around (h1 (hash k)) (kGroup * j)) (h2 (hash k)) k with
    | some i =>
      obtain ⟨l, hl, rfl, htag, hkey⟩ := hI.matchAt_some hm
      exact Or.inl ⟨_, hI.around_lt _ _, rfl, by rw [htag, isFull_h2], hkey⟩
    | none =>
      have hnext := extend_miss hmiss (hI.matchAt_none hm)
      by_cases hz : G.matchEmptyOrDeleted (t.group (t.around (h1 (hash k)) (kGroup * j))) = 0
      · -- a group of full bytes: nothing to remember, no end
        have hfull := hI.free_eq_zero hz
        have hgrp : ¬ ∃ l < kGroup, t.ctrlAt (t.around (h1 (hash k)) (kGroup * j + l)) = kEmpty := by
          rintro ⟨l, hl, he⟩
          have := hfull l hl
          rw [he] at this
          cases this
        simp only [hz, ne_eq, not_true_eq_false, if_false, hI.next_pos]
        exact ih (j + 1) insertAt (by omega) (extend_passed hpre hgrp) hnext hat
      · obtain ⟨l, hl, hpos, hfree⟩ := hI.first_free hz
        have hat' : t.FreeAt hash k (insertAt.getD (t.around (h1 (hash k)) (kGroup * j + l))) := by
          cases insertAt with
          | some i => exact hat i rfl
          | none => exact hI.freeAt_of_passed (by omega) hl hpre hfree
        simp only [ne_eq, hz, not_false_eq_true, if_true, hpos]
        by_cases hemp : G.matchEmpty (t.group (t.around (h1 (hash k)) (kGroup * j))) = true
        · obtain ⟨l', hl', he⟩ := (hI.matchEmpty_around _ _).1 hemp
          exact Or.inr ⟨_, by simp only [hemp, if_true], hat', hI.absent_of_miss hl' he hnext⟩
        · simp only [hemp, Bool.false_eq_true, if_false, hI.next_pos]
          exact ih (j + 1) _ (by omega) (extend_passed hpre (by rwa [← hI.matchEmpty_around])) hnext
            (fun i hi => by cases hi; exact hat')

theorem Inv.insertMovedLoop_spec {t : SwissTable κ α} (hI : t.Inv hash) (k : κ) (fuel j : ℕ)
    (hj : j + fuel = t.capacity / kGroup)
    (hpre : ∀ e < kGroup * j, t.ctrlAt (t.around (h1 (hash k)) e) ≠ kEmpty) :
    ∃ i, t.insertMovedLoop G fuel (t.around (h1 (hash k)) (kGroup * j)) = some i ∧
      t.FreeAt hash k i := by
  induction fuel generalizing j with
  | zero =>
    obtain ⟨d, hd, he⟩ := hI.exists_empty_around (h1 (hash k))
    rw [hI.capacity_eq, ← hj] at hd
    exact absurd he (hpre d hd)
  | succ fuel ih =>
    simp only [insertMovedLoop]
    by_cases hz : G.matchEmptyOrDeleted (t.group (t.around (h1 (hash k)) (kGroup * j))) = 0
    · have hfull := hI.free_eq_zero hz
      have hgrp : ¬ ∃ l < kGroup, t.ctrlAt (t.around (h1 (hash k)) (kGroup * j + l)) = kEmpty := by
        rintro ⟨l, hl, he⟩
        have := hfull l hl
        rw [he] at this
        cases this
      simp only [hz, ne_eq, not_true_eq_false, if_false, hI.next_pos]
      exact ih (j + 1) (by omega) (extend_passed hpre hgrp)
    · obtain ⟨l, hl, hpos, hfree⟩ := hI.first_free hz
      exact ⟨_, by simp only [ne_eq, hz, not_false_eq_true, if_true, hpos],
        hI.freeAt_of_passed (by omega) hl hpre hfree⟩

end BlazeKV.SwissTable
