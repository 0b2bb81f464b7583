import BlazeKV.Lib.Dense
import BlazeKV.Proofs.SwissProbe

/-! The probing invariant survives every write: a key put in a free slot of its
probe sequence, a tombstone, and a value overwritten in place. -/

set_option linter.unusedSectionVars false

namespace BlazeKV.SwissTable

variable {κ α : Type} [DecidableEq κ] [Inhabited κ] [Inhabited α]
variable {G : GroupOps} {hash : κ → ℕ}

section Write

variable {t : SwissTable κ α}

theorem Inv.ctrlAt_setCtrl (hI : t.Inv hash) {i : ℕ} (hi : i < t.capacity) (c : UInt8) {j : ℕ}
    (hj : j < t.capacity) : (t.setCtrl i c).ctrlAt j = if j = i then c else t.ctrlAt j := by
  have hlen := hI.ctrl_length
  simp only [ctrlAt, setCtrl]
  split_ifs with hik hji hji
  · subst hji
    rw [Lib.getD_set (by rw [List.length_set]; omega), if_neg (by omega),
      Lib.getD_set (by omega), if_pos rfl]
  · rw [Lib.getD_set (by rw [List.length_set]; omega), if_neg (by omega),
      Lib.getD_set (by omega), if_neg hji]
  · subst hji
    rw [Lib.getD_set (by omega), if_pos rfl]
  · rw [Lib.getD_set (by omega), if_neg hji]

theorem Inv.mirror_setCtrl (hI : t.Inv hash) {i : ℕ} (hi : i < t.capacity) (c : UInt8) {j : ℕ}
    (hj : j < kGroup) :
    (t.setCtrl i c).ctrlAt (t.capacity + j) = (t.setCtrl i c).ctrlAt j := by
  have hlen := hI.ctrl_length
  have hcap := hI.capacity_ge
  rw [hI.ctrlAt_setCtrl hi c (show j < t.capacity by omega), ← hI.mirror j hj]
  simp only [ctrlAt, setCtrl]
  split_ifs with hik hji hji
  · subst hji
    rw [Lib.getD_set (by rw [List.length_set]; omega), if_pos rfl]
  · rw [Lib.getD_set (by rw [List.length_set]; omega), if_neg (by omega),
      Lib.getD_set (by omega), if_neg (by omega)]
  · omega
  · rw [Lib.getD_set (by omega), if_neg (by omega)]

theorem length_setCtrl (i : ℕ) (c : UInt8) : (t.setCtrl i c).ctrl.length = t.ctrl.length := by
  simp only [setCtrl]
  split_ifs <;> simp

/-- What a write of control byte and slot at `i` leaves behind, whatever it
does to the counters. -/
structure Wrote (t t' : SwissTable κ α) (i : ℕ) (c : UInt8) (s : Slot κ α) : Prop where
  capacity : t'.capacity = t.capacity
  ctrl_length : t'.ctrl.length = t.ctrl.length
  slots_length : t'.slots.length = t.slots.length
  mirror : ∀ j < kGroup, t'.ctrlAt (t.capacity + j) = t'.ctrlAt j
  ctrlAt : ∀ j < t.capacity, t'.ctrlAt j = if j = i then c else t.ctrlAt j
  slotAt : ∀ j, t'.slotAt j = if j = i then s else t.slotAt j

theorem Inv.wrote (hI : t.Inv hash) {i : ℕ} (hi : i < t.capacity) (c : UInt8) (s : Slot κ α)
    (size tombstones : ℕ) :
    t.Wrote { (t.setCtrl i c).setSlot i s with size := size, tombstones := tombstones } i c s where
  capacity := rfl
  ctrl_length := length_setCtrl i c
  slots_length := by simp [setSlot, setCtrl]
  mirror j hj := hI.mirror_setCtrl hi c hj
  ctrlAt j hj := hI.ctrlAt_setCtrl hi c hj
  slotAt j := Lib.getD_set (by rw [show (t.setCtrl i c).slots = t.slots from rfl, hI.slots_length]; exact hi)

theorem Reach.mono {t' : SwissTable κ α} {k : κ} {i : ℕ} (hpos : 0 < t.capacity)
    (hcap : t'.capacity = t.capacity)
    (h : ∀ j < t.capacity, t.ctrlAt j ≠ kEmpty → t'.ctrlAt j ≠ kEmpty) (hr : t.Reach hash k i) :
    t'.Reach hash k i := by
  obtain ⟨d, hd, hi, hpre⟩ := hr
  refine ⟨d, by omega, by rw [hi, around, around, hcap], fun e he => ?_⟩
  rw [around, hcap]
  exact h _ (Nat.mod_lt _ hpos) (hpre e he)

theorem Wrote.reach {t' : SwissTable κ α} {i j : ℕ} {c : UInt8} {s : Slot κ α} {k : κ}
    (hw : t.Wrote t' i c s) (hpos : 0 < t.capacity) (hc : c ≠ kEmpty) (hr : t.Reach hash k j) :
    t'.Reach hash k j := by
  refine hr.mono hpos hw.capacity fun m hm hne => ?_
  rw [hw.ctrlAt m hm]
  split_ifs with h
  · exact hc
  · exact hne

theorem Wrote.fullSlots_full {t' : SwissTable κ α} {i : ℕ} {c : UInt8} {s : Slot κ α}
    (hw : t.Wrote t' i c s) (hi : i < t.capacity) (hc : isFull c = true) :
    t'.fullSlots = insert i t.fullSlots := by
  ext j
  simp only [fullSlots, hw.capacity, Finset.mem_filter, Finset.mem_range, Finset.mem_insert]
  by_cases hj : j < t.capacity
  · rw [hw.ctrlAt j hj]
    by_cases hji : j = i <;> simp [hji, hc, hj, hi]
  · simp only [hj, false_and, or_false, false_iff]
    omega

theorem Wrote.fullSlots_free {t' : SwissTable κ α} {i : ℕ} {c : UInt8} {s : Slot κ α}
    (hw : t.Wrote t' i c s) (hc : isFull c = false) : t'.fullSlots = t.fullSlots.erase i := by
  ext j
  simp only [fullSlots, hw.capacity, Finset.mem_filter, Finset.mem_range, Finset.mem_erase]
  by_cases hj : j < t.capacity
  · rw [hw.ctrlAt j hj]
    by_cases hji : j = i <;> simp [hji, hc, hj]
  · simp [hj]

theorem Wrote.deletedSlots_full {t' : SwissTable κ α} {i : ℕ} {c : UInt8} {s : Slot κ α}
    (hw : t.Wrote t' i c s) (hc : isFull c = true) : t'.deletedSlots = t.deletedSlots.erase i := by
  have hne : c ≠ kDeleted := by rintro rfl; cases hc
  ext j
  simp only [deletedSlots, hw.capacity, Finset.mem_filter, Finset.mem_range, Finset.mem_erase]
  by_cases hj : j < t.capacity
  · rw [hw.ctrlAt j hj]
    by_cases hji : j = i <;> simp [hji, hne, hj]
  · simp [hj]

theorem Wrote.deletedSlots_deleted {t' : SwissTable κ α} {i : ℕ} {s : Slot κ α}
    (hw : t.Wrote t' i kDeleted s) (hi : i < t.capacity) :
    t'.deletedSlots = insert i t.deletedSlots := by
  ext j
  simp only [deletedSlots, hw.capacity, Finset.mem_filter, Finset.mem_range, Finset.mem_insert]
  by_cases hj : j < t.capacity
  · rw [hw.ctrlAt j hj]
    by_cases hji : j = i <;> simp [hji, hj, hi]
  · simp only [hj, false_and, or_false, false_iff]
    omega

theorem mem_fullSlots {i : ℕ} : i ∈ t.fullSlots ↔ i < t.capacity ∧ isFull (t.ctrlAt i) = true := by
  simp [fullSlots]

theorem mem_deletedSlots {i : ℕ} : i ∈ t.deletedSlots ↔ i < t.capacity ∧ t.ctrlAt i = kDeleted := by
  simp [deletedSlots]

end Write

/-! The invariant through each kind of write. -/

section Preserve

variable {t : SwissTable κ α}

theorem Inv.wrote_put (hI : t.Inv hash) {i : ℕ} (hi : i < t.capacity) (k : κ) (v : α) :
    t.Wrote (t.put hash i k v) i (h2 (hash k)) ⟨k, v⟩ :=
  hI.wrote hi _ _ _ _

theorem holds_put (hI : t.Inv hash) {k : κ} {i : ℕ} (hfree : t.FreeAt hash k i) (v : α) (k' : κ)
    (v' : α) : (t.put hash i k v).Holds k' v' ↔ (k' = k ∧ v' = v) ∨ t.Holds k' v' := by
  obtain ⟨hi, hnf, -⟩ := hfree
  have hw := hI.wrote_put hi k v
  simp only [Holds, hw.capacity]
  constructor
  · rintro ⟨j, hj, hfull, hslot⟩
    rw [hw.ctrlAt j hj] at hfull
    rw [hw.slotAt j] at hslot
    by_cases hji : j = i
    · rw [if_pos hji, Slot.mk.injEq] at hslot
      exact Or.inl ⟨hslot.1.symm, hslot.2.symm⟩
    · rw [if_neg hji] at hfull hslot
      exact Or.inr ⟨j, hj, hfull, hslot⟩
  · rintro (⟨rfl, rfl⟩ | ⟨j, hj, hfull, hslot⟩)
    · exact ⟨i, hi, by rw [hw.ctrlAt i hi, if_pos rfl, isFull_h2], by rw [hw.slotAt i, if_pos rfl]⟩
    · have hji : j ≠ i := by rintro rfl; rw [hnf] at hfull; cases hfull
      exact ⟨j, hj, by rw [hw.ctrlAt j hj, if_neg hji, hfull], by rw [hw.slotAt j, if_neg hji, hslot]⟩

theorem Inv.put (hI : t.Inv hash) {k : κ} {i : ℕ} (hfree : t.FreeAt hash k i)
    (habs : ∀ v, ¬ t.Holds k v) (hload : t.size + t.tombstones + 1 ≤ t.growAt) (v : α) :
    (t.put hash i k v).Inv hash := by
  obtain ⟨hi, hnf, hreach⟩ := hfree
  have hw := hI.wrote_put hi k v
  have hkeys : ∀ j < t.capacity, isFull (t.ctrlAt j) = true → (t.slotAt j).key ≠ k :=
    fun j hj hfull hkey => habs (t.slotAt j).value ⟨j, hj, hfull, by rw [← hkey]⟩
  have hdel : (t.put hash i k v).tombstones = (t.put hash i k v).deletedSlots.card := by
    rw [hw.deletedSlots_full (isFull_h2 _)]
    simp only [SwissTable.put, hI.tombstones_eq]
    split_ifs with h
    · rw [Finset.card_erase_of_mem (mem_deletedSlots.2 ⟨hi, h⟩)]
    · rw [Finset.erase_eq_of_notMem (fun hm => h (mem_deletedSlots.1 hm).2)]
  refine ⟨hI.pow, by rw [hw.ctrl_length, hw.capacity, hI.ctrl_length],
    by rw [hw.slots_length, hw.capacity, hI.slots_length], hw.mirror, ?_, ?_, hdel, ?_, ?_, ?_, ?_⟩
  · intro j hj
    rw [hw.ctrlAt j hj]
    split_ifs with hji
    · exact Or.inr (Or.inr (isFull_h2 _))
    · exact hI.bytes j hj
  · have hnot : i ∉ t.fullSlots := fun hm => by
      have := (mem_fullSlots.1 hm).2
      rw [hnf] at this
      cases this
    rw [hw.fullSlots_full hi (isFull_h2 _), Finset.card_insert_of_notMem hnot, ← hI.size_eq]
    rfl
  · have : (t.put hash i k v).tombstones ≤ t.tombstones := by
      simp only [SwissTable.put]; split_ifs <;> omega
    have hsz : (t.put hash i k v).size = t.size + 1 := rfl
    have hg : (t.put hash i k v).growAt = t.growAt := rfl
    omega
  · intro j hj hfull
    rw [hw.ctrlAt j hj] at hfull ⊢
    rw [hw.slotAt j]
    by_cases hji : j = i
    · simp only [if_pos hji]
    · simp only [if_neg hji] at hfull ⊢
      exact hI.tag j hj hfull
  · intro j hj hfull
    rw [hw.ctrlAt j hj] at hfull
    rw [hw.slotAt j]
    have hne : h2 (hash k) ≠ kEmpty := by
      intro h
      have := isFull_h2 (hash k)
      rw [h] at this
      cases this
    by_cases hji : j = i
    · rw [if_pos hji, hji]
      exact hw.reach hI.capacity_pos hne hreach
    · rw [if_neg hji] at hfull ⊢
      exact hw.reach hI.capacity_pos hne (hI.reach j hj hfull)
  · intro j hj m hm hjf hmf
    rw [hw.ctrlAt j hj] at hjf
    rw [hw.ctrlAt m hm] at hmf
    rw [hw.slotAt j, hw.slotAt m]
    by_cases hji : j = i <;> by_cases hmi : m = i
    · intro _; rw [hji, hmi]
    · rw [if_pos hji, if_neg hmi]
      rw [if_neg hmi] at hmf
      exact fun h => absurd h.symm (hkeys m hm hmf)
    · rw [if_neg hji, if_pos hmi]
      rw [if_neg hji] at hjf
      exact fun h => absurd h (hkeys j hj hjf)
    · rw [if_neg hji, if_neg hmi]
      rw [if_neg hji] at hjf
      rw [if_neg hmi] at hmf
      exact hI.uniq j hj m hm hjf hmf

theorem Inv.eraseAt (hI : t.Inv hash) {i : ℕ} (hi : i < t.capacity)
    (hf : isFull (t.ctrlAt i) = true) : (t.eraseAt i).Inv hash := by
  have hw : t.Wrote (t.eraseAt i) i kDeleted default := hI.wrote hi _ _ _ _
  have hmem : i ∈ t.fullSlots := mem_fullSlots.2 ⟨hi, hf⟩
  have hpos : 0 < t.size := by rw [hI.size_eq]; exact Finset.card_pos.2 ⟨i, hmem⟩
  have hne : ∀ j < t.capacity, isFull ((t.eraseAt i).ctrlAt j) = true →
      j ≠ i ∧ isFull (t.ctrlAt j) = true := by
    intro j hj hfull
    rw [hw.ctrlAt j hj] at hfull
    by_cases hji : j = i
    · rw [if_pos hji] at hfull; cases hfull
    · rw [if_neg hji] at hfull; exact ⟨hji, hfull⟩
  refine ⟨hI.pow, by rw [hw.ctrl_length, hw.capacity, hI.ctrl_length],
    by rw [hw.slots_length, hw.capacity, hI.slots_length], hw.mirror, ?_, ?_, ?_, ?_, ?_, ?_, ?_⟩
  · intro j hj
    rw [hw.ctrlAt j hj]
    split_ifs with hji
    · exact Or.inr (Or.inl rfl)
    · exact hI.bytes j hj
  · rw [hw.fullSlots_free rfl, Finset.card_erase_of_mem hmem, ← hI.size_eq]
    rfl
  · have hnot : i ∉ t.deletedSlots := fun hm => by
      rw [(mem_deletedSlots.1 hm).2] at hf
      cases hf
    rw [hw.deletedSlots_deleted hi, Finset.card_insert_of_notMem hnot, ← hI.tombstones_eq]
    rfl
  · have hsz : (t.eraseAt i).size = t.size - 1 := rfl
    have htb : (t.eraseAt i).tombstones = t.tombstones + 1 := rfl
    have hg : (t.eraseAt i).growAt = t.growAt := rfl
    have := hI.load
    omega
  · intro j hj hfull
    obtain ⟨hji, hjf⟩ := hne j hj hfull
    rw [hw.ctrlAt j hj, hw.slotAt j, if_neg hji, if_neg hji]
    exact hI.tag j hj hjf
  · intro j hj hfull
    obtain ⟨hji, hjf⟩ := hne j hj hfull
    rw [hw.slotAt j, if_neg hji]
    exact hw.reach hI.capacity_pos (by decide) (hI.reach j hj hjf)
  · intro j hj m hm hjf hmf
    obtain ⟨hji, hjf⟩ := hne j hj hjf
    obtain ⟨hmi, hmf⟩ := hne m hm hmf
    rw [hw.slotAt j, hw.slotAt m, if_neg hji, if_neg hmi]
    exact hI.uniq j hj m hm hjf hmf

theorem holds_eraseAt (hI : t.Inv hash) {i : ℕ} (hi : i < t.capacity)
    (hf : isFull (t.ctrlAt i) = true) (k : κ) (v : α) :
    (t.eraseAt i).Holds k v ↔ k ≠ (t.slotAt i).key ∧ t.Holds k v := by
  have hw : t.Wrote (t.eraseAt i) i kDeleted default := hI.wrote hi _ _ _ _
  simp only [Holds, hw.capacity]
  constructor
  · rintro ⟨j, hj, hfull, hslot⟩
    rw [hw.ctrlAt j hj] at hfull
    rw [hw.slotAt j] at hslot
    by_cases hji : j = i
    · rw [if_pos hji] at hfull; cases hfull
    · rw [if_neg hji] at hfull hslot
      refine ⟨fun hk => hji (hI.uniq j hj i hi hfull hf ?_), j, hj, hfull, hslot⟩
      rw [hslot, hk]
  · rintro ⟨hk, j, hj, hfull, hslot⟩
    have hji : j ≠ i := by rintro rfl; exact hk (by rw [hslot])
    exact ⟨j, hj, by rw [hw.ctrlAt j hj, if_neg hji, hfull], by rw [hw.slotAt j, if_neg hji, hslot]⟩

/-- Overwriting the value of a full slot. -/
theorem Inv.setValue (hI : t.Inv hash) {i : ℕ} (hi : i < t.capacity) (v : α) :
    (t.setSlot i { t.slotAt i with value := v }).Inv hash ∧
    ∀ j, (t.setSlot i { t.slotAt i with value := v }).slotAt j =
      if j = i then { t.slotAt i with value := v } else t.slotAt j := by
  have hslot : ∀ j, (t.setSlot i { t.slotAt i with value := v }).slotAt j =
      if j = i then { t.slotAt i with value := v } else t.slotAt j := fun j =>
    Lib.getD_set (by rw [hI.slots_length]; exact hi)
  have hkey : ∀ j, ((t.setSlot i { t.slotAt i with value := v }).slotAt j).key = (t.slotAt j).key := by
    intro j
    rw [hslot j]
    split_ifs with h
    · rw [h]
    · rfl
  refine ⟨⟨hI.pow, hI.ctrl_length, by simpa [setSlot] using hI.slots_length, hI.mirror, hI.bytes,
    hI.size_eq, hI.tombstones_eq, hI.load, ?_, ?_, ?_⟩, hslot⟩
  · intro j hj hfull
    rw [hkey]
    exact hI.tag j hj hfull
  · intro j hj hfull
    rw [hkey]
    exact hI.reach j hj hfull
  · intro j hj m hm hjf hmf
    rw [hkey, hkey]
    exact hI.uniq j hj m hm hjf hmf

theorem Inv.holds_unique (hI : t.Inv hash) {k : κ} {v v' : α} (h : t.Holds k v)
    (h' : t.Holds k v') : v = v' := by
  obtain ⟨i, hi, hfi, hsi⟩ := h
  obtain ⟨j, hj, hfj, hsj⟩ := h'
  have hij := hI.uniq i hi j hj hfi hfj (by rw [hsi, hsj])
  subst hij
  rw [hsi] at hsj
  injection hsj

theorem holds_setValue (hI : t.Inv hash) {i : ℕ} (hi : i < t.capacity)
    (hf : isFull (t.ctrlAt i) = true) (v : α) (k : κ) (v' : α) :
    (t.setSlot i { t.slotAt i with value := v }).Holds k v' ↔
      if k = (t.slotAt i).key then v' = v else t.Holds k v' := by
  have hslot := (hI.setValue hi v).2
  have hcap : (t.setSlot i { t.slotAt i with value := v }).capacity = t.capacity := rfl
  have hctrl : ∀ j, (t.setSlot i { t.slotAt i with value := v }).ctrlAt j = t.ctrlAt j := fun _ => rfl
  simp only [Holds, hcap, hctrl, hslot]
  constructor
  · rintro ⟨j, hj, hfull, hs⟩
    by_cases hji : j = i
    · rw [if_pos hji, Slot.mk.injEq] at hs
      rw [if_pos hs.1.symm]
      exact hs.2.symm
    · rw [if_neg hji] at hs
      rw [if_neg fun hk => hji (hI.uniq j hj i hi hfull hf (by rw [hs, hk]))]
      exact ⟨j, hj, hfull, hs⟩
  · split_ifs with hk
    · rintro rfl
      exact ⟨i, hi, hf, by rw [if_pos rfl, hk]⟩
    · rintro ⟨j, hj, hfull, hs⟩
      refine ⟨j, hj, hfull, ?_⟩
      rw [if_neg, hs]
      rintro rfl
      exact hk (by rw [hs])

end Preserve

end BlazeKV.SwissTable
