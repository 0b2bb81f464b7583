import BlazeKV.Proofs.SwissWrite

/-! Whole operations of the table: each ends, keeps the invariant and changes
the held entries as a finite map does. -/

set_option linter.unusedSectionVars false

namespace BlazeKV.SwissTable

variable {κ α : Type} [DecidableEq κ] [Inhabited κ] [Inhabited α]
variable {G : GroupOps} {hash : κ → ℕ}

section Operations

variable {t : SwissTable κ α}

theorem ctrlAt_fresh (n i : ℕ) : (fresh n : SwissTable κ α).ctrlAt i = kEmpty := by
  simp only [ctrlAt, fresh, List.getD_eq_getElem?_getD, List.getElem?_replicate]
  split_ifs <;> rfl

theorem not_holds_fresh (n : ℕ) (k : κ) (v : α) : ¬ (fresh n : SwissTable κ α).Holds k v := by
  rintro ⟨i, -, hf, -⟩
  rw [ctrlAt_fresh] at hf
  cases hf

theorem inv_fresh {n : ℕ} (hn : ∃ e, n = 2 ^ (e + 4)) : (fresh n : SwissTable κ α).Inv hash where
  pow := hn
  ctrl_length := by simp [fresh]
  slots_length := by simp [fresh]
  mirror i _ := by rw [ctrlAt_fresh, ctrlAt_fresh]
  bytes i _ := Or.inl (ctrlAt_fresh n i)
  size_eq := by simp [fullSlots, ctrlAt_fresh]; rfl
  tombstones_eq := by
    have : ¬ kEmpty = kDeleted := by decide
    simp [deletedSlots, ctrlAt_fresh, this]; rfl
  load := Nat.zero_le _
  tag i _ hf := by rw [ctrlAt_fresh] at hf; cases hf
  reach i _ hf := by rw [ctrlAt_fresh] at hf; cases hf
  uniq i _ j _ hf := by rw [ctrlAt_fresh] at hf; cases hf

theorem inv_new : (new : SwissTable κ α).Inv hash := inv_fresh ⟨0, rfl⟩

theorem Inv.clear (hI : t.Inv hash) : t.clear.Inv hash := inv_fresh hI.pow

theorem not_holds_clear (k : κ) (v : α) : ¬ t.clear.Holds k v := not_holds_fresh t.capacity k v

theorem mem_forEach (k : κ) (v : α) : (k, v) ∈ t.forEach ↔ t.Holds k v := by
  simp only [forEach, List.mem_map, List.mem_filter, List.mem_range, Holds]
  constructor
  · rintro ⟨i, ⟨hi, hf⟩, he⟩
    refine ⟨i, hi, hf, ?_⟩
    rw [Prod.mk.injEq] at he
    rw [← he.1, ← he.2]
  · rintro ⟨i, hi, hf, hs⟩
    exact ⟨i, ⟨hi, hf⟩, by rw [hs]⟩

theorem Inv.forEach_nodup (hI : t.Inv hash) : (t.forEach.map Prod.fst).Nodup := by
  rw [forEach, List.map_map]
  refine List.Nodup.map_on ?_ (List.nodup_range.filter _)
  intro i hi j hj hk
  simp only [List.mem_filter, List.mem_range] at hi hj
  exact hI.uniq i hi.1 j hj.1 hi.2 hj.2 hk

theorem Inv.forEach_length (hI : t.Inv hash) : t.forEach.length = t.size := by
  have hset : t.fullSlots = ((List.range t.capacity).filter fun i => isFull (t.ctrlAt i)).toFinset := by
    ext i
    simp [fullSlots]
  rw [forEach, List.length_map, hI.size_eq, hset,
    List.toFinset_card_of_nodup (List.nodup_range.filter _)]

theorem Inv.insertMoved_spec (hI : t.Inv hash) (htb : t.tombstones = 0) {k : κ}
    (habs : ∀ v, ¬ t.Holds k v) (hload : t.size + 1 ≤ t.growAt) (v : α) :
    ∃ t', t.insertMoved G hash k v = some t' ∧ t'.Inv hash ∧ t'.tombstones = 0 ∧
      t'.capacity = t.capacity ∧ t'.size = t.size + 1 ∧
      ∀ k' v', t'.Holds k' v' ↔ (k' = k ∧ v' = v) ∨ t.Holds k' v' := by
  obtain ⟨i, hi, hfree⟩ := hI.insertMovedLoop_spec (G := G) k _ 0 (Nat.zero_add _) (by simp)
  have hput : (t.put hash i k v) =
      { (t.setCtrl i (h2 (hash k))).setSlot i ⟨k, v⟩ with size := t.size + 1 } := by
    simp only [SwissTable.put, htb, Nat.zero_sub, ite_self]
    rw [← htb]
    rfl
  refine ⟨t.put hash i k v, ?_, hI.put hfree habs (by omega) v, ?_, rfl, rfl, holds_put hI hfree v⟩
  · rw [insertMoved, hI.home_pos, hi, hput]
    rfl
  · simp only [SwissTable.put, htb, Nat.zero_sub, ite_self]

theorem foldlM_insertMoved (l : List (κ × α)) (hI : t.Inv hash) (htb : t.tombstones = 0)
    (hnd : (l.map Prod.fst).Nodup) (habs : ∀ e ∈ l, ∀ v, ¬ t.Holds e.1 v)
    (hload : t.size + l.length ≤ t.growAt) :
    ∃ t', l.foldlM (fun t' e => t'.insertMoved G hash e.1 e.2) t = some t' ∧ t'.Inv hash ∧
      t'.tombstones = 0 ∧ t'.capacity = t.capacity ∧ t'.size = t.size + l.length ∧
      ∀ k v, t'.Holds k v ↔ (k, v) ∈ l ∨ t.Holds k v := by
  induction l generalizing t with
  | nil => exact ⟨t, rfl, hI, htb, rfl, rfl, by simp⟩
  | cons e l ih =>
    rw [List.map_cons, List.nodup_cons] at hnd
    rw [List.length_cons] at hload
    obtain ⟨t1, h1, hI1, htb1, hcap1, hsz1, hh1⟩ :=
      hI.insertMoved_spec (G := G) htb (habs e (by simp)) (by omega) e.2
    have hg : t1.growAt = t.growAt := by rw [growAt, growAt, hcap1]
    obtain ⟨t2, h2, hI2, htb2, hcap2, hsz2, hh2⟩ := ih hI1 htb1 hnd.2 (by
      intro e' he' v hv
      rcases (hh1 _ _).1 hv with ⟨hk, -⟩ | hv
      · exact hnd.1 (hk ▸ List.mem_map_of_mem he')
      · exact habs e' (by simp [he']) v hv) (by omega)
    refine ⟨t2, by rw [List.foldlM_cons, h1]; exact h2, hI2, htb2, by rw [hcap2, hcap1],
      by rw [hsz2, hsz1, List.length_cons]; omega, fun k v => ?_⟩
    rw [hh2, hh1, List.mem_cons, show (k, v) = e ↔ k = e.1 ∧ v = e.2 from Prod.ext_iff]
    tauto

theorem Inv.rehash_spec (hI : t.Inv hash) {n : ℕ} (hn : ∃ e, n = 2 ^ (e + 4))
    (hload : t.size ≤ n * 7 / 8) :
    ∃ t', t.rehash G hash n = some t' ∧ t'.Inv hash ∧ t'.tombstones = 0 ∧ t'.capacity = n ∧
      t'.size = t.size ∧ ∀ k v, t'.Holds k v ↔ t.Holds k v := by
  obtain ⟨t', h, hI', htb, hcap, hsz, hh⟩ := foldlM_insertMoved (G := G) t.forEach
    (show (fresh n).Inv hash from inv_fresh hn) rfl hI.forEach_nodup
    (fun e _ v => not_holds_fresh n e.1 v)
    (by rw [hI.forEach_length]; exact (Nat.zero_add _).trans_le hload)
  refine ⟨t', h, hI', htb, hcap, ?_, fun k v => ?_⟩
  · rw [hsz, hI.forEach_length]
    exact Nat.zero_add _
  · rw [hh, mem_forEach]
    simp only [not_holds_fresh, or_false]

theorem Inv.makeRoom_spec (hI : t.Inv hash) :
    ∃ t', t.makeRoom G hash = some t' ∧ t'.Inv hash ∧ t'.size + t'.tombstones + 1 ≤ t'.growAt ∧
      ∀ k v, t'.Holds k v ↔ t.Holds k v := by
  have hcap := hI.capacity_ge
  have hload := hI.load
  obtain ⟨e, he⟩ := hI.pow
  simp only [kGroup] at hcap
  simp only [growAt] at hload
  simp only [makeRoom, growAt]
  by_cases h1 : t.size + 1 > t.capacity * 7 / 8
  · obtain ⟨t', h, hI', htb, hc, hsz, hh⟩ := hI.rehash_spec (G := G) (n := t.capacity * 2)
      ⟨e + 1, by rw [he]; ring⟩ (by omega)
    exact ⟨t', by simp only [h1, if_true, h], hI', by rw [htb, hsz, hc]; omega, hh⟩
  by_cases h2 : t.size + t.tombstones + 1 > t.capacity * 7 / 8
  · obtain ⟨t', h, hI', htb, hc, hsz, hh⟩ := hI.rehash_spec (G := G) (n := t.capacity)
      hI.pow (by omega)
    exact ⟨t', by simp only [h1, if_false, h2, if_true, h], hI', by rw [htb, hsz, hc]; omega, hh⟩
  · exact ⟨t, by simp only [h1, if_false, h2], hI, by omega, fun _ _ => Iff.rfl⟩

theorem Inv.find_spec (hI : t.Inv hash) (k : κ) :
    ∃ r, t.find G hash k = some r ∧ ∀ v, r = some v ↔ t.Holds k v := by
  rcases hI.findSlot_spec (G := G) k with ⟨i, hi, h, hf, hk⟩ | ⟨h, habs⟩
  · have hh : t.Holds k (t.slotAt i).value := ⟨i, hi, hf, by rw [← hk]⟩
    refine ⟨some (t.slotAt i).value, by rw [find, h]; rfl, fun v => ?_⟩
    rw [Option.some.injEq]
    exact ⟨fun hv => hv ▸ hh, fun hv => hI.holds_unique hh hv⟩
  · exact ⟨none, by rw [find, h]; rfl, fun v => by simpa using habs v⟩

theorem Inv.insertOrAssign_spec (hI : t.Inv hash) (k : κ) (v : α) :
    ∃ t' b, t.insertOrAssign G hash k v = some (t', b) ∧ t'.Inv hash ∧
      (b = true ↔ ∀ v', ¬ t.Holds k v') ∧
      ∀ k' v', t'.Holds k' v' ↔ if k' = k then v' = v else t.Holds k' v' := by
  obtain ⟨t1, h1, hI1, hload, hh⟩ := hI.makeRoom_spec (G := G)
  rcases hI1.insertLoop_spec (G := G) k _ 0 none (Nat.zero_add _) (by simp) (by simp)
    (by simp) with ⟨i, hi, h, hf, hk⟩ | ⟨i, h, hfree, habs⟩
  · refine ⟨_, false, ?_, (hI1.setValue hi v).1, ?_, fun k' v' => ?_⟩
    · rw [insertOrAssign, h1]
      simp only [Option.bind_eq_bind, Option.bind_some, hI1.home_pos, h]
    · have : t.Holds k (t1.slotAt i).value := (hh _ _).1 ⟨i, hi, hf, by rw [← hk]⟩
      simp only [Bool.false_eq_true, false_iff]
      exact fun hno => hno _ this
    · rw [holds_setValue hI1 hi hf, hk, hh]
  · refine ⟨t1.put hash i k v, true, ?_, hI1.put hfree habs hload v, ?_, fun k' v' => ?_⟩
    · rw [insertOrAssign, h1]
      simp only [Option.bind_eq_bind, Option.bind_some, hI1.home_pos, h]
    · simpa only [true_iff, hh] using habs
    · rw [holds_put hI1 hfree, hh]
      split_ifs with hk
      · subst hk
        simp only [true_and, or_iff_left_iff_imp]
        exact fun hv => absurd hv (by rw [← hh]; exact habs v')
      · simp only [hk, false_and, false_or]

theorem Inv.erase_spec (hI : t.Inv hash) (k : κ) :
    ∃ t' b, t.erase G hash k = some (t', b) ∧ t'.Inv hash ∧
      (b = true ↔ ∃ v, t.Holds k v) ∧ ∀ k' v', t'.Holds k' v' ↔ k' ≠ k ∧ t.Holds k' v' := by
  rcases hI.findSlot_spec (G := G) k with ⟨i, hi, h, hf, hk⟩ | ⟨h, habs⟩
  · refine ⟨t.eraseAt i, true, by rw [erase, h]; rfl, hI.eraseAt hi hf, ?_, fun k' v' => ?_⟩
    · simp only [true_iff]
      exact ⟨_, i, hi, hf, by rw [← hk]⟩
    · rw [holds_eraseAt hI hi hf, hk]
  · refine ⟨t, false, by rw [erase, h]; rfl, hI, by simpa using habs, fun k' v' => ?_⟩
    refine ⟨fun hv => ⟨?_, hv⟩, fun hv => hv.2⟩
    rintro rfl
    exact habs v' hv

theorem reserveLoop_pow (n fuel e : ℕ) : ∃ e', reserveLoop n fuel (2 ^ e) = 2 ^ e' := by
  induction fuel generalizing e with
  | zero => exact ⟨e, rfl⟩
  | succ fuel ih =>
    rw [reserveLoop]
    split_ifs
    · rw [← pow_succ]; exact ih (e + 1)
    · exact ⟨e, rfl⟩

/-- The fuel of the model covers every doubling that the source makes. -/
theorem le_reserveLoop (n fuel need : ℕ) (hneed : 8 ≤ need) (hf : n ≤ need * 7 / 8 + fuel) :
    n ≤ reserveLoop n fuel need * 7 / 8 := by
  induction fuel generalizing need with
  | zero => simpa [reserveLoop] using hf
  | succ fuel ih =>
    rw [reserveLoop]
    split_ifs with h
    · exact ih (need * 2) (by omega) (by omega)
    · omega

theorem Inv.reserve_spec (hI : t.Inv hash) (n : ℕ) :
    ∃ t', t.reserve G hash n = some t' ∧ t'.Inv hash ∧ ∀ k v, t'.Holds k v ↔ t.Holds k v := by
  obtain ⟨m, hm⟩ := reserveLoop_pow n n 3
  have hm8 : reserveLoop n n 8 = 2 ^ m := hm
  simp only [reserve, hm8]
  by_cases hgt : 2 ^ m > t.capacity
  · have hcap := hI.capacity_ge
    have h4 : 4 ≤ m := by
      by_contra h
      have := Nat.pow_le_pow_right (n := 2) (by decide) (show m ≤ 3 by omega)
      simp only [kGroup] at hcap
      omega
    have hload := hI.load
    simp only [growAt] at hload
    obtain ⟨t', h, hI', -, -, -, hh⟩ := hI.rehash_spec (G := G) (n := 2 ^ m)
      ⟨m - 4, by rw [Nat.sub_add_cancel h4]⟩ (by omega)
    exact ⟨t', by simp only [hgt, if_true, h], hI', hh⟩
  · exact ⟨t, by simp only [hgt, if_false], hI, fun _ _ => Iff.rfl⟩

end Operations

end BlazeKV.SwissTable
