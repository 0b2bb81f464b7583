import BlazeKV.Proofs.SwissMap

/-! What holds of the arrays in every reachable state: the counters, the mirrored tail,
reads in bounds, and probes that end within one tour of the groups. A table that is being
rebuilt by `rehash` is among the states. -/

set_option linter.unusedSectionVars false

namespace BlazeKV.SwissTable

variable {κ α : Type} [DecidableEq κ] [Inhabited κ] [Inhabited α]

/-- Where the probe for a hash reads its group number `j`. -/
def readPos (t : SwissTable κ α) (h : ℕ) : ℕ → ℕ
  | 0 => h1 h &&& t.mask
  | j + 1 => (t.readPos h j + kGroup) &&& t.mask

/-- The arrays of a table and its probes. -/
structure Sound (G : GroupOps) (hash : κ → ℕ) (t : SwissTable κ α) : Prop where
  pow : ∃ e, t.capacity = 2 ^ e
  least : kGroup ≤ t.capacity
  size : t.size = ((List.range t.capacity).filter fun i => isFull (t.ctrlAt i)).length
  tombstones : t.tombstones = ((List.range t.capacity).filter fun i => t.ctrlAt i = kDeleted).length
  load : t.size + t.tombstones ≤ t.capacity * 7 / 8
  tail : t.ctrl.length = t.capacity + kGroup ∧ ∀ i < kGroup, t.ctrlAt (t.capacity + i) = t.ctrlAt i
  reads : ∀ h j, t.readPos h j + kGroup ≤ t.ctrl.length
  slots : ∀ h j l, (t.readPos h j + l) &&& t.mask < t.slots.length
  finds : ∀ k, (t.findLoop G (h2 (hash k)) k (t.capacity / kGroup) (t.readPos (hash k) 0)).isSome
  inserts : ∀ k, (t.insertLoop G (h2 (hash k)) k (t.capacity / kGroup) (t.readPos (hash k) 0) none).isSome
  moves : ∀ k, (t.insertMovedLoop G (t.capacity / kGroup) (t.readPos (hash k) 0)).isSome

variable {G : GroupOps} {hash : κ → ℕ} {t : SwissTable κ α}

theorem Inv.readPos_lt (hI : t.Inv hash) (h j : ℕ) : t.readPos h j < t.capacity := by
  cases j <;> rw [readPos, hI.and_mask] <;> exact Nat.mod_lt _ hI.capacity_pos

theorem card_filter_range (n : ℕ) (p : ℕ → Bool) :
    ((Finset.range n).filter fun i => p i = true).card = ((List.range n).filter p).length := by
  rw [← List.toFinset_card_of_nodup (List.nodup_range.filter _)]
  congr 1
  ext i
  simp

theorem Inv.sound (hI : t.Inv hash) : t.Sound G hash where
  pow := hI.pow.imp' (· + 4) fun _ h => h
  least := hI.capacity_ge
  size := hI.size_eq.trans (card_filter_range _ _)
  tombstones := by
    have := card_filter_range t.capacity fun i => decide (t.ctrlAt i = kDeleted)
    simp only [decide_eq_true_eq] at this
    exact hI.tombstones_eq.trans this
  load := hI.load
  tail := ⟨hI.ctrl_length, hI.mirror⟩
  reads h j := by
    have := hI.readPos_lt h j
    rw [hI.ctrl_length]
    omega
  slots h j l := by
    rw [hI.and_mask, hI.slots_length]
    exact Nat.mod_lt _ hI.capacity_pos
  finds k := by
    rw [readPos, hI.home_pos]
    rcases hI.findLoop_spec (G := G) k (t.capacity / kGroup) 0 (by simp) (by simp) (by simp) with ⟨i, -, h, -⟩ | ⟨h, -⟩ <;>
      rw [h] <;> rfl
  inserts k := by
    rw [readPos, hI.home_pos]
    rcases hI.insertLoop_spec (G := G) k (t.capacity / kGroup) 0 none (by simp) (by simp) (by simp) (by simp) with
      ⟨i, -, h, -⟩ | ⟨i, h, -⟩ <;> rw [h] <;> rfl
  moves k := by
    obtain ⟨i, h, -⟩ := hI.insertMovedLoop_spec (G := G) k (t.capacity / kGroup) 0 (by simp) (by simp)
    rw [readPos, hI.home_pos, h]
    rfl

end BlazeKV.SwissTable
