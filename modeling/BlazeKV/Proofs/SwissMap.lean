import BlazeKV.Lib.Machine
import BlazeKV.Proofs.SwissOps
import Mathlib.Data.Set.Card

/-! The table over any sequence of calls is a finite map: the abstract state is
the partial function that the calls describe. -/

set_option linter.unusedSectionVars false

namespace BlazeKV.SwissTable

variable {κ α : Type} [DecidableEq κ] [Inhabited κ] [Inhabited α]

inductive Op (κ α : Type) where
  | insertOrAssign (k : κ) (v : α)
  | erase (k : κ)
  | find (k : κ)
  | reserve (n : ℕ)
  | clear

inductive Ret (α : Type) where
  | inserted (b : Bool)
  | erased (b : Bool)
  | value (r : Option α)
  | unit

def exec (G : GroupOps) (hash : κ → ℕ) (t : SwissTable κ α) :
    Op κ α → Option (SwissTable κ α × Ret α)
  | .insertOrAssign k v => (t.insertOrAssign G hash k v).map fun r => (r.1, .inserted r.2)
  | .erase k => (t.erase G hash k).map fun r => (r.1, .erased r.2)
  | .find k => (t.find G hash k).map fun r => (t, .value r)
  | .reserve n => (t.reserve G hash n).map fun t => (t, .unit)
  | .clear => some (t.clear, .unit)

/-- The same calls on a partial function. -/
def mapExec (m : κ → Option α) : Op κ α → (κ → Option α) × Ret α
  | .insertOrAssign k v => (Function.update m k (some v), .inserted (m k).isNone)
  | .erase k => (Function.update m k none, .erased (m k).isSome)
  | .find k => (m, .value (m k))
  | .reserve _ => (m, .unit)
  | .clear => (fun _ => none, .unit)

/-- The table is well formed and holds exactly the entries of the map. -/
structure Represents (hash : κ → ℕ) (t : SwissTable κ α) (m : κ → Option α) : Prop where
  inv : t.Inv hash
  holds : ∀ k v, t.Holds k v ↔ m k = some v

variable {G : GroupOps} {hash : κ → ℕ} {t : SwissTable κ α} {m : κ → Option α}

theorem Represents.isNone_iff (h : t.Represents hash m) (k : κ) :
    (m k).isNone = true ↔ ∀ v, ¬ t.Holds k v := by
  simp only [h.holds, Option.isNone_iff_eq_none, Option.eq_none_iff_forall_ne_some, ne_eq]

theorem Represents.isSome_iff (h : t.Represents hash m) (k : κ) :
    (m k).isSome = true ↔ ∃ v, t.Holds k v := by
  simp only [h.holds, Option.isSome_iff_exists]

theorem represents_new : (new : SwissTable κ α).Represents hash fun _ => none :=
  ⟨inv_new, fun k v => by simpa [new] using not_holds_fresh kGroup k v⟩

/-- The size counts the present keys. -/
theorem Represents.size_eq (h : t.Represents hash m) : t.size = {k | m k ≠ none}.ncard := by
  have hset : {k | m k ≠ none} = ((t.forEach.map Prod.fst).toFinset : Set κ) := by
    ext k
    simp only [Set.mem_ofPred_eq, Option.ne_none_iff_exists', List.coe_toFinset, List.mem_map,
      Prod.exists, exists_and_right, exists_eq_right, mem_forEach, h.holds]
  rw [hset, Set.ncard_coe_finset, List.toFinset_card_of_nodup h.inv.forEach_nodup,
    List.length_map, h.inv.forEach_length]

theorem exec_refines : Lib.StepRefines (Represents hash) (exec G hash) (mapExec (κ := κ) (α := α))
    fun _ _ => True := by
  intro t m op h _
  cases op with
  | insertOrAssign k v =>
    obtain ⟨t', b, he, hI, hb, hh⟩ := h.inv.insertOrAssign_spec (G := G) k v
    have : (m k).isNone = b := by rw [Bool.eq_iff_iff, h.isNone_iff, hb]
    refine ⟨t', by simp [exec, he, mapExec, this], hI, fun k' v' => ?_⟩
    simp only [hh, mapExec, Function.update_apply]
    split_ifs
    · rw [Option.some.injEq, eq_comm]
    · exact h.holds k' v'
  | erase k =>
    obtain ⟨t', b, he, hI, hb, hh⟩ := h.inv.erase_spec (G := G) k
    have : (m k).isSome = b := by rw [Bool.eq_iff_iff, h.isSome_iff, hb]
    refine ⟨t', by simp [exec, he, mapExec, this], hI, fun k' v' => ?_⟩
    simp only [hh, mapExec, Function.update_apply, h.holds]
    split_ifs with hk <;> simp [hk]
  | find k =>
    obtain ⟨r, he, hr⟩ := h.inv.find_spec (G := G) k
    have : r = m k := Option.ext fun v => by rw [hr, h.holds]
    exact ⟨t, by simp [exec, he, mapExec, this], h⟩
  | reserve n =>
    obtain ⟨t', he, hI, hh⟩ := h.inv.reserve_spec (G := G) n
    exact ⟨t', by simp [exec, he, mapExec], hI, fun k v => by rw [hh, h.holds, mapExec]⟩
  | clear => exact ⟨t.clear, rfl, h.inv.clear, fun k v => by simpa [mapExec] using not_holds_clear k v⟩

/-- A run with two colliding keys, evaluated. -/
example : ((Lib.run (exec .scalar fun _ => 5) (new : SwissTable ℕ ℕ)
    [.insertOrAssign 1 10, .insertOrAssign 2 20, .erase 1, .insertOrAssign 2 21]).map
      fun r => (r.1.forEach, r.1.tombstones)) = some ([(2, 21)], 1) := by decide

end BlazeKV.SwissTable
