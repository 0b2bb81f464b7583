import Mathlib.Data.List.Sort
import Mathlib.Order.Basic

/-! The elements of a list by their rank, and counting them from below. -/

namespace BlazeKV.Lib

variable {α : Type} [LinearOrder α]

/-- The element of rank `k`, the smallest one being that of rank 1. -/
def ranked [Inhabited α] (xs : List α) (k : ℕ) : α := (xs.mergeSort (· ≤ ·)).getD (k - 1) default

theorem lt_countP_iff {p : α → Bool} (hp : ∀ a b, a ≤ b → p b = true → p a = true) {s : List α}
    (hs : s.Pairwise (· ≤ ·)) {k : ℕ} (hk : k < s.length) : k < s.countP p ↔ p s[k] = true := by
  induction s generalizing k with
  | nil => exact absurd hk (Nat.not_lt_zero k)
  | cons a s ih =>
    obtain ⟨ha, hs⟩ := List.pairwise_cons.1 hs
    cases hpa : p a with
    | true =>
      rw [List.countP_cons_of_pos hpa]
      cases k with
      | zero => simp [hpa]
      | succ k =>
        rw [Nat.succ_lt_succ_iff, ih hs (by simpa using hk)]
        rfl
    | false =>
      -- Nothing above `a` is counted either.
      have hnone : ∀ b ∈ a :: s, ¬p b = true := by
        intro b hb hpb
        rcases List.mem_cons.1 hb with rfl | hb
        · rw [hpa] at hpb
          cases hpb
        · rw [hp a b (ha b hb) hpb] at hpa
          cases hpa
      rw [List.countP_eq_zero.2 hnone]
      exact iff_of_false (Nat.not_lt_zero k) (hnone _ (List.getElem_mem hk))

/-- At least `k` elements are in a set closed downwards exactly when the one of rank `k` is. -/
theorem le_countP_iff [Inhabited α] {p : α → Bool} (hp : ∀ a b, a ≤ b → p b = true → p a = true)
    {xs : List α} {k : ℕ}
    (h1 : 1 ≤ k) (hk : k ≤ xs.length) : k ≤ xs.countP p ↔ p (ranked xs k) = true := by
  have hperm := List.mergeSort_perm xs (· ≤ ·)
  have hsorted : (xs.mergeSort (· ≤ ·)).Pairwise (· ≤ ·) := by
    have htrans : ∀ a b c : α, decide (a ≤ b) = true → decide (b ≤ c) = true →
      decide (a ≤ c) = true := by
      simpa using fun a b c => le_trans
    have htotal : ∀ a b : α, (decide (a ≤ b) || decide (b ≤ a)) = true := by simpa using le_total
    simpa using List.pairwise_mergeSort htrans htotal xs
  have hlt : k - 1 < (xs.mergeSort (· ≤ ·)).length := by
    rw [hperm.length_eq]
    omega
  have hmem : ranked xs k = (xs.mergeSort (· ≤ ·))[k - 1] := by
    rw [ranked, List.getD_eq_getElem?_getD, List.getElem?_eq_getElem hlt, Option.getD_some]
  rw [hmem, ← lt_countP_iff hp hsorted hlt, hperm.countP_eq]
  omega

theorem ranked_mem [Inhabited α] {xs : List α} {k : ℕ} (h1 : 1 ≤ k) (hk : k ≤ xs.length) :
    ranked xs k ∈ xs := by
  have hperm := List.mergeSort_perm xs (· ≤ ·)
  have hlt : k - 1 < (xs.mergeSort (· ≤ ·)).length := by
    rw [hperm.length_eq]
    omega
  rw [ranked, List.getD_eq_getElem?_getD, List.getElem?_eq_getElem hlt, Option.getD_some]
  exact hperm.mem_iff.1 (List.getElem_mem hlt)

end BlazeKV.Lib
