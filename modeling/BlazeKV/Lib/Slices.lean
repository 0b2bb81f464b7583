import Mathlib.Data.List.Basic
import Mathlib.Data.Int.Order.Basic

/-! Part of a list, by the indexes of its first and last element. -/

namespace BlazeKV.Lib

/-- A negative index counts from the end. -/
def index (len i : ℤ) : ℤ := if i < 0 then len + i else i

/-- The elements from `start` to `stop`, both included. -/
def slice {α : Type} (xs : List α) (start stop : ℤ) : List α :=
  (xs.zipIdx.filter fun p => index xs.length start ≤ p.2 ∧ (p.2 : ℤ) ≤ index xs.length stop).map Prod.fst

example : slice [10, 11, 12, 13] (-3) (-2) = [11, 12] := by decide

section Slices

variable {α : Type} (xs : List α)

theorem filter_zipIdx (k a b : ℕ) :
    ((xs.zipIdx k).filter fun p => a ≤ p.2 ∧ p.2 < b).map Prod.fst = (xs.drop (a - k)).take (b - max a k) := by
  induction xs generalizing k with
  | nil => simp
  | cons x xs ih =>
    rw [List.zipIdx_cons, List.filter_cons]
    by_cases hk : a ≤ k ∧ k < b
    · have hdrop : a - k = 0 ∧ a - (k + 1) = 0 := by omega
      have htake : b - max a k = b - max a (k + 1) + 1 := by omega
      rw [if_pos (by simpa using hk), List.map_cons, ih, hdrop.1, hdrop.2, htake]
      rfl
    · rw [if_neg (by simpa using hk), ih]
      rcases Nat.lt_or_ge k a with h | h
      · have hdrop : a - k = a - (k + 1) + 1 := by omega
        have htake : b - max a k = b - max a (k + 1) := by omega
        rw [hdrop, htake, List.drop_succ_cons]
      · have htake : b - max a k = 0 ∧ b - max a (k + 1) = 0 := by omega
        rw [htake.1, htake.2, List.take_zero, List.take_zero]

theorem slice_eq (start stop : ℤ) : slice xs start stop =
    (xs.drop (index xs.length start).toNat).take ((index xs.length stop + 1).toNat - (index xs.length start).toNat) := by
  have h := filter_zipIdx xs 0 (index xs.length start).toNat (index xs.length stop + 1).toNat
  rw [Nat.sub_zero, Nat.max_zero] at h
  rw [slice, ← h]
  congr 2
  funext p
  rw [decide_eq_decide]
  omega

/-- What is written for the elements at some places in a row. -/
theorem flatMap_range' {β : Type} (f : α → List β) (a n : ℕ) (h : a + n ≤ xs.length) :
    (List.range' a n).flatMap (fun i => xs[i]?.elim [] f) = ((xs.drop a).take n).flatMap f := by
  induction n generalizing a with
  | zero => simp
  | succ n ih =>
    rw [List.range'_succ, List.flatMap_cons, ih (a + 1) (by omega), List.getElem?_eq_getElem (by omega),
      List.drop_eq_getElem_cons (show a < xs.length by omega)]
    rfl

end Slices

end BlazeKV.Lib
