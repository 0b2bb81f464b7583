import Mathlib.Data.Finset.Lattice.Fold
import Mathlib.Data.List.GetD

/-! The highest element of each slot, as a row that remembers nothing else of the elements it has seen. -/

namespace BlazeKV.Lib

variable {α E : Type} [LinearOrder α] [OrderBot α]

/-- One element: the row, and whether it has changed. -/
def raise (row : List α) (i : ℕ) (h : α) : List α × Bool := if row.getD i ⊥ < h then (row.set i h, true) else (row, false)

variable (n : ℕ) (slot : E → ℕ) (height : E → α)

def peak (S : Finset E) (i : ℕ) : α := (S.filter fun x => slot x = i).sup height

def peaks (S : Finset E) : List α := (List.range n).map (peak slot height S)

variable {S T : Finset E} {x : E} {i : ℕ}

theorem length_peaks : (peaks n slot height S).length = n := by rw [peaks, List.length_map, List.length_range]

theorem getElem_peaks (hi : i < (peaks n slot height S).length) : (peaks n slot height S)[i] = peak slot height S i := by
  simp only [peaks, List.getElem_map, List.getElem_range]

theorem peaks_empty : peaks n slot height ∅ = List.replicate n ⊥ := by
  refine List.ext_getElem (by rw [length_peaks, List.length_replicate]) fun i hi _ => ?_
  rw [getElem_peaks, List.getElem_replicate]
  rfl

theorem peak_singleton : peak slot height {x} i = if slot x = i then height x else ⊥ := by
  rw [peak, Finset.filter_singleton]
  split_ifs
  · exact Finset.sup_singleton
  · rfl

variable [DecidableEq E]

theorem peak_union : peak slot height (S ∪ T) i = peak slot height S i ⊔ peak slot height T i := by
  rw [peak, Finset.filter_union, Finset.sup_union]
  rfl

theorem peaks_union : peaks n slot height (S ∪ T) = List.zipWith max (peaks n slot height S) (peaks n slot height T) := by
  refine List.ext_getElem (by simp only [List.length_zipWith, length_peaks, min_self]) fun i _ _ => ?_
  rw [List.getElem_zipWith, getElem_peaks, getElem_peaks, getElem_peaks, peak_union]

/-- More elements never lower a row, so that a row that comes back has not moved in between. -/
theorem peaks_between (h : S ⊆ T) (U : Finset E) (he : peaks n slot height (T ∪ U) = peaks n slot height S) :
    peaks n slot height T = peaks n slot height S := by
  refine List.ext_getElem (by rw [length_peaks, length_peaks]) fun i hi hi' => ?_
  have hend : peak slot height (T ∪ U) i = peak slot height S i := by
    have := congrArg (fun row => row[i]?) he
    rw [length_peaks] at hi
    simpa [peaks, hi] using this
  rw [getElem_peaks, getElem_peaks]
  refine le_antisymm ?_ ?_
  · rw [← hend, peak_union]
    exact le_sup_left
  · exact Finset.sup_mono (Finset.filter_subset_filter _ h)

theorem raise_peaks (hx : slot x < n) : raise (peaks n slot height S) (slot x) (height x) =
    (peaks n slot height (insert x S), decide (peaks n slot height (insert x S) ≠ peaks n slot height S)) := by
  have hpeak : ∀ i, peak slot height (insert x S) i = (if slot x = i then height x else ⊥) ⊔ peak slot height S i := by
    intro i
    rw [Finset.insert_eq, peak_union, peak_singleton]
  have hlen : slot x < (peaks n slot height S).length := by rwa [length_peaks]
  have hold : (peaks n slot height S).getD (slot x) ⊥ = peak slot height S (slot x) := by
    rw [List.getD_eq_getElem _ _ hlen, getElem_peaks]
  rw [raise, hold]
  split_ifs with hlt
  · have hrow : peaks n slot height (insert x S) = (peaks n slot height S).set (slot x) (height x) := by
      refine List.ext_getElem (by simp only [List.length_set, length_peaks]) fun i _ _ => ?_
      rw [getElem_peaks, List.getElem_set, hpeak, getElem_peaks]
      split_ifs with hi
      · rw [← hi]
        exact sup_eq_left.2 hlt.le
      · exact sup_eq_right.2 bot_le
    have hne : peaks n slot height (insert x S) ≠ peaks n slot height S := fun he => by
      have hsame := hold
      rw [← he, hrow, List.getD_eq_getElem _ _ (by rwa [List.length_set]), List.getElem_set_self] at hsame
      exact hlt.ne hsame.symm
    rw [decide_eq_true hne, hrow]
  · have hrow : peaks n slot height (insert x S) = peaks n slot height S := by
      refine List.ext_getElem (by rw [length_peaks, length_peaks]) fun i _ _ => ?_
      rw [getElem_peaks, getElem_peaks, hpeak]
      split_ifs with hi
      · rw [← hi]
        exact sup_eq_right.2 (not_lt.1 hlt)
      · exact sup_eq_right.2 bot_le
    rw [hrow, decide_eq_false (not_not.2 rfl)]

/-- A list of elements, in any order and with repetitions, taken by a function that does to rows what `raise` does. -/
theorem foldl_raise {f : List α → E → List α × Bool}
    (hf : ∀ S x, slot x < n → f (peaks n slot height S) x = raise (peaks n slot height S) (slot x) (height x))
    (xs : List E) (hxs : ∀ x ∈ xs, slot x < n) (b : Bool) :
    xs.foldl (fun r x => ((f r.1 x).1, r.2 || (f r.1 x).2)) (peaks n slot height S, b) =
      (peaks n slot height (S ∪ xs.toFinset), b || decide (peaks n slot height (S ∪ xs.toFinset) ≠ peaks n slot height S)) := by
  induction xs generalizing S b with
  | nil => simp
  | cons x xs ih =>
    have hsets : insert x S ∪ xs.toFinset = S ∪ (x :: xs).toFinset := by
      rw [List.toFinset_cons, Finset.insert_union, Finset.union_insert]
    have hslot := hxs x List.mem_cons_self
    rw [List.foldl_cons, hf S x hslot, raise_peaks n slot height hslot, ih (fun y hy => hxs y (List.mem_cons_of_mem x hy)),
      hsets, Bool.or_assoc]
    congr 2
    by_cases hfirst : peaks n slot height (insert x S) = peaks n slot height S
    · simp [hfirst]
    · -- a row that has risen does not come back
      have hall : peaks n slot height (S ∪ (x :: xs).toFinset) ≠ peaks n slot height S := fun he =>
        hfirst (peaks_between n slot height (Finset.subset_insert x S) xs.toFinset (hsets ▸ he))
      rw [decide_eq_true hfirst, decide_eq_true hall, Bool.true_or]

end BlazeKV.Lib
