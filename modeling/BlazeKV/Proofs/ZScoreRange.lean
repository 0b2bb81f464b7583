import BlazeKV.Proofs.ZRange

/-! `ZRANGEBYSCORE` over a sorted set whose structures agree: the pairs with their score between the
bounds, which lie together in the sorted list. -/

namespace BlazeKV

open Lib SkipList Cmd

/-- Whether a score lies between two bounds. -/
def inBounds (lo hi : Bound) (p : Bytes × Double) : Bool :=
  (if lo.exclusive then lo.score.lt p.2 else lo.score.le p.2) && (if hi.exclusive then p.2.lt hi.score else p.2.le hi.score)

section Bounds

variable {lo hi : Bound} {xs : List (Bytes × Double)}

/-- The loop of `ZRANGEBYSCORE` on a list of pairs. -/
def pickScores (lo hi : Bound) : List (Bytes × Double) → List (Bytes × Double)
  | [] => []
  | p :: ps =>
    if lo.exclusive ∧ p.2.le lo.score then pickScores lo hi ps
    else if hi.score.lt p.2 ∨ (hi.exclusive ∧ hi.score.le p.2) then []
    else p :: pickScores lo hi ps

theorem scoreLoop_content {sl : SkipList} {L : List Elem} (hR : sl.Rep L) (lo hi : Bound) (fuel q : ℕ) (hq : q ≤ L.length)
    (hf : L.length - q < fuel) :
    (scoreLoop sl lo hi fuel (if q < L.length then some (elemAt L (q + 1)).id else none)).map content =
      pickScores lo hi ((L.map Elem.pair).drop q) := by
  induction fuel generalizing q with
  | zero => omega
  | succ fuel ih =>
    by_cases h : q < L.length
    · have hnext := ih (q + 1) h (by omega)
      rw [← hR.next_zero h] at hnext
      have hlen : q < (L.map Elem.pair).length := by rwa [List.length_map]
      have hcontent := hR.content_eq hlen
      rw [if_pos h, List.drop_eq_getElem_cons hlen, ← hcontent]
      rw [scoreLoop, pickScores]
      generalize sl.node (elemAt L (q + 1)).id = n
      by_cases hskip : lo.exclusive ∧ n.score.le lo.score
      · exact (congrArg _ (if_pos hskip)).trans (hnext.trans (if_pos hskip).symm)
      refine (congrArg _ (if_neg hskip)).trans (Eq.trans ?_ (if_neg hskip).symm)
      by_cases hstop : hi.score.lt n.score ∨ (hi.exclusive ∧ hi.score.le n.score)
      · exact (congrArg _ (if_pos hstop)).trans (if_pos hstop).symm
      · refine (congrArg _ (if_neg hstop)).trans (Eq.trans ?_ (if_neg hstop).symm)
        rw [List.map_cons]
        exact congrArg _ hnext
    · rw [if_neg h, List.drop_eq_nil_of_le (by rw [List.length_map]; omega)]
      rfl

theorem inBounds_iff (hlo : lo.score.isNaN = false) (hhi : hi.score.isNaN = false) {p : Bytes × Double} (hp : p.2.isNaN = false) :
    inBounds lo hi p ↔ (if lo.exclusive then lo.score.key < p.2.key else lo.score.key ≤ p.2.key) ∧
      (if hi.exclusive then p.2.key < hi.score.key else p.2.key ≤ hi.score.key) := by
  rw [inBounds, Bool.and_eq_true]
  cases lo.exclusive <;> cases hi.exclusive <;>
    simp [Binary64.lt_iff hlo hp, Binary64.le_iff hlo hp, Binary64.lt_iff hp hhi, Binary64.le_iff hp hhi]

/-- In a sorted list from the lower bound on, the loop keeps what lies between the bounds. -/
theorem pickScores_eq (hlo : lo.score.isNaN = false) (hhi : hi.score.isNaN = false)
    (hs : xs.Pairwise fun a b => sortKey a < sortKey b) (hnum : ∀ p ∈ xs, p.2.isNaN = false)
    (hfrom : ∀ p ∈ xs, lo.score.key ≤ p.2.key) : pickScores lo hi xs = xs.filter (inBounds lo hi) := by
  induction xs with
  | nil => rfl
  | cons p ps ih =>
    obtain ⟨hp, hps⟩ := List.pairwise_cons.1 hs
    have hnp := hnum p List.mem_cons_self
    have hrest := ih hps (fun q hq => hnum q (List.mem_cons_of_mem _ hq)) fun q hq => hfrom q (List.mem_cons_of_mem _ hq)
    have hin := @inBounds_iff lo hi hlo hhi p hnp
    have hge := hfrom p List.mem_cons_self
    rw [pickScores, List.filter_cons, hrest]
    by_cases hskip : lo.exclusive ∧ p.2.le lo.score
    · rw [if_pos hskip, if_neg]
      rw [hin, hskip.1, if_pos rfl, not_and_or]
      exact .inl (not_lt.2 ((Binary64.le_iff hnp hlo).1 hskip.2))
    rw [if_neg hskip]
    by_cases hstop : hi.score.lt p.2 ∨ (hi.exclusive ∧ hi.score.le p.2)
    · -- the scores after this one are not smaller
      have hout : ∀ q ∈ p :: ps, inBounds lo hi q = false := by
        intro q hq
        have hnq := hnum q hq
        have hpq : p.2.key ≤ q.2.key := by
          rcases List.mem_cons.1 hq with rfl | hq
          · exact le_rfl
          · exact key_le_of_sortKey_lt (hp q hq)
        rw [Bool.eq_false_iff, Ne, inBounds_iff hlo hhi hnq, not_and_or]
        right
        rw [Binary64.lt_iff hhi hnp, Binary64.le_iff hhi hnp] at hstop
        rcases hstop with h | ⟨he, h⟩
        · split_ifs <;> omega
        · rw [if_pos he]
          omega
      rw [if_pos hstop, if_neg (by rw [hout p List.mem_cons_self]; decide)]
      exact (List.filter_eq_nil_iff.2 fun q hq => by simp [hout q (List.mem_cons_of_mem _ hq)]).symm
    · rw [if_neg hstop, if_pos]
      rw [hin]
      rw [not_or, Binary64.lt_iff hhi hnp, Binary64.le_iff hhi hnp] at hstop
      rw [Binary64.le_iff hnp hlo] at hskip
      constructor
      · split_ifs with he
        · exact not_le.1 fun h => hskip ⟨he, h⟩
        · exact hge
      · split_ifs with he
        · exact not_le.1 fun h => hstop.2 ⟨he, h⟩
        · exact not_lt.1 hstop.1

theorem drop_countBelow (min : Double) : xs.drop (countBelow min xs) = xs.dropWhile fun p => p.2.key < min.key := by
  have hsplit := List.takeWhile_append_dropWhile (p := fun p : Bytes × Double => decide (p.2.key < min.key)) (l := xs)
  conv_lhs => rw [countBelow]; arg 2; rw [← hsplit]
  exact List.drop_left

theorem le_of_mem_dropWhile {min : Double} (hs : xs.Pairwise fun a b => sortKey a < sortKey b) {p : Bytes × Double}
    (hp : p ∈ xs.dropWhile fun p => p.2.key < min.key) : min.key ≤ p.2.key := by
  induction xs with
  | nil => cases hp
  | cons q qs ih =>
    obtain ⟨hq, hqs⟩ := List.pairwise_cons.1 hs
    rw [List.dropWhile_cons] at hp
    split_ifs at hp with hlt
    · exact ih hqs hp
    · have hge : min.key ≤ q.2.key := by simpa using hlt
      rcases List.mem_cons.1 hp with rfl | hp
      · exact hge
      · exact hge.trans (key_le_of_sortKey_lt (hq p hp))

/-- The loop from the first pair that is not below the lower bound. -/
theorem filter_drop_below (hlo : lo.score.isNaN = false) (hhi : hi.score.isNaN = false) (hnum : ∀ p ∈ xs, p.2.isNaN = false) :
    (xs.drop (countBelow lo.score xs)).filter (inBounds lo hi) = xs.filter (inBounds lo hi) := by
  have hbelow : (xs.takeWhile fun p => decide (p.2.key < lo.score.key)).filter (inBounds lo hi) = [] := by
    refine List.filter_eq_nil_iff.2 fun p hp => ?_
    have hlt : p.2.key < lo.score.key := by simpa using List.all_eq_true.1 (List.all_takeWhile) p hp
    rw [inBounds_iff hlo hhi (hnum p ((List.takeWhile_prefix _).subset hp)), not_and_or]
    left
    split_ifs <;> omega
  conv_rhs => rw [← List.takeWhile_append_dropWhile (p := fun p : Bytes × Double => decide (p.2.key < lo.score.key)) (l := xs)]
  rw [List.filter_append, hbelow, List.nil_append, drop_countBelow]

end Bounds

theorem nodes_arrayReply (withscores : Bool) (ns : List SkipNode) :
    Reply.arrayHeader (if withscores then ns.length * 2 else ns.length) ++ ns.flatMap (replyNode withscores) =
      arrayReply ((ns.map content).flatMap (pairReply withscores)) := by
  rw [arrayReply, length_pairReplies, List.length_map, List.flatMap_def, List.flatMap_def, List.flatten_flatten, List.map_map,
    List.map_map]
  congr 1
  · congr 1
    split_ifs
    · push_cast
      rfl
    · rfl
  · congr 1
    exact List.map_congr_left fun n _ => (flatten_pairReply withscores n).symm

end BlazeKV
