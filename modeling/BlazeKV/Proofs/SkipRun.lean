import BlazeKV.Proofs.SkipErase
import BlazeKV.Lib.Machine
import Mathlib.Data.List.Sort

/-! Runs of the skip list against the strictly sorted list of its pairs. Scores
that are not NaN are ordered by their key, so that pairs are in a linear order. -/

namespace BlazeKV.SkipList

/-- The order of the pairs: by score, then by member. -/
def sortKey (p : Bytes × Double) : ℤ ×ₗ Bytes := toLex (p.2.key, p.1)

inductive Op
  | insert (member : Bytes) (score : Double) (lvl : ℕ)
  | erase (member : Bytes) (score : Double)
  | rankOf (member : Bytes) (score : Double)
  | atRank (rank : ℕ)
  | firstGte (min : Double)

inductive Out
  | done
  | erased (b : Bool)
  | rank (n : ℕ)
  | node (o : Option (Bytes × Double))
  deriving DecidableEq

def content (n : SkipNode) : Bytes × Double := (n.member, n.score)

def exec (sl : SkipList) : Op → Option (SkipList × Out)
  | .insert member score lvl => (sl.insert member score lvl).map fun sl => (sl, .done)
  | .erase member score => (sl.erase member score).map fun r => (r.1, .erased r.2)
  | .rankOf member score => (sl.rankOf member score).map fun n => (sl, .rank n)
  | .atRank rank => (sl.atRank rank).map fun o => (sl, .node (o.map fun x => content (sl.node x)))
  | .firstGte min => (sl.firstGte min).map fun o => (sl, .node (o.map fun x => content (sl.node x)))

def listExec (xs : List (Bytes × Double)) : Op → List (Bytes × Double) × Out
  | .insert member score _ => (xs.orderedInsert (sortKey · ≤ sortKey ·) (member, score), .done)
  | .erase member score =>
    (xs.eraseP fun p => sortKey p = sortKey (member, score),
      .erased (xs.any fun p => sortKey p = sortKey (member, score)))
  | .rankOf member score =>
    (xs, .rank ((xs.findIdx? fun p => sortKey p = sortKey (member, score)).elim 0 (· + 1)))
  | .atRank rank => (xs, .node (if rank = 0 then none else xs[rank - 1]?))
  | .firstGte min => (xs, .node (xs.find? fun p => min.key ≤ p.2.key))

/-- What the callers promise: scores are numbers, an inserted member is absent,
and the list stays within its counters. -/
def Allowed (xs : List (Bytes × Double)) : Op → Prop
  | .insert member score lvl => score.isNaN = false ∧ (∀ p ∈ xs, p.1 ≠ member) ∧
      1 ≤ lvl ∧ lvl ≤ kMaxLevel ∧ xs.length + 1 < 2 ^ 32
  | .erase _ score => score.isNaN = false
  | .rankOf _ score => score.isNaN = false
  | .atRank _ => True
  | .firstGte min => min.isNaN = false

instance (xs : List (Bytes × Double)) : DecidablePred (Allowed xs)
  | .insert _ score lvl => inferInstanceAs (Decidable (score.isNaN = false ∧ _ ∧
      1 ≤ lvl ∧ lvl ≤ kMaxLevel ∧ xs.length + 1 < 2 ^ 32))
  | .erase _ score => inferInstanceAs (Decidable (score.isNaN = false))
  | .rankOf _ score => inferInstanceAs (Decidable (score.isNaN = false))
  | .atRank _ => inferInstanceAs (Decidable True)
  | .firstGte min => inferInstanceAs (Decidable (min.isNaN = false))

def Elem.pair (e : Elem) : Bytes × Double := (e.member, e.score)

structure Represents (sl : SkipList) (xs : List (Bytes × Double)) : Prop where
  rep : ∃ L, sl.Rep L ∧ L.map Elem.pair = xs
  sorted : xs.Pairwise fun a b => sortKey a < sortKey b
  number : ∀ p ∈ xs, p.2.isNaN = false

section Cut

variable {α : Type} {p : α → Bool} {xs : List α}

/-- A test that only gets false along a list holds on an initial segment. -/
theorem getElem_iff_lt_takeWhile (h : xs.Pairwise fun a b => p b = true → p a = true) (k : ℕ)
    (hk : k < xs.length) : p xs[k] = true ↔ k < (xs.takeWhile p).length := by
  induction xs generalizing k with
  | nil => exact absurd hk (Nat.not_lt_zero k)
  | cons x xs ih =>
    obtain ⟨hx, hxs⟩ := List.pairwise_cons.1 h
    by_cases hp : p x = true
    · cases k with
      | zero => simp [hp]
      | succ k => simpa [hp] using ih hxs k (by simpa using hk)
    · refine iff_of_false (fun hpk => hp ?_) (by simp [hp])
      cases k with
      | zero => exact hpk
      | succ k => exact hx _ (List.getElem_mem _) hpk

theorem length_takeWhile_le : (xs.takeWhile p).length ≤ xs.length :=
  (List.takeWhile_prefix p).length_le

theorem insertIdx_takeWhile (x : α) :
    xs.insertIdx (xs.takeWhile p).length x = xs.takeWhile p ++ x :: xs.dropWhile p := by
  induction xs with
  | nil => rfl
  | cons y ys ih => by_cases hp : p y = true <;> simp [hp, ih]

theorem find?_not_eq (xs : List α) (p : α → Bool) : (xs.find? fun a => !p a) = xs[(xs.takeWhile p).length]? := by
  induction xs with
  | nil => rfl
  | cons y ys ih => by_cases hp : p y = true <;> simp [hp, ih]

end Cut

section Sorted

variable {xs : List (Bytes × Double)}

theorem findIdx?_of_sorted (hs : xs.Pairwise fun a b => sortKey a < sortKey b) {j : ℕ}
    {x : Bytes × Double} (hj : j < xs.length) (hx : sortKey xs[j] = sortKey x) :
    xs.findIdx? (fun p => sortKey p = sortKey x) = some j := by
  rw [List.findIdx?_eq_some_iff_getElem]
  refine ⟨hj, by simpa using hx, fun i hi => ?_⟩
  have := List.pairwise_iff_getElem.1 hs i j (by omega) hj hi
  simpa [← hx] using this.ne

theorem findIdx?_none {x : Bytes × Double} (h : ∀ p ∈ xs, sortKey p ≠ sortKey x) :
    xs.findIdx? (fun p => sortKey p = sortKey x) = none := by
  rw [List.findIdx?_eq_none_iff]
  simpa using h

end Sorted

section Order

variable {n : SkipNode} {member : Bytes} {score : Double}

theorem before_iff (hn : n.score.isNaN = false) (hs : score.isNaN = false) :
    before n member score = true ↔ sortKey (content n) < sortKey (member, score) := by
  rw [before, Bool.or_eq_true, Bool.and_eq_true, Lib.Binary64.lt_iff hn hs,
    Lib.Binary64.eq_iff hn hs, sortKey, sortKey, Prod.Lex.toLex_lt_toLex]
  simp [content]

theorem isAt_iff (hn : n.score.isNaN = false) (hs : score.isNaN = false) :
    isAt n member score = true ↔ sortKey (content n) = sortKey (member, score) := by
  rw [isAt, Bool.and_eq_true, Lib.Binary64.eq_iff hn hs, sortKey, sortKey]
  simp [content, Prod.ext_iff]

theorem upTo_iff (hn : n.score.isNaN = false) (hs : score.isNaN = false) :
    (n.score.lt score || (n.score.eq score && decide (n.member ≤ member))) = true ↔
      sortKey (content n) ≤ sortKey (member, score) := by
  rw [Bool.or_eq_true, Bool.and_eq_true, Lib.Binary64.lt_iff hn hs,
    Lib.Binary64.eq_iff hn hs, sortKey, sortKey, Prod.Lex.toLex_le_toLex]
  simp [content]

end Order

section Run

variable {sl : SkipList} {L : List Elem} {p : Bytes × Double → Bool}

theorem Rep.content_eq (hR : sl.Rep L) {q : ℕ} (hq : q < (L.map Elem.pair).length) :
    content (sl.node (elemAt L (q + 1)).id) = (L.map Elem.pair)[q] := by
  rw [List.length_map] at hq
  obtain ⟨h1, h2, -⟩ := hR.node_eq (q := q + 1) hq
  rw [content, h1, h2]
  simp [elemAt, List.getD, hq, Elem.pair]

/-- A test that only gets false along the list stops a search after a position. -/
theorem Rep.cut (hR : sl.Rep L) (hp : (L.map Elem.pair).Pairwise fun a b => p b = true → p a = true)
    (go : SkipNode → ℕ → Bool)
    (hgo : ∀ x k, content (sl.node x) ∈ L.map Elem.pair →
      (go (sl.node x) k = true ↔ p (content (sl.node x)) = true)) :
    ∀ q, 1 ≤ q → q ≤ L.length → (go (sl.node (elemAt L q).id) (u32 q) = true ↔
      q ≤ ((L.map Elem.pair).takeWhile p).length) := by
  intro q h1 hq
  obtain ⟨q, rfl⟩ : ∃ k, q = k + 1 := ⟨q - 1, by omega⟩
  have hc := hR.content_eq (q := q) (by rwa [List.length_map])
  rw [hgo _ _ (by rw [hc]; exact List.getElem_mem _), hc, getElem_iff_lt_takeWhile hp]
  rfl

variable {xs : List (Bytes × Double)} {member : Bytes} {score : Double}

/-- How many pairs come before `x`. -/
def lower (xs : List (Bytes × Double)) (x : Bytes × Double) : ℕ :=
  (xs.takeWhile fun p => decide (sortKey p < sortKey x)).length

theorem lower_le (x : Bytes × Double) : lower xs x ≤ xs.length := length_takeWhile_le

theorem lt_lower_iff (hs : xs.Pairwise fun a b => sortKey a < sortKey b) {x : Bytes × Double}
    {j : ℕ} (hj : j < xs.length) : sortKey xs[j] < sortKey x ↔ j < lower xs x := by
  rw [lower, ← getElem_iff_lt_takeWhile (hs.imp fun hab hb => ?_) j hj, decide_eq_true_iff]
  simpa using hab.trans (by simpa using hb)

theorem lower_eq (hs : xs.Pairwise fun a b => sortKey a < sortKey b) {x : Bytes × Double} {j : ℕ}
    (hj : j < xs.length) (hx : sortKey xs[j] = sortKey x) : lower xs x = j := by
  apply le_antisymm
  · by_contra hlt
    exact ((lt_lower_iff hs hj).2 (not_le.1 hlt)).ne hx
  · by_contra hlt
    have hl : lower xs x < xs.length := (not_le.1 hlt).trans hj
    have := List.pairwise_iff_getElem.1 hs _ _ hl hj (not_le.1 hlt)
    exact lt_irrefl _ ((lt_lower_iff hs hl).1 (hx ▸ this))

theorem Rep.lower_cut (hR : sl.Rep L) (member : Bytes)
    (hs : (L.map Elem.pair).Pairwise fun a b => sortKey a < sortKey b)
    (hnum : ∀ p ∈ L.map Elem.pair, p.2.isNaN = false) (hscore : score.isNaN = false) :
    ∀ q, 1 ≤ q → q ≤ L.length → (before (sl.node (elemAt L q).id) member score = true ↔
      q ≤ lower (L.map Elem.pair) (member, score)) := by
  refine hR.cut (hs.imp fun hab hb => ?_) (fun n _ => before n member score) fun x _ hx => ?_
  · simpa using hab.trans (by simpa using hb)
  · rw [before_iff (hnum _ hx) hscore, decide_eq_true_iff]

theorem Represents.insert_spec (h : Represents sl xs) (lvl : ℕ)
    (hscore : score.isNaN = false) (habs : ∀ p ∈ xs, p.1 ≠ member) (h1 : 1 ≤ lvl)
    (hlvl : lvl ≤ kMaxLevel) :
    ∃ sl', sl.insert member score lvl = some sl' ∧
      Represents sl' (xs.orderedInsert (sortKey · ≤ sortKey ·) (member, score)) := by
  obtain ⟨⟨L, hR, rfl⟩, hs, hnum⟩ := h
  obtain ⟨sl', he, hR'⟩ := hR.insert_spec ((lower_le _).trans_eq (List.length_map _)) h1 hlvl
    (hR.lower_cut member hs hnum hscore)
  refine ⟨sl', he, ⟨_, hR', ?_⟩, ?_, fun p hp => ?_⟩
  · rw [List.map_insertIdx, lower, insertIdx_takeWhile, List.orderedInsert_eq_take_drop]
    simp only [not_le, Elem.pair]
  · have hperm := List.perm_orderedInsert (sortKey · ≤ sortKey ·) (member, score)
      (L.map Elem.pair)
    have hne : (List.orderedInsert (sortKey · ≤ sortKey ·) (member, score)
        (L.map Elem.pair)).Pairwise fun a b => sortKey a ≠ sortKey b := by
      refine (hperm.pairwise_iff fun h => h.symm).2 (List.pairwise_cons.2 ⟨fun p hp he => ?_, ?_⟩)
      · exact habs p hp (congrArg (fun k => (ofLex k).2) he).symm
      · exact hs.imp fun h => h.ne
    have : Std.Total fun a b : Bytes × Double => sortKey a ≤ sortKey b := ⟨fun _ _ => le_total _ _⟩
    have : IsTrans (Bytes × Double) fun a b => sortKey a ≤ sortKey b := ⟨fun _ _ _ => le_trans⟩
    exact (List.Pairwise.orderedInsert _ _ (hs.imp fun h => h.le)).imp₂
      (fun _ _ hle hne => lt_of_le_of_ne hle hne) hne
  · rcases (List.mem_orderedInsert _).1 hp with rfl | hp
    · exact hscore
    · exact hnum p hp

theorem Represents.erase_spec (h : Represents sl xs) (member : Bytes) (hscore : score.isNaN = false) :
    ∃ sl', sl.erase member score =
        some (sl', xs.any fun p => sortKey p = sortKey (member, score)) ∧
      Represents sl' (xs.eraseP fun p => sortKey p = sortKey (member, score)) := by
  obtain ⟨⟨L, hR, rfl⟩, hs, hnum⟩ := h
  have herase := hR.erase_spec ((lower_le _).trans_eq (List.length_map _))
    (hR.lower_cut member hs hnum hscore)
  by_cases hfound : ∃ p ∈ L.map Elem.pair, sortKey p = sortKey (member, score)
  · obtain ⟨p, hp, hx⟩ := hfound
    obtain ⟨j, hj, rfl⟩ := List.getElem_of_mem hp
    have hjL : j < L.length := by simpa using hj
    have hcont := hR.content_eq hj
    rw [lower_eq hs hj hx, if_pos ⟨hjL, (isAt_iff (by
      rw [← hcont] at hp
      exact hnum _ hp) hscore).2 (by rw [hcont, hx])⟩] at herase
    obtain ⟨sl', he, hR'⟩ := herase
    have hany : ((L.map Elem.pair).any fun p => sortKey p = sortKey (member, score)) = true :=
      List.any_eq_true.2 ⟨_, hp, by simpa using hx⟩
    refine ⟨sl', by rw [he, hany], ⟨_, hR', ?_⟩, hs.sublist List.eraseP_sublist,
      fun p hp => hnum p (List.eraseP_subset hp)⟩
    rw [List.eraseP_eq_eraseIdx, findIdx?_of_sorted hs hj hx]
    exact (List.eraseIdx_map ..).symm
  · push Not at hfound
    have hself : (L.map Elem.pair).eraseP (fun p => sortKey p = sortKey (member, score)) =
        L.map Elem.pair := List.eraseP_eq_self_iff.2 (by simpa using hfound)
    have hany : ((L.map Elem.pair).any fun p => sortKey p = sortKey (member, score)) = false := by
      simpa using hfound
    rw [if_neg] at herase
    · exact ⟨sl, by rw [herase, hany], by rw [hself]; exact ⟨⟨L, hR, rfl⟩, hs, hnum⟩⟩
    · rintro ⟨hr, hat⟩
      rw [← List.length_map (f := Elem.pair)] at hr
      have hcont := hR.content_eq hr
      have hmem := List.getElem_mem hr
      rw [← hcont] at hmem
      exact hfound _ hmem ((isAt_iff (hnum _ hmem) hscore).1 hat)

theorem Represents.rankOf_spec (h : Represents sl xs) (hsmall : xs.length < 2 ^ 32)
    (hscore : score.isNaN = false) :
    sl.rankOf member score =
      some ((xs.findIdx? fun p => sortKey p = sortKey (member, score)).elim 0 (· + 1)) := by
  obtain ⟨⟨L, hR, rfl⟩, hs, hnum⟩ := h
  have hle : (L.map Elem.pair).Pairwise fun a b =>
      decide (sortKey b ≤ sortKey (member, score)) = true →
        decide (sortKey a ≤ sortKey (member, score)) = true :=
    hs.imp fun hab hb => by simpa using hab.le.trans (by simpa using hb)
  have hcut := hR.cut hle
    (fun n _ => n.score.lt score || (n.score.eq score && decide (n.member ≤ member)))
    (fun x _ hx => (upTo_iff (hnum _ hx) hscore).trans decide_eq_true_iff.symm)
  set r := ((L.map Elem.pair).takeWhile fun p =>
    decide (sortKey p ≤ sortKey (member, score))).length
  have hr : r ≤ L.length := length_takeWhile_le.trans_eq (List.length_map _)
  obtain ⟨b, hb, hsome, hnone⟩ := hR.search_spec
    (fun n _ => n.score.lt score || (n.score.eq score && decide (n.member ≤ member)))
    (fun at' => if at'.1 ≠ 0 ∧ isAt (sl.node at'.1) member score then some at'.2 else none)
    hr hcut sl.level 0 le_rfl (Nat.zero_le _) hR.level_le
  have hisAt : ∀ j, ∀ hj : j < (L.map Elem.pair).length,
      isAt (sl.node (elemAt L (j + 1)).id) member score = true ↔
        sortKey (L.map Elem.pair)[j] = sortKey (member, score) := by
    intro j hj
    have hmem := List.getElem_mem hj
    rw [← hR.content_eq hj] at hmem ⊢
    exact isAt_iff (hnum _ hmem) hscore
  rw [rankOf, show sl.search _ _ sl.level (0, 0) = some b from hb]
  cases b with
  | some c =>
    obtain ⟨i, hi, hhit⟩ := hsome c rfl
    have hu : lastTall L i r ≤ L.length := lastTall_le.trans hr
    rw [Option.ite_none_right_eq_some, Option.some.injEq, Ne, hR.id_eq_zero hu] at hhit
    obtain ⟨⟨h0, hat⟩, rfl⟩ := hhit
    obtain ⟨j, hj⟩ : ∃ j, lastTall L i r = j + 1 := ⟨lastTall L i r - 1, by omega⟩
    rw [hj] at hat hu ⊢
    rw [Nat.succ_le_iff, ← List.length_map (f := Elem.pair)] at hu
    rw [findIdx?_of_sorted hs hu ((hisAt j hu).1 hat), u32_of_lt (by omega)]
    rfl
  | none =>
    rw [findIdx?_none]
    · rfl
    · intro p hp hx
      obtain ⟨j, hj, rfl⟩ := List.getElem_of_mem hp
      have hjL : j < L.length := by simpa using hj
      have hjr : j < r := (getElem_iff_lt_takeWhile hle j hj).1 (by simpa using hx.le)
      have hrj : r ≤ j + 1 := by
        by_contra hlt
        have h1 : j + 1 < (L.map Elem.pair).length := by rw [List.length_map]; omega
        have h2 := (getElem_iff_lt_takeWhile hle (j + 1) h1).2 (not_le.1 hlt)
        have h3 := List.pairwise_iff_getElem.1 hs j (j + 1) hj h1 (Nat.lt_succ_self j)
        rw [hx] at h3
        exact not_le.2 h3 (by simpa using h2)
      have hmiss := hnone rfl 0 hR.level_pos
      rw [hR.lastTall_zero hr, show r = j + 1 by omega, if_pos] at hmiss
      · exact absurd hmiss (by simp)
      · exact ⟨fun h => absurd ((hR.id_eq_zero hjL).1 h) (by omega), (hisAt j hj).2 hx⟩

theorem Represents.atRank_spec (h : Represents sl xs) (hsmall : xs.length < 2 ^ 32) (rank : ℕ) :
    ∃ o, sl.atRank rank = some o ∧
      o.map (fun x => content (sl.node x)) = if rank = 0 then none else xs[rank - 1]? := by
  obtain ⟨⟨L, hR, rfl⟩, -, -⟩ := h
  have hr : min rank L.length ≤ L.length := min_le_right _ _
  rw [List.length_map] at hsmall
  have hcut : ∀ q, 1 ≤ q → q ≤ L.length →
      (decide (u32 q ≤ rank) = true ↔ q ≤ min rank L.length) := by
    intro q _ hq
    simp [hq, u32_of_lt (hq.trans_lt hsmall)]
  obtain ⟨b, hb, hsome, hnone⟩ := hR.search_spec (fun _ traversed => traversed ≤ rank)
    (fun at' => if at'.2 = rank ∧ at'.1 ≠ 0 then some at'.1 else none)
    hr hcut sl.level 0 le_rfl (Nat.zero_le _) hR.level_le
  refine ⟨b, hb, ?_⟩
  cases b with
  | some c =>
    obtain ⟨i, hi, hhit⟩ := hsome c rfl
    have hu : lastTall L i (min rank L.length) ≤ L.length := lastTall_le.trans hr
    rw [Option.ite_none_right_eq_some, Option.some.injEq, Ne, hR.id_eq_zero hu] at hhit
    obtain ⟨⟨hrank, h0⟩, rfl⟩ := hhit
    change u32 (lastTall L i _) = rank at hrank
    rw [u32_of_lt (hu.trans_lt hsmall)] at hrank
    dsimp only
    rw [hrank] at h0 hu ⊢
    obtain ⟨j, rfl⟩ : ∃ j, rank = j + 1 := ⟨rank - 1, by omega⟩
    rw [if_neg h0, Nat.add_sub_cancel, Option.map_some,
      hR.content_eq (by rwa [List.length_map]), List.getElem?_eq_getElem]
  | none =>
    have hmiss := hnone rfl 0 hR.level_pos
    rw [hR.lastTall_zero hr, u32_of_lt (hr.trans_lt hsmall), ite_eq_right_iff, Ne, hR.id_eq_zero hr] at hmiss
    split_ifs with h0
    · rfl
    · rw [List.getElem?_eq_none, Option.map_none]
      rw [List.length_map]
      by_contra hlt
      exact absurd (hmiss ⟨by omega, by omega⟩) (by simp)

/-- How many pairs are below a score. -/
def countBelow (min : Double) (xs : List (Bytes × Double)) : ℕ := (xs.takeWhile fun p => decide (p.2.key < min.key)).length

theorem key_le_of_sortKey_lt {a b : Bytes × Double} (hab : sortKey a < sortKey b) : a.2.key ≤ b.2.key := by
  rcases Prod.Lex.toLex_lt_toLex.1 hab with h | h
  · exact h.le
  · exact h.1.le

/-- `first_gte` ends at the first pair that is not below the score. -/
theorem Rep.firstGte_eq {L : List Elem} (hR : sl.Rep L) (hs : (L.map Elem.pair).Pairwise fun a b => sortKey a < sortKey b)
    (hnum : ∀ p ∈ L.map Elem.pair, p.2.isNaN = false) {min : Double} (hmin : min.isNaN = false) :
    sl.firstGte min = some (if countBelow min (L.map Elem.pair) < L.length then
      some (elemAt L (countBelow min (L.map Elem.pair) + 1)).id else none) := by
  have hcut := hR.cut (p := fun p => decide (p.2.key < min.key))
    (hs.imp fun hab hb => by simpa using (key_le_of_sortKey_lt hab).trans_lt (by simpa using hb))
    (fun n _ => n.score.lt min)
    (fun x _ hx => (Lib.Binary64.lt_iff (hnum _ hx) hmin).trans decide_eq_true_iff.symm)
  have hr : countBelow min (L.map Elem.pair) ≤ L.length := length_takeWhile_le.trans_eq (List.length_map _)
  have hdesc : sl.descend (fun n _ => n.score.lt min) sl.level (0, 0) = _ :=
    hR.descend_spec hr hcut sl.level 0 le_rfl (Nat.zero_le _) hR.level_le
  rw [firstGte, hdesc, ← hR.next_zero hr, ← hR.path_zero hr]
  rfl

theorem Represents.firstGte_spec (h : Represents sl xs) {min : Double} (hmin : min.isNaN = false) :
    ∃ o, sl.firstGte min = some o ∧
      o.map (fun x => content (sl.node x)) = xs.find? fun p => min.key ≤ p.2.key := by
  obtain ⟨⟨L, hR, rfl⟩, hs, hnum⟩ := h
  refine ⟨_, hR.firstGte_eq hs hnum hmin, ?_⟩
  have hfind := find?_not_eq (L.map Elem.pair) fun p => decide (p.2.key < min.key)
  have hnot : (fun p : Bytes × Double => decide (min.key ≤ p.2.key)) =
      fun p => !decide (p.2.key < min.key) := by
    funext p
    rw [← decide_not]
    simp only [not_lt]
  rw [hnot, hfind, ← countBelow]
  by_cases h : countBelow min (L.map Elem.pair) < L.length
  · rw [if_pos h, Option.map_some, hR.content_eq (by rwa [List.length_map]), List.getElem?_eq_getElem]
  · rw [if_neg h, Option.map_none, List.getElem?_eq_none (by simpa using h)]

theorem represents_new : Represents new [] where
  rep := by
    have hlv : ∀ i, (new.lv 0 i) = ⟨none, 0⟩ := by
      intro i
      by_cases hi : i < kMaxLevel <;>
        simp [lv, SkipList.node, new, emptyNode, List.getD, hi]; rfl
    have h0 : ∀ q ≤ 0, ∀ i, new.GoodLink [] q i := by
      intro q hq i
      obtain rfl := Nat.le_zero.1 hq
      refine ⟨none, fun p h1 h2 => absurd h1 (by simpa using h2), ?_, fun _ => ?_⟩
      · exact congrArg Level.forward (hlv i)
      · exact congrArg Level.span (hlv i)
    refine ⟨[], ⟨rfl, le_rfl, by decide, ?_, ?_, ?_, ?_, ?_, ?_, fun q hq i _ => h0 q hq i,
      ?_, rfl⟩, rfl⟩
    · intro q hq
      obtain rfl := Nat.le_zero.1 hq
      exact Nat.zero_lt_one
    · intro p hp q hq _
      exact (Nat.le_zero.1 hp).trans (Nat.le_zero.1 hq).symm
    · intro q h1 h2
      exact absurd h2 (not_le.2 h1)
    · intro q h1 h2
      exact absurd h2 (not_le.2 h1)
    · intro q hq
      obtain rfl := Nat.le_zero.1 hq
      exact ⟨emptyNode [] .zero kMaxLevel, rfl, rfl, rfl, by simp [emptyNode]⟩
    · intro x hx
      refine ⟨0, le_rfl, ?_⟩
      by_contra h
      exact hx (if_neg h)
    · intro q h1 h2
      exact absurd h2 (not_le.2 h1)
  sorted := List.Pairwise.nil
  number := by simp

theorem exec_refines : Lib.StepRefines (fun sl xs => Represents sl xs ∧ xs.length < 2 ^ 32)
    exec listExec Allowed := by
  rintro sl xs op ⟨h, hsmall⟩ hok
  cases op with
  | insert member score lvl =>
    obtain ⟨hscore, habs, h1, hlvl, hlen⟩ := hok
    obtain ⟨sl', he, hR⟩ := h.insert_spec _ hscore habs h1 hlvl
    refine ⟨sl', by simp [exec, he, listExec], hR, ?_⟩
    rwa [listExec, List.orderedInsert_length]
  | erase member score =>
    obtain ⟨sl', he, hR⟩ := h.erase_spec member hok
    exact ⟨sl', by simp [exec, he, listExec], hR, List.eraseP_sublist.length_le.trans_lt hsmall⟩
  | rankOf member score => exact ⟨sl, by simp [exec, h.rankOf_spec hsmall hok, listExec], h, hsmall⟩
  | atRank rank =>
    obtain ⟨o, he, ho⟩ := h.atRank_spec hsmall rank
    exact ⟨sl, by simp [exec, he, ho, listExec], h, hsmall⟩
  | firstGte min =>
    obtain ⟨o, he, ho⟩ := h.firstGte_spec hok
    exact ⟨sl, by simp [exec, he, ho, listExec], h, hsmall⟩

end Run

/-- The nodes met along the links of level `i`. -/
def follow (sl : SkipList) (i : ℕ) : ℕ → ℕ → List ℕ
  | 0, _ => []
  | fuel + 1, x =>
    match (sl.lv x i).forward with
    | none => []
    | some y => y :: follow sl i fuel y

theorem elemAt_succ {L : List Elem} {k : ℕ} (hk : k < L.length) : elemAt L (k + 1) = L[k] := by
  simp [elemAt, List.getD, hk]

/-- Past a link, the tall elements are those past its target. -/
theorem filter_drop_isNext {L : List Elem} {i q : ℕ} {o : Option ℕ} (h : IsNext L i q o) :
    (L.drop q).filter (fun e => i < e.height) =
      o.elim [] fun p => elemAt L p :: (L.drop p).filter fun e => i < e.height := by
  cases o with
  | none =>
    refine List.filter_eq_nil_iff.2 fun e he => ?_
    obtain ⟨k, hk, rfl⟩ := List.getElem_of_mem he
    rw [List.length_drop] at hk
    have := h (q + k + 1) (by omega) (by omega)
    rw [elemAt_succ (by omega)] at this
    simpa using this
  | some p =>
    obtain ⟨h1, h2, h3, h4⟩ := h
    obtain ⟨p, rfl⟩ : ∃ k, p = k + 1 := ⟨p - 1, by omega⟩
    have hskip : ((L.drop q).take (p - q)).filter (fun e => i < e.height) = [] := by
      refine List.filter_eq_nil_iff.2 fun e he => ?_
      obtain ⟨k, hk, rfl⟩ := List.getElem_of_mem he
      rw [List.length_take, List.length_drop] at hk
      have := h4 (q + k + 1) (by omega) (by omega)
      rw [elemAt_succ (by omega)] at this
      simpa using this
    rw [elemAt_succ h2] at h3
    rw [Option.elim_some, elemAt_succ h2, ← List.take_append_drop (p - q) (L.drop q), List.filter_append, hskip, List.nil_append,
      List.drop_drop, show q + (p - q) = p by omega, List.drop_eq_getElem_cons h2,
      List.filter_cons_of_pos (by simpa using h3)]

theorem Rep.follow_eq {sl : SkipList} {L : List Elem} (hR : sl.Rep L) {i : ℕ} (fuel q : ℕ)
    (hq : q ≤ L.length) (hi : i < (elemAt L q).height) (hf : L.length - q < fuel) :
    sl.follow i fuel (elemAt L q).id = ((L.drop q).filter fun e => i < e.height).map Elem.id := by
  induction fuel generalizing q with
  | zero => omega
  | succ fuel ih =>
    obtain ⟨o, ho, hfwd, -⟩ := hR.link q hq i hi
    rw [filter_drop_isNext ho]
    cases o with
    | none => simp [follow, hfwd]
    | some p =>
      have h1 := ho.1
      have h2 := ho.2.1
      simp [follow, hfwd, ih p h2 ho.2.2.1 (by omega)]

/-- The elements of level `i`, as the links give them. -/
def chain (sl : SkipList) (i : ℕ) : List ℕ := sl.follow i (sl.length + 1) 0

theorem Rep.chain_eq {sl : SkipList} {L : List Elem} (hR : sl.Rep L) {i : ℕ} (hi : i < kMaxLevel) :
    sl.chain i = (L.filter fun e => i < e.height).map Elem.id := by
  rw [chain, hR.length]
  exact hR.follow_eq _ 0 (Nat.zero_le _) hi (by omega)

theorem Rep.chain_sublist {sl : SkipList} {L : List Elem} (hR : sl.Rep L) {i : ℕ}
    (hi : i + 1 < kMaxLevel) : (sl.chain (i + 1)).Sublist (sl.chain i) := by
  rw [hR.chain_eq hi, hR.chain_eq (by omega)]
  refine (List.monotone_filter_right L fun e h => ?_).map _
  simp only [decide_eq_true_eq] at h ⊢
  omega

theorem Rep.chain_zero {sl : SkipList} {L : List Elem} (hR : sl.Rep L) :
    sl.chain 0 = L.map Elem.id := by
  rw [hR.chain_eq (by decide), List.filter_eq_self.2]
  intro e he
  obtain ⟨k, hk, rfl⟩ := List.getElem_of_mem he
  have := hR.height_pos (k + 1) (by omega) hk
  rw [elemAt_succ hk] at this
  exact decide_eq_true this

/-- Link `i` of position `q` leads to the next tall position, at its exact distance. -/
def ExactLink (sl : SkipList) (L : List Elem) (q i : ℕ) : Prop :=
  ∃ o, IsNext L i q o ∧
    (sl.lv (elemAt L q).id i).forward = o.map (fun p => (elemAt L p).id) ∧
    (i < sl.level → (sl.lv (elemAt L q).id i).span = o.getD L.length - q)

theorem GoodLink.exact {sl : SkipList} {L : List Elem} {q i : ℕ} (h : sl.GoodLink L q i)
    (hsmall : L.length < 2 ^ 32) : sl.ExactLink L q i := by
  obtain ⟨o, ho, hf, hs⟩ := h
  have hoD : o.getD L.length ≤ L.length := by
    cases o with
    | none => exact le_rfl
    | some p => exact ho.2.1
  exact ⟨o, ho, hf, fun hi => (hs hi).trans (u32_of_lt (by omega))⟩

/-- In every run the skip list answers like the sorted list of its pairs, its
lowest level is that list, each level is a sublist of the one below, spans are
distances, and backward links and tail are as `Rep` says. -/
theorem skiplist_is_sorted_list (ops : List Op) (hok : Lib.RunOk listExec Allowed [] ops) :
    ∃ sl L, Lib.run exec new ops = some (sl, (Lib.runTotal listExec [] ops).2) ∧ sl.Rep L ∧
      L.map Elem.pair = (Lib.runTotal listExec [] ops).1 ∧
      (L.map Elem.pair).Pairwise (fun a b => sortKey a < sortKey b) ∧
      sl.chain 0 = L.map Elem.id ∧
      (∀ q ≤ L.length, ∀ i < (elemAt L q).height, sl.ExactLink L q i) ∧
      ∀ i, i + 1 < kMaxLevel → (sl.chain (i + 1)).Sublist (sl.chain i) := by
  obtain ⟨sl, hrun, ⟨⟨L, hR, hL⟩, hs, -⟩, hsmall⟩ :=
    Lib.run_refines exec_refines ops ⟨represents_new, by decide⟩ hok
  rw [← hL, List.length_map] at hsmall
  exact ⟨sl, L, hrun, hR, hL, hL ▸ hs, hR.chain_zero,
    fun q hq i hi => (hR.link q hq i hi).exact hsmall, fun i hi => hR.chain_sublist hi⟩

/-- Three inserts of different heights, an erase that drops two levels, and the
rank of what is left. -/
theorem skiplist_is_sorted_list_run :
    let ops : List Op := [.insert [98] .zero 1, .insert [97] .zero 3, .insert [99] .inf 2,
      .erase [97] .zero, .rankOf [99] .inf, .atRank 1, .firstGte .inf]
    Lib.RunOk listExec Allowed [] ops ∧
    ∃ sl L, Lib.run exec new ops = some (sl, (Lib.runTotal listExec [] ops).2) ∧ sl.Rep L ∧
      L.map Elem.pair = (Lib.runTotal listExec [] ops).1 ∧
      (L.map Elem.pair).Pairwise (fun a b => sortKey a < sortKey b) ∧
      sl.chain 0 = L.map Elem.id ∧
      (∀ q ≤ L.length, ∀ i < (elemAt L q).height, sl.ExactLink L q i) ∧
      ∀ i, i + 1 < kMaxLevel → (sl.chain (i + 1)).Sublist (sl.chain i) := by
  have hok : Lib.RunOk listExec Allowed [] [.insert [98] .zero 1, .insert [97] .zero 3,
      .insert [99] .inf 2, .erase [97] .zero, .rankOf [99] .inf, .atRank 1, .firstGte .inf] := by
    decide
  exact ⟨hok, skiplist_is_sorted_list _ hok⟩

end BlazeKV.SkipList
