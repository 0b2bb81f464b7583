import BlazeKV.Spec.SkipList
import Mathlib.Data.Nat.Find

/-! What a skip list stands for: a list of elements with their addresses and
heights, counted from position one, the head being position zero. A link of
level `i` goes to the next position taller than `i`, and its span is the
distance; past the last such position the span counts to the end. Spans and ranks
are 32-bit counters: they are exact up to that width, and the links do not depend
on them. -/

namespace BlazeKV.SkipList

structure Elem where
  id : ℕ
  member : Bytes
  score : Double
  height : ℕ

def headElem : Elem := ⟨0, [], .zero, kMaxLevel⟩

/-- The element at a position, the head at zero and past the end. -/
def elemAt (L : List Elem) : ℕ → Elem
  | 0 => headElem
  | q + 1 => L.getD q headElem

/-- The target of a link of level `i` from position `q`. -/
def IsNext (L : List Elem) (i q : ℕ) : Option ℕ → Prop
  | some p => q < p ∧ p ≤ L.length ∧ i < (elemAt L p).height ∧
      ∀ p', q < p' → p' < p → (elemAt L p').height ≤ i
  | none => ∀ p', q < p' → p' ≤ L.length → (elemAt L p').height ≤ i

/-- Link `i` of position `q` leads to the next tall position, at its distance as a
32-bit counter. -/
def GoodLink (sl : SkipList) (L : List Elem) (q i : ℕ) : Prop :=
  ∃ o, IsNext L i q o ∧
    (sl.lv (elemAt L q).id i).forward = o.map (fun p => (elemAt L p).id) ∧
    (i < sl.level → (sl.lv (elemAt L q).id i).span = u32 (o.getD L.length - q))

structure Rep (sl : SkipList) (L : List Elem) : Prop where
  length : sl.length = L.length
  level_pos : 1 ≤ sl.level
  level_le : sl.level ≤ kMaxLevel
  id_lt : ∀ q ≤ L.length, (elemAt L q).id < sl.next
  id_inj : ∀ p ≤ L.length, ∀ q ≤ L.length, (elemAt L p).id = (elemAt L q).id → p = q
  height_pos : ∀ q, 1 ≤ q → q ≤ L.length → 1 ≤ (elemAt L q).height
  height_le : ∀ q, 1 ≤ q → q ≤ L.length → (elemAt L q).height ≤ sl.level
  node : ∀ q ≤ L.length, ∃ n, sl.heap (elemAt L q).id = some n ∧ n.member = (elemAt L q).member ∧
    n.score = (elemAt L q).score ∧ n.level.length = (elemAt L q).height
  only : ∀ x, sl.heap x ≠ none → ∃ q ≤ L.length, x = (elemAt L q).id
  link : ∀ q ≤ L.length, ∀ i < (elemAt L q).height, sl.GoodLink L q i
  backward : ∀ q, 1 ≤ q → q ≤ L.length →
    (sl.node (elemAt L q).id).backward = if q = 1 then none else some (elemAt L (q - 1)).id
  tail : sl.tail = if L.length = 0 then none else some (elemAt L L.length).id

@[simp] theorem elemAt_zero (L : List Elem) : elemAt L 0 = headElem := rfl
@[simp] theorem headElem_id : headElem.id = 0 := rfl
@[simp] theorem headElem_height : headElem.height = kMaxLevel := rfl

/-- The target of a link is determined by where it starts. -/
theorem IsNext.unique {L : List Elem} {i q : ℕ} {o o' : Option ℕ} (h : IsNext L i q o)
    (h' : IsNext L i q o') : o = o' := by
  cases o with
  | none =>
    cases o' with
    | none => rfl
    | some p' =>
      have := h p' h'.1 h'.2.1
      have := h'.2.2.1
      omega
  | some p =>
    cases o' with
    | none =>
      have := h' p h.1 h.2.1
      have := h.2.2.1
      omega
    | some p' =>
      rcases lt_trichotomy p p' with hlt | rfl | hgt
      · have := h'.2.2.2 p h.1 hlt
        have := h.2.2.1
        omega
      · rfl
      · have := h.2.2.2 p' h'.1 hgt
        have := h'.2.2.1
        omega

theorem exists_isNext (L : List Elem) (i q : ℕ) : ∃ o, IsNext L i q o := by
  classical
  by_cases h : ∃ p, q < p ∧ p ≤ L.length ∧ i < (elemAt L p).height
  · obtain ⟨h1, h2, h3⟩ := Nat.find_spec h
    refine ⟨some (Nat.find h), h1, h2, h3, fun p' hq hp => ?_⟩
    have := Nat.find_min h hp
    push Not at this
    exact this hq (by omega)
  · push Not at h
    exact ⟨none, h⟩

/-- The last position up to `r` that is taller than `i`: `update[i]` of a search
that stops after position `r`. -/
def lastTall (L : List Elem) (i r : ℕ) : ℕ := Nat.findGreatest (fun u => i < (elemAt L u).height) r

section LastTall

variable {L : List Elem} {i r : ℕ}

theorem lastTall_le : lastTall L i r ≤ r := Nat.findGreatest_le r

theorem lastTall_tall (hi : i < kMaxLevel) : i < (elemAt L (lastTall L i r)).height :=
  Nat.findGreatest_spec (P := fun u => i < (elemAt L u).height) (Nat.zero_le r) hi

theorem le_of_lastTall_lt {q : ℕ} (h1 : lastTall L i r < q) (h2 : q ≤ r) :
    (elemAt L q).height ≤ i :=
  not_lt.1 <| Nat.findGreatest_is_greatest (P := fun u => i < (elemAt L u).height) h1 h2

theorem le_lastTall {q : ℕ} (hq : i < (elemAt L q).height) (h2 : q ≤ r) : q ≤ lastTall L i r := by
  by_contra h
  have := le_of_lastTall_lt (not_le.1 h) h2
  omega

theorem lastTall_eq {u : ℕ} (hu : u ≤ r) (hi : i < (elemAt L u).height)
    (h : ∀ q, u < q → q ≤ r → (elemAt L q).height ≤ i) : lastTall L i r = u := by
  apply le_antisymm
  · by_contra hlt
    have h1 := h _ (not_le.1 hlt) lastTall_le
    have h2 : i < (elemAt L (lastTall L i r)).height :=
      Nat.findGreatest_spec (P := fun u => i < (elemAt L u).height) hu hi
    omega
  · exact le_lastTall hi hu

end LastTall

theorem Rep.node_eq {sl : SkipList} {L : List Elem} (hR : sl.Rep L) {q : ℕ} (hq : q ≤ L.length) :
    (sl.node (elemAt L q).id).member = (elemAt L q).member ∧
    (sl.node (elemAt L q).id).score = (elemAt L q).score ∧
    (sl.node (elemAt L q).id).level.length = (elemAt L q).height := by
  obtain ⟨n, hn, h⟩ := hR.node q hq
  simpa [SkipList.node, hn] using h

theorem Rep.id_eq_zero {sl : SkipList} {L : List Elem} (hR : sl.Rep L) {q : ℕ}
    (hq : q ≤ L.length) : (elemAt L q).id = 0 ↔ q = 0 :=
  ⟨fun h => hR.id_inj q hq 0 (Nat.zero_le _) h, fun h => by rw [h]; rfl⟩

/-- A walk on level `i` with a test that holds up to position `r` ends at the
last position up to `r` that is taller than `i`. -/
theorem Rep.walk_spec {sl : SkipList} {L : List Elem} (hR : sl.Rep L) {i r : ℕ}
    {go : SkipNode → ℕ → Bool} (hi : i < sl.level) (hr : r ≤ L.length)
    (hgo : ∀ q, 1 ≤ q → q ≤ L.length → (go (sl.node (elemAt L q).id) (u32 q) = true ↔ q ≤ r))
    (fuel p : ℕ) (hp : p ≤ r) (hh : i < (elemAt L p).height) (hf : r - p < fuel) :
    sl.walk i go fuel ((elemAt L p).id, u32 p) =
      some ((elemAt L (lastTall L i r)).id, u32 (lastTall L i r)) := by
  induction fuel generalizing p with
  | zero => omega
  | succ fuel ih =>
    obtain ⟨o, ho, hfwd, hspan⟩ := hR.link p (by omega) i hh
    replace hspan := hspan hi
    cases o with
    | none =>
      have : lastTall L i r = p := lastTall_eq hp hh fun q h1 h2 => ho q h1 (by omega)
      simp only [walk, hfwd, Option.map_none, this]
    | some q =>
      obtain ⟨hpq, hqn, hqi, hbetween⟩ := ho
      have htr : u32 (u32 p + (sl.lv (elemAt L p).id i).span) = u32 q := by
        rw [hspan, Option.getD_some, u32_add_u32, u32_u32_add, show p + (q - p) = q by omega]
      simp only [walk, hfwd, Option.map_some, htr]
      by_cases hqr : q ≤ r
      · rw [if_pos ((hgo q (by omega) hqn).2 hqr)]
        exact ih q hqr hqi (by omega)
      · rw [if_neg fun h => hqr ((hgo q (by omega) hqn).1 h)]
        have : lastTall L i r = p := lastTall_eq hp hh fun q' h1 h2 => hbetween q' h1 (by omega)
        rw [this]

/-- The descent finds the predecessor of every level. -/
theorem Rep.descend_spec {sl : SkipList} {L : List Elem} (hR : sl.Rep L) {r : ℕ}
    {go : SkipNode → ℕ → Bool} (hr : r ≤ L.length)
    (hgo : ∀ q, 1 ≤ q → q ≤ L.length → (go (sl.node (elemAt L q).id) (u32 q) = true ↔ q ≤ r))
    (n p : ℕ) (hn : n ≤ sl.level) (hp : p ≤ r) (hh : n ≤ (elemAt L p).height) :
    sl.descend go n ((elemAt L p).id, u32 p) =
      some ((List.range n).map fun i => ((elemAt L (lastTall L i r)).id, u32 (lastTall L i r))) := by
  induction n generalizing p with
  | zero => rfl
  | succ n ih =>
    have hw := hR.walk_spec (by omega) hr hgo (sl.length + 1) p hp hh
      (by rw [hR.length]; omega)
    have htall : n < (elemAt L (lastTall L n r)).height :=
      lastTall_tall (by have := hR.level_le; omega)
    simp only [descend, hw, Option.bind_eq_bind, Option.bind_some,
      ih (lastTall L n r) (by omega) lastTall_le (by omega), List.range_succ, List.map_append]
    rfl

/-- A descent with an early return comes back with the first level whose
predecessor is a hit, and otherwise with nothing. -/
theorem Rep.search_spec {sl : SkipList} {L : List Elem} (hR : sl.Rep L) {β : Type} {r : ℕ}
    (go : SkipNode → ℕ → Bool) (hit : ℕ × ℕ → Option β) (hr : r ≤ L.length)
    (hgo : ∀ q, 1 ≤ q → q ≤ L.length → (go (sl.node (elemAt L q).id) (u32 q) = true ↔ q ≤ r))
    (n p : ℕ) (hn : n ≤ sl.level) (hp : p ≤ r) (hh : n ≤ (elemAt L p).height) :
    ∃ b, sl.search go hit n ((elemAt L p).id, u32 p) = some b ∧
      (∀ c, b = some c → ∃ i < n, hit ((elemAt L (lastTall L i r)).id, u32 (lastTall L i r)) = some c) ∧
      (b = none → ∀ i < n, hit ((elemAt L (lastTall L i r)).id, u32 (lastTall L i r)) = none) := by
  induction n generalizing p with
  | zero => exact ⟨none, rfl, by simp, by simp⟩
  | succ n ih =>
    have hw := hR.walk_spec (by omega) hr hgo (sl.length + 1) p hp hh
      (by rw [hR.length]; omega)
    have htall : n < (elemAt L (lastTall L n r)).height :=
      lastTall_tall (by have := hR.level_le; omega)
    simp only [search, hw, Option.bind_eq_bind, Option.bind_some]
    cases hhit : hit ((elemAt L (lastTall L n r)).id, u32 (lastTall L n r)) with
    | some b => exact ⟨some b, rfl, fun c hc => ⟨n, by omega, hc ▸ hhit⟩, by simp⟩
    | none =>
      obtain ⟨b, hb, hsome, hnone⟩ := ih (lastTall L n r) (by omega) lastTall_le (by omega)
      refine ⟨b, hb, fun c hc => ?_, fun hb' i hi => ?_⟩
      · obtain ⟨i, hi, h⟩ := hsome c hc
        exact ⟨i, by omega, h⟩
      · rcases Nat.lt_succ_iff_lt_or_eq.1 hi with h | rfl
        · exact hnone hb' i h
        · exact hhit

/-- Every node has level zero, so the lowest predecessor is position `r` itself. -/
theorem Rep.lastTall_zero {sl : SkipList} {L : List Elem} (hR : sl.Rep L) {r : ℕ}
    (hr : r ≤ L.length) : lastTall L 0 r = r := by
  apply lastTall_eq le_rfl
  · cases r with
    | zero => exact Nat.zero_lt_succ _
    | succ r => exact hR.height_pos _ (by omega) hr
  · omega

/-- Above the current level only the head has links, and they are null. -/
theorem Rep.lastTall_high {sl : SkipList} {L : List Elem} (hR : sl.Rep L) {i r : ℕ}
    (hr : r ≤ L.length) (hi : sl.level ≤ i) (hi' : i < kMaxLevel) : lastTall L i r = 0 := by
  apply lastTall_eq (Nat.zero_le _) hi'
  intro q h1 h2
  exact (hR.height_le q h1 (by omega)).trans hi

end BlazeKV.SkipList
