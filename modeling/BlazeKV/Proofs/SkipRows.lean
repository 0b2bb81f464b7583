import BlazeKV.Proofs.SkipRep
import Mathlib.Data.List.Nodup

/-! What one round of a loop over the levels does, and how a position moves when
an element enters or leaves the list. A round changes one level only and reads
nothing of the others, so that the rounds can be looked at one by one. -/

namespace BlazeKV.SkipList

def shape (n : SkipNode) : Bytes × Double × Option ℕ × ℕ :=
  (n.member, n.score, n.backward, n.level.length)

/-- Equal but for links and spans. -/
structure SameShape (sl sl' : SkipList) : Prop where
  heap : ∀ x, (sl.heap x).map shape = (sl'.heap x).map shape
  next : sl'.next = sl.next
  tail : sl'.tail = sl.tail
  length : sl'.length = sl.length
  level : sl'.level = sl.level

theorem SameShape.refl (sl : SkipList) : SameShape sl sl :=
  ⟨fun _ => rfl, rfl, rfl, rfl, rfl⟩

theorem SameShape.trans {a b c : SkipList} (h : SameShape a b) (h' : SameShape b c) :
    SameShape a c :=
  ⟨fun x => (h.heap x).trans (h'.heap x), h'.next.trans h.next, h'.tail.trans h.tail,
    h'.length.trans h.length, h'.level.trans h.level⟩

theorem SameShape.symm {a b : SkipList} (h : SameShape a b) : SameShape b a :=
  ⟨fun x => (h.heap x).symm, h.next.symm, h.tail.symm, h.length.symm, h.level.symm⟩

theorem SameShape.node {a b : SkipList} (h : SameShape a b) (x : ℕ) :
    shape (a.node x) = shape (b.node x) := by
  have := h.heap x
  unfold SkipList.node
  cases ha : a.heap x <;> cases hb : b.heap x <;> simp_all

theorem SameShape.length_level {a b : SkipList} (h : SameShape a b) (x : ℕ) :
    (a.node x).level.length = (b.node x).level.length :=
  congrArg (fun s => s.2.2.2) (h.node x)

theorem node_modify (sl : SkipList) (x y : ℕ) (f : SkipNode → SkipNode) (hf : f default = default) :
    (sl.modify x f).node y = if y = x then f (sl.node y) else sl.node y := by
  unfold SkipList.node modify
  by_cases h : y = x
  · subst h
    cases sl.heap y <;> simp [hf]
  · simp [h, Function.update_of_ne]

theorem sameShape_modify (sl : SkipList) (x : ℕ) (f : SkipNode → SkipNode)
    (hf : ∀ n, shape (f n) = shape n) : SameShape sl (sl.modify x f) := by
  refine ⟨fun y => ?_, rfl, rfl, rfl, rfl⟩
  by_cases h : y = x
  · subst h
    cases hy : sl.heap y <;> simp [modify, hy, hf]
  · simp [modify, h, Function.update_of_ne]

theorem sameShape_setLv (sl : SkipList) (x i : ℕ) (l : Level) : SameShape sl (sl.setLv x i l) :=
  sameShape_modify sl x _ fun n => by simp [shape]

theorem lv_setLv (sl : SkipList) (x i y j : ℕ) (l : Level) :
    (sl.setLv x i l).lv y j =
      if y = x ∧ j = i ∧ i < (sl.node x).level.length then l else sl.lv y j := by
  unfold lv setLv
  rw [node_modify _ _ _ _ rfl]
  by_cases h : y = x
  · subst h
    by_cases hj : j = i
    · subst hj
      by_cases hl : j < (sl.node y).level.length <;> simp [hl, List.getD]
    · simp [hj, List.getD, List.getElem?_set_ne (Ne.symm hj)]
  · simp [h]

theorem lv_setBackward (sl : SkipList) (x y j : ℕ) (b : Option ℕ) :
    (sl.setBackward x b).lv y j = sl.lv y j := by
  unfold lv setBackward modify SkipList.node
  by_cases h : y = x
  · subst h
    cases sl.heap y <;> simp
  · simp [h, Function.update_of_ne]

/-- A round that changes only its own level, looking only at it. -/
structure RowOp (step : SkipList → ℕ → SkipList) : Prop where
  shape : ∀ sl i, SameShape sl (step sl i)
  other : ∀ sl i y j, j ≠ i → (step sl i).lv y j = sl.lv y j
  row : ∀ a b i, SameShape a b → (∀ y, a.lv y i = b.lv y i) →
    ∀ y, (step a i).lv y i = (step b i).lv y i

/-- After the rounds, each of their levels is as its own round leaves it. -/
theorem RowOp.foldl {step : SkipList → ℕ → SkipList} (h : RowOp step) (is : List ℕ)
    (hnd : is.Nodup) (sl : SkipList) :
    SameShape sl (is.foldl step sl) ∧ ∀ y j, (is.foldl step sl).lv y j =
      if j ∈ is then (step sl j).lv y j else sl.lv y j := by
  induction is generalizing sl with
  | nil => exact ⟨.refl sl, fun y j => by simp⟩
  | cons i is ih =>
    obtain ⟨hi, hnd⟩ := List.nodup_cons.1 hnd
    obtain ⟨hs, hl⟩ := ih hnd (step sl i)
    refine ⟨(h.shape sl i).trans hs, fun y j => ?_⟩
    rw [List.foldl_cons, hl]
    by_cases hj : j = i
    · subst hj
      simp [hi]
    · rw [h.other sl i y j hj]
      by_cases hjs : j ∈ is
      · simp only [hjs, if_true, List.mem_cons, or_true]
        exact (h.row sl (step sl i) j (h.shape sl i) (fun y => (h.other sl i y j hj).symm) y).symm
      · simp [hjs, hj]

section Rows

variable {a b : SkipList} {i : ℕ}

theorem lv_setLv_congr (h : SameShape a b) (hrow : ∀ y, a.lv y i = b.lv y i) (x y : ℕ)
    {l l' : Level} (hl : l = l') : (a.setLv x i l).lv y i = (b.setLv x i l').lv y i := by
  rw [lv_setLv, lv_setLv, h.length_level, hrow y, hl]

theorem rowOp_raise : RowOp raise where
  shape sl i := sameShape_setLv sl _ _ _
  other sl i y j hj := by rw [raise, lv_setLv, if_neg (by tauto)]
  row a b i h hrow y := lv_setLv_congr h hrow 0 y (by rw [hrow, h.length])

theorem rowOp_stretch (path : List (ℕ × ℕ)) : RowOp (stretch path) where
  shape sl i := sameShape_setLv sl _ _ _
  other sl i y j hj := by rw [stretch, lv_setLv, if_neg (by tauto)]
  row a b i h hrow y := lv_setLv_congr h hrow _ y (by rw [hrow])

theorem rowOp_link (x : ℕ) (path : List (ℕ × ℕ)) : RowOp (link x path) where
  shape sl i := (sameShape_setLv sl _ _ _).trans (sameShape_setLv _ _ _ _)
  other sl i y j hj := by rw [link, lv_setLv, lv_setLv, if_neg (by tauto), if_neg (by tauto)]
  row a b i h hrow y := by
    have hs : ∀ l, SameShape (a.setLv x i l) (b.setLv x i l) := fun l =>
      (sameShape_setLv a x i l).symm.trans (h.trans (sameShape_setLv b x i l))
    simp only [link, hrow]
    exact lv_setLv_congr (hs _) (fun y => lv_setLv_congr h hrow x y rfl) _ y rfl

theorem rowOp_unlink (x : ℕ) (path : List (ℕ × ℕ)) : RowOp (unlink x path) where
  shape sl i := by
    simp only [unlink]
    split_ifs <;> exact sameShape_setLv sl _ _ _
  other sl i y j hj := by
    simp only [unlink]
    split_ifs <;> simp only [lv_setLv, hj, false_and, and_false, if_false]
  row a b i h hrow y := by
    simp only [unlink, hrow]
    split_ifs <;> exact lv_setLv_congr h hrow _ y rfl

end Rows

/-- Where a position goes when an element comes in after position `r`. -/
def shift (r q : ℕ) : ℕ := if q ≤ r then q else q + 1

section Shift

variable {L : List Elem} {r i q : ℕ} {e : Elem} {o : Option ℕ}

theorem elemAt_insert_le (hq : q ≤ r) :
    elemAt (L.insertIdx r e) q = elemAt L q := by
  cases q with
  | zero => rfl
  | succ q => simp [elemAt, List.getD, List.getElem?_insertIdx_of_lt hq]

theorem elemAt_insert_new (hr : r ≤ L.length) : elemAt (L.insertIdx r e) (r + 1) = e := by
  simp [elemAt, List.getD, List.getElem?_insertIdx_self, hr]

theorem elemAt_insert_gt (hq : r < q) : elemAt (L.insertIdx r e) (q + 1) = elemAt L q := by
  obtain ⟨q, rfl⟩ : ∃ p, q = p + 1 := ⟨q - 1, by omega⟩
  simp [elemAt, List.getD, List.getElem?_insertIdx_of_gt hq]

theorem shift_of_le (h : q ≤ r) : shift r q = q := if_pos h

theorem shift_of_lt (h : r < q) : shift r q = q + 1 := if_neg (not_le.2 h)

theorem elemAt_shift : elemAt (L.insertIdx r e) (shift r q) = elemAt L q := by
  unfold shift
  split_ifs with h
  · exact elemAt_insert_le h
  · exact elemAt_insert_gt (not_le.1 h)

theorem length_insert (hr : r ≤ L.length) : (L.insertIdx r e).length = L.length + 1 :=
  List.length_insertIdx_of_le_length hr e

/-- Every position of the longer list is the new one or an old one. -/
theorem shift_cases (p : ℕ) : p = r + 1 ∨ ∃ q, p = shift r q := by
  unfold shift
  rcases lt_trichotomy p (r + 1) with h | h | h
  · exact Or.inr ⟨p, by rw [if_pos (by omega)]⟩
  · exact Or.inl h
  · exact Or.inr ⟨p - 1, by rw [if_neg (by omega)]; omega⟩

theorem shift_le (hq : q ≤ L.length) : shift r q ≤ L.length + 1 := by
  unfold shift
  split_ifs <;> omega

theorem le_of_shift_le {n : ℕ} (hr : r ≤ n) (hq : shift r q ≤ n + 1) : q ≤ n := by
  unfold shift at hq
  split_ifs at hq <;> omega

theorem lastTall_insert (hi : i < kMaxLevel) :
    lastTall (L.insertIdx r e) i r = lastTall L i r := by
  have hle := lastTall_le (L := L) (i := i) (r := r)
  apply lastTall_eq hle
  · rw [elemAt_insert_le hle]
    exact lastTall_tall hi
  · intro q h1 h2
    rw [elemAt_insert_le h2]
    exact le_of_lastTall_lt h1 h2

/-- A link past `r` starts at the last tall position up to `r`. -/
theorem lt_of_isNext {p : ℕ} (h : IsNext L i (lastTall L i r) (some p)) : r < p := by
  by_contra hle
  have := le_lastTall h.2.2.1 (not_lt.1 hle)
  have := h.1
  omega

theorem isNext_new (hr : r ≤ L.length) (h : IsNext L i (lastTall L i r) o) :
    IsNext (L.insertIdx r e) i (r + 1) (o.map (shift r)) := by
  have hle := lastTall_le (L := L) (i := i) (r := r)
  cases o with
  | none =>
    intro p h1 h2
    rw [length_insert hr] at h2
    obtain ⟨p, rfl⟩ : ∃ q, p = q + 1 := ⟨p - 1, by omega⟩
    rw [elemAt_insert_gt (by omega)]
    exact h p (by omega) (by omega)
  | some q =>
    have hrq := lt_of_isNext h
    rw [Option.map_some, shift_of_lt hrq]
    refine ⟨by omega, by rw [length_insert hr]; have := h.2.1; omega, ?_, fun p h1 h2 => ?_⟩
    · rw [elemAt_insert_gt hrq]
      exact h.2.2.1
    · obtain ⟨p, rfl⟩ : ∃ q, p = q + 1 := ⟨p - 1, by omega⟩
      rw [elemAt_insert_gt (by omega)]
      exact h.2.2.2 p (by omega) (by omega)

theorem isNext_pred (hr : r ≤ L.length) (hi : i < e.height) :
    IsNext (L.insertIdx r e) i (lastTall L i r) (some (r + 1)) := by
  have hle := lastTall_le (L := L) (i := i) (r := r)
  refine ⟨by omega, by rw [length_insert hr]; omega, by rwa [elemAt_insert_new hr],
    fun p h1 h2 => ?_⟩
  rw [elemAt_insert_le (by omega)]
  exact le_of_lastTall_lt h1 (by omega)

/-- A link that does not cross the new position, or crosses below its height,
keeps its ends. -/
theorem isNext_shift (hr : r ≤ L.length) (hq : i < (elemAt L q).height)
    (h : q ≠ lastTall L i r ∨ e.height ≤ i) (hn : IsNext L i q o) :
    IsNext (L.insertIdx r e) i (shift r q) (o.map (shift r)) := by
  have hcross : ∀ p, q ≤ r → (∀ p', q < p' → p' ≤ r → p' < p → (elemAt L p').height ≤ i) → r < p →
      e.height ≤ i := by
    intro p hqr hbetween hrp
    refine h.resolve_left fun hne => hne ?_
    exact (lastTall_eq hqr hq fun p' h1 h2 => hbetween p' h1 h2 (by omega)).symm
  cases o with
  | none =>
    intro p h1 h2
    rw [length_insert hr] at h2
    rcases shift_cases (r := r) p with rfl | ⟨p, rfl⟩
    · rw [elemAt_insert_new hr]
      refine hcross (r + 1) ?_ (fun p' h1 h2 _ => hn p' h1 (by omega)) (by omega)
      unfold shift at h1
      split_ifs at h1 <;> omega
    · rw [elemAt_shift]
      refine hn p ?_ (le_of_shift_le hr h2)
      unfold shift at h1
      split_ifs at h1 <;> omega
  | some p =>
    obtain ⟨h1, h2, h3, h4⟩ := hn
    refine ⟨?_, by rw [length_insert hr]; exact shift_le h2, by rwa [elemAt_shift],
      fun p' h1' h2' => ?_⟩
    · simp only [shift]
      split_ifs <;> omega
    · rcases shift_cases (r := r) p' with rfl | ⟨p', rfl⟩
      · rw [elemAt_insert_new hr]
        have hqr : q ≤ r := by
          unfold shift at h1'
          split_ifs at h1' <;> omega
        have hrp : r < p := by
          simp only [shift] at h2'
          split_ifs at h2' <;> omega
        exact hcross p hqr (fun p' h1 _ h2 => h4 p' h1 h2) hrp
      · rw [elemAt_shift]
        refine h4 p' ?_ ?_
        · unfold shift at h1'
          split_ifs at h1' <;> omega
        · simp only [shift] at h2'
          split_ifs at h2' <;> omega

end Shift

end BlazeKV.SkipList
