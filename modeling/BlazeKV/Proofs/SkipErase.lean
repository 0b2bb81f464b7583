import BlazeKV.Proofs.SkipInsert

/-! `remove_node` is the way back from `insert`: on the levels of the deleted
node the two links around it are joined, above them the crossing span shrinks by
one, and levels left without a node are dropped. -/

namespace BlazeKV.SkipList

theorem unlink_lv {sl : SkipList} {x : ℕ} {path : List (ℕ × ℕ)} (y i : ℕ)
    (hu : i < (sl.node (path.getD i default).1).level.length) :
    (unlink x path sl i).lv y i =
      let u := (path.getD i default).1
      if y = u then
        if (sl.lv u i).forward = some x then
          ⟨(sl.lv x i).forward, u32 ((sl.lv u i).span + sub32 (sl.lv x i).span 1)⟩
        else { sl.lv u i with span := sub32 (sl.lv u i).span 1 }
      else sl.lv y i := by
  simp only [unlink]
  split_ifs with h1 h2 h2 <;>
    simp only [lv_setLv, h2, hu, true_and, false_and, if_true, if_false]

theorem dropLevels_spec (sl : SkipList) (n : ℕ) : sl.dropLevels n ≤ n ∧
    (1 ≤ n → 1 ≤ sl.dropLevels n) ∧
    ∀ i, sl.dropLevels n ≤ i → i < n → (sl.lv 0 i).forward = none := by
  induction n with
  | zero => exact ⟨le_rfl, id, fun i _ h => absurd h (Nat.not_lt_zero i)⟩
  | succ n ih =>
    obtain ⟨h1, h2, h3⟩ := ih
    unfold dropLevels
    split_ifs with h
    · refine ⟨by omega, fun _ => h2 h.1, fun i hi hn => ?_⟩
      rcases Nat.lt_succ_iff_lt_or_eq.1 hn with hlt | rfl
      · exact h3 i hi hlt
      · exact h.2
    · exact ⟨le_rfl, fun h => h, fun i hi hn => absurd hi (by omega)⟩

/-- `remove_node` up to the bookkeeping of levels, length and memory. -/
def detach (sl : SkipList) (x : ℕ) (path : List (ℕ × ℕ)) : SkipList :=
  let sl := (List.range sl.level).foldl (unlink x path) sl
  match (sl.lv x 0).forward with
  | some y => sl.setBackward y (sl.node x).backward
  | none => { sl with tail := (sl.node x).backward }

def forget (sl : SkipList) (x : ℕ) : SkipList :=
  { sl with
    level := sl.dropLevels sl.level
    length := sl.length - 1
    heap := Function.update sl.heap x none }

theorem removeNode_eq (sl : SkipList) (x : ℕ) (path : List (ℕ × ℕ)) :
    sl.removeNode x path = (sl.detach x path).forget x := rfl

section Stages

variable {sl : SkipList} {x : ℕ} {path : List (ℕ × ℕ)}

theorem detach_lv (y i : ℕ) : (sl.detach x path).lv y i =
    if i < sl.level then (unlink x path sl i).lv y i else sl.lv y i := by
  have h := ((rowOp_unlink x path).foldl _ (List.nodup_range (n := sl.level)) sl).2 y i
  simp only [List.mem_range] at h
  rw [← h]
  unfold detach
  dsimp only
  split
  · exact lv_setBackward _ _ _ _ _
  · rfl

theorem detach_core (sl : SkipList) (x : ℕ) (path : List (ℕ × ℕ)) (y : ℕ) : ((sl.detach x path).heap y).map core = (sl.heap y).map core := by
  have h := ((rowOp_unlink x path).foldl _ (List.nodup_range (n := sl.level)) sl).1
  rw [h.core]
  unfold detach
  dsimp only
  split
  · exact core_setBackward _ _ _ _
  · rfl

theorem detach_fields {o : Option ℕ}
    (ho : (((List.range sl.level).foldl (unlink x path) sl).lv x 0).forward = o) :
    (sl.detach x path).length = sl.length ∧ (sl.detach x path).level = sl.level ∧
    (sl.detach x path).next = sl.next ∧
    ((sl.detach x path).tail = if o = none then (sl.node x).backward else sl.tail) ∧
    ∀ y, (∀ z, o = some z → sl.heap z ≠ none) → ((sl.detach x path).node y).backward =
      if o = some y then (sl.node x).backward else (sl.node y).backward := by
  obtain ⟨h, -⟩ := (rowOp_unlink x path).foldl _ (List.nodup_range (n := sl.level)) sl
  have hb := fun y => congrArg (fun n => n.2.2.1) (h.node y)
  simp only [shape] at hb
  unfold detach
  dsimp only
  rw [ho]
  cases o with
  | none => exact ⟨h.length, h.level, h.next, (hb x).symm, fun y _ => (hb y).symm⟩
  | some z =>
    refine ⟨h.length, h.level, h.next, h.tail, fun y hz => ?_⟩
    have hz' : ((List.range sl.level).foldl (unlink x path) sl).heap z ≠ none := by
      intro hn
      have hs := h.heap z
      rw [hn] at hs
      exact hz z rfl (Option.map_eq_none_iff.1 hs)
    dsimp only
    rw [backward_setBackward _ _ _ _ hz', ← hb, ← hb]
    simp only [Option.some.injEq, eq_comm]

theorem forget_node {y : ℕ} (h : y ≠ x) : (sl.forget x).node y = sl.node y := by
  simp [SkipList.node, forget, h, Function.update_of_ne]

theorem forget_lv {y : ℕ} (h : y ≠ x) (i : ℕ) : (sl.forget x).lv y i = sl.lv y i := by
  simp only [lv, forget_node h]

end Stages

section Erase

variable {sl sl' : SkipList} {L : List Elem} {r : ℕ} {e : Elem}

/-- The links of `L` are those of the longer list seen from the old positions. -/
theorem Rep.shrunk_link (hR : sl.Rep (L.insertIdx r e)) (hr : r ≤ L.length)
    (hcut : ∀ i < e.height, sl'.lv (pred L r i).1 i = ⟨(sl.lv e.id i).forward,
      u32 ((sl.lv (pred L r i).1 i).span + sub32 (sl.lv e.id i).span 1)⟩)
    (habove : ∀ i, e.height ≤ i → i < sl.level → sl'.lv (pred L r i).1 i =
      ⟨(sl.lv (pred L r i).1 i).forward, sub32 (sl.lv (pred L r i).1 i).span 1⟩)
    (hother : ∀ q ≤ L.length, ∀ i, sl.level ≤ i ∨ q ≠ (pred L r i).2 →
      sl'.lv (elemAt L q).id i = sl.lv (elemAt L q).id i)
    (hlevel : sl'.level ≤ sl.level) {q : ℕ} (hq : q ≤ L.length) {i : ℕ}
    (hi : i < (elemAt L q).height) : sl'.GoodLink L q i := by
  have hlen := length_insert (L := L) (e := e) hr
  have hple : (pred L r i).2 ≤ r := lastTall_le
  obtain ⟨o, ho⟩ := exists_isNext L i q
  have hoD : o.getD L.length ≤ L.length := by
    cases o with
    | none => exact le_rfl
    | some p => exact ho.2.1
  obtain ⟨oM, hoM, hf, hs⟩ := hR.link (shift r q) (hlen ▸ shift_le hq) i (by rwa [elemAt_shift])
  rw [elemAt_shift] at hf hs
  refine ⟨o, ho, ?_⟩
  by_cases hc : q = (pred L r i).2 ∧ i < e.height
  · obtain ⟨rfl, hl⟩ := hc
    obtain ⟨ox, hox, hfx, hsx⟩ := hR.link (r + 1) (by omega) i (by rwa [elemAt_insert_new hr])
    obtain rfl := hox.unique (isNext_new hr ho)
    rw [shift_of_le hple] at hoM hs
    obtain rfl := hoM.unique (isNext_pred hr hl)
    rw [elemAt_insert_new hr] at hfx hsx
    obtain ⟨hge, hshift⟩ := getD_shift_crossing hr ho
    refine ⟨?_, fun hlt => ?_⟩
    · rw [← map_shift_id (r := r) (e := e), ← hfx]
      change (sl'.lv (pred L r i).1 i).forward = _
      rw [hcut i hl]
    · change (sl'.lv (pred L r i).1 i).span = _
      rw [hcut i hl]
      have hs1 : (sl.lv (pred L r i).1 i).span = u32 (r + 1 - (pred L r i).2) := hs (by omega)
      have hs2 := hsx (by omega)
      rw [hlen, hshift] at hs2
      simp only [hs1, hs2, sub32, u32]
      omega
  · have hcross : q ≠ (pred L r i).2 ∨ e.height ≤ i := by
      rw [not_and_or, not_lt] at hc
      exact hc
    obtain rfl := hoM.unique (isNext_shift hr hi hcross ho)
    rw [map_shift_id] at hf
    by_cases hq' : q = (pred L r i).2 ∧ i < sl.level
    · obtain ⟨rfl, hl⟩ := hq'
      obtain ⟨hge, hshift⟩ := getD_shift_crossing hr ho
      change (sl'.lv (pred L r i).1 i).forward = _ ∧ (_ → (sl'.lv (pred L r i).1 i).span = _)
      rw [habove i (by tauto) hl]
      refine ⟨hf, fun _ => ?_⟩
      have hs1 : (sl.lv (pred L r i).1 i).span = _ := hs hl
      rw [hlen, hshift, shift_of_le hple] at hs1
      dsimp only
      rw [hs1]
      exact (sub32_u32 (b := 1) (by omega)).trans (congrArg u32 (by omega))
    · have hkeep := hother q hq i (by
        rw [not_and_or, not_lt] at hq'
        exact hq'.symm)
      rw [hkeep]
      refine ⟨hf, fun hlt => ?_⟩
      rw [hs (by omega), hlen, getD_shift_sub hi (fun h => hq' ⟨h, by omega⟩) hr ho]

theorem pred_insert {i : ℕ} (hi : i < kMaxLevel) : pred (L.insertIdx r e) r i = pred L r i := by
  rw [pred, pred, lastTall_insert hi, elemAt_insert_le lastTall_le]

theorem Rep.shift_id_inj (hR : sl.Rep (L.insertIdx r e)) (hr : r ≤ L.length) {p q : ℕ}
    (hp : p ≤ L.length) (hq : q ≤ L.length) (h : (elemAt L p).id = (elemAt L q).id) : p = q := by
  have hlen := length_insert (L := L) (e := e) hr
  refine shift_inj (r := r) (hR.id_inj _ (hlen ▸ shift_le hp) _ (hlen ▸ shift_le hq) ?_)
  rw [elemAt_shift, elemAt_shift, h]

/-- The links to the deleted node start at the predecessors of its own levels. -/
theorem Rep.forward_eq_iff (hR : sl.Rep (L.insertIdx r e)) (hr : r ≤ L.length)
    (hid : ∀ q ≤ L.length, (elemAt L q).id ≠ e.id) {i : ℕ} (hi : i < sl.level) :
    (sl.lv (pred L r i).1 i).forward = some e.id ↔ i < e.height := by
  have hlen := length_insert (L := L) (e := e) hr
  have hlev := hR.level_le
  have hple : (pred L r i).2 ≤ r := lastTall_le
  have htall : i < (elemAt L (pred L r i).2).height := lastTall_tall (by omega)
  obtain ⟨oM, hoM, hf, -⟩ := hR.link (shift r (pred L r i).2) (hlen ▸ shift_le (hple.trans hr)) i
    (by rwa [elemAt_shift])
  rw [elemAt_shift] at hf
  change (sl.lv (pred L r i).1 i).forward = _ at hf
  rw [hf]
  by_cases hl : i < e.height
  · rw [shift_of_le hple] at hoM
    obtain rfl := hoM.unique (isNext_pred hr hl)
    simp [elemAt_insert_new hr, hl]
  · obtain ⟨o, ho⟩ := exists_isNext L i (pred L r i).2
    obtain rfl := hoM.unique (isNext_shift hr htall (Or.inr (not_lt.1 hl)) ho)
    rw [map_shift_id]
    refine iff_of_false ?_ hl
    cases o with
    | none => simp
    | some p => exact fun h => hid p ho.2.1 (Option.some.inj h)

theorem Rep.removed_id_ne (hR : sl.Rep (L.insertIdx r e)) (hr : r ≤ L.length) {q : ℕ} (hq : q ≤ L.length) :
    (elemAt L q).id ≠ e.id := by
  have hlen := length_insert (L := L) (e := e) hr
  intro h
  have := hR.id_inj (shift r q) (hlen ▸ shift_le hq) (r + 1) (by omega)
    (by rw [elemAt_shift, elemAt_insert_new hr, h])
  unfold shift at this
  split_ifs at this <;> omega

/-- The nodes of the path have the levels that the rounds write. -/
theorem Rep.path_length {path : List (ℕ × ℕ)} (hR : sl.Rep (L.insertIdx r e)) (hr : r ≤ L.length)
    (hpath : ∀ i < sl.level, (path.getD i default).1 = (pred L r i).1) {i : ℕ} (hi : i < sl.level) :
    i < (sl.node (path.getD i default).1).level.length := by
  have hlen := length_insert (L := L) (e := e) hr
  have hlev := hR.level_le
  have hn := (hR.node_eq (q := shift r (pred L r i).2) (hlen ▸ shift_le (lastTall_le.trans hr))).2.2
  rw [elemAt_shift] at hn
  rw [hpath i hi]
  exact (lastTall_tall (by omega)).trans_eq hn.symm

/-- The rounds leave the lowest link of the node as it was. -/
theorem Rep.unlinked_forward {path : List (ℕ × ℕ)} (hR : sl.Rep (L.insertIdx r e)) (hr : r ≤ L.length)
    (hpath : ∀ i < sl.level, (path.getD i default).1 = (pred L r i).1) :
    (((List.range sl.level).foldl (unlink e.id path) sl).lv e.id 0).forward =
      if r < L.length then some (elemAt L (r + 1)).id else none := by
  have hlen := length_insert (L := L) (e := e) hr
  have hpos := hR.level_pos
  have hfwdx : (sl.lv e.id 0).forward = if r < L.length then some (elemAt L (r + 1)).id else none := by
    have h := hR.next_zero (q := r + 1) (by omega)
    rw [elemAt_insert_new hr, hlen] at h
    rw [h]
    by_cases hrn : r < L.length
    · rw [if_pos (by omega), if_pos hrn, elemAt_insert_gt (by omega)]
    · rw [if_neg (by omega), if_neg hrn]
  rw [((rowOp_unlink e.id path).foldl _ List.nodup_range sl).2, if_pos (List.mem_range.2 hpos),
    unlink_lv _ _ (hR.path_length hr hpath hpos), hpath 0 hpos, ← hfwdx]
  dsimp only
  have hne : (pred L r 0).1 ≠ e.id := hR.removed_id_ne hr (lastTall_le.trans hr)
  rw [if_neg hne.symm]

section Removed

variable {path : List (ℕ × ℕ)}

/-- The rounds join the links around the node on its own levels and shorten the
crossing spans above them. -/
theorem Rep.removed_link (hR : sl.Rep (L.insertIdx r e)) (hr : r ≤ L.length)
    (hpath : ∀ i < sl.level, (path.getD i default).1 = (pred L r i).1) {q : ℕ} (hq : q ≤ L.length)
    {i : ℕ} (hi : i < (elemAt L q).height) :
    ((sl.detach e.id path).forget e.id).GoodLink L q i := by
  have hlen := length_insert (L := L) (e := e) hr
  have hid : ∀ q ≤ L.length, (elemAt L q).id ≠ e.id := fun q hq => hR.removed_id_ne hr hq
  have hheight : e.height ≤ sl.level := by
    have := hR.height_le (r + 1) (by omega) (by omega)
    rwa [elemAt_insert_new hr] at this
  have hpick : ∀ i, (pred L r i).2 ≤ L.length := fun i => lastTall_le.trans hr
  have hlenu : ∀ i < sl.level, i < (sl.node (path.getD i default).1).level.length := fun i hi =>
    hR.path_length hr hpath hi
  have hlv : ∀ q ≤ L.length, ∀ i, ((sl.detach e.id path).forget e.id).lv (elemAt L q).id i =
      if i < sl.level then (unlink e.id path sl i).lv (elemAt L q).id i
      else sl.lv (elemAt L q).id i := by
    intro q hq i
    rw [forget_lv (hid q hq), detach_lv]
  have hlevel := (detach_fields (hR.unlinked_forward hr hpath)).2.1
  have hdrop := (dropLevels_spec (sl.detach e.id path) (sl.detach e.id path).level).1
  rw [hlevel] at hdrop
  apply hR.shrunk_link hr _ _ _ (by rw [forget, hlevel]; exact hdrop) hq hi
  · intro i hi
    have hi' : i < sl.level := hi.trans_le hheight
    refine (hlv _ (hpick i) i).trans ?_
    rw [if_pos hi', unlink_lv _ _ (hlenu i hi'), hpath i hi']
    dsimp only
    rw [if_pos (pred_fst L r i).symm, if_pos ((hR.forward_eq_iff hr hid hi').2 hi)]
  · intro i hi hi'
    refine (hlv _ (hpick i) i).trans ?_
    rw [if_pos hi', unlink_lv _ _ (hlenu i hi'), hpath i hi']
    dsimp only
    rw [if_pos (pred_fst L r i).symm, if_neg fun h => not_lt.2 hi ((hR.forward_eq_iff hr hid hi').1 h)]
  · intro q hq i h
    rw [hlv q hq]
    split_ifs with hi'
    · rw [unlink_lv _ _ (hlenu i hi'), hpath i hi']
      refine if_neg fun he => ?_
      exact h.resolve_left (by omega) (hR.shift_id_inj hr hq (hpick i) he)
    · rfl

/-- A level of the skip list that was dropped holds no node: its head link is null. -/
theorem Rep.removed_height (hR : sl.Rep (L.insertIdx r e)) (hr : r ≤ L.length)
    (hpath : ∀ i < sl.level, (path.getD i default).1 = (pred L r i).1) {q : ℕ} (h1 : 1 ≤ q)
    (hq : q ≤ L.length) : (elemAt L q).height ≤ ((sl.detach e.id path).forget e.id).level := by
  have hlen := length_insert (L := L) (e := e) hr
  have hlev := hR.level_le
  have hlevel := (detach_fields (hR.unlinked_forward hr hpath)).2.1
  have hdropped := (dropLevels_spec (sl.detach e.id path) (sl.detach e.id path).level).2.2
  rw [hlevel] at hdropped
  have hM := hR.height_le (shift r q) (by unfold shift; split_ifs <;> omega) (hlen ▸ shift_le hq)
  rw [elemAt_shift] at hM
  by_contra hgt
  change ¬ _ ≤ (sl.detach e.id path).dropLevels (sl.detach e.id path).level at hgt
  rw [hlevel] at hgt
  have hnull := hdropped ((elemAt L q).height - 1) (by omega) (by omega)
  obtain ⟨o, ho, hf, -⟩ := hR.removed_link hr hpath (Nat.zero_le _)
    (show (elemAt L q).height - 1 < (elemAt L 0).height by rw [elemAt_zero, headElem_height]; omega)
  rw [forget_lv (hR.removed_id_ne hr (Nat.zero_le _)), elemAt_zero, headElem_id, hnull] at hf
  obtain rfl := Option.map_eq_none_iff.1 hf.symm
  have := ho q (by omega) hq
  omega

/-- The node's own back pointer: the element before it. -/
theorem Rep.removed_own_backward (hR : sl.Rep (L.insertIdx r e)) (hr : r ≤ L.length) :
    (sl.node e.id).backward = if r = 0 then none else some (elemAt L r).id := by
  have hlen := length_insert (L := L) (e := e) hr
  have h := hR.backward (r + 1) (by omega) (by omega)
  rw [elemAt_insert_new hr, Nat.add_sub_cancel, elemAt_insert_le le_rfl] at h
  simpa using h

/-- Only the element after the node gets a new back pointer. -/
theorem Rep.removed_backward (hR : sl.Rep (L.insertIdx r e)) (hr : r ≤ L.length)
    (hpath : ∀ i < sl.level, (path.getD i default).1 = (pred L r i).1) {q : ℕ} (h1 : 1 ≤ q)
    (hq : q ≤ L.length) : (((sl.detach e.id path).forget e.id).node (elemAt L q).id).backward =
      if q = 1 then none else some (elemAt L (q - 1)).id := by
  have hlen := length_insert (L := L) (e := e) hr
  have hxback := hR.removed_own_backward hr
  have halloc : ∀ z, (if r < L.length then some (elemAt L (r + 1)).id else none) = some z →
      sl.heap z ≠ none := by
    intro z hz
    split_ifs at hz with h
    obtain rfl := Option.some.inj hz
    obtain ⟨n, hn, -⟩ := hR.node (shift r (r + 1)) (hlen ▸ shift_le h)
    rw [elemAt_shift] at hn
    simp [hn]
  obtain ⟨-, -, -, -, hback⟩ := detach_fields (hR.unlinked_forward hr hpath)
  rw [forget_node (hR.removed_id_ne hr hq), hback _ halloc]
  by_cases hq' : q = r + 1
  · subst hq'
    have hrn : r < L.length := hq
    rw [if_pos (by rw [if_pos hrn]), hxback, Nat.add_sub_cancel]
    simp
  · rw [if_neg]
    · have hM := hR.backward (shift r q) (by unfold shift; split_ifs <;> omega)
        (hlen ▸ shift_le hq)
      rw [elemAt_shift] at hM
      rw [hM]
      by_cases hqr : q ≤ r
      · rw [shift_of_le hqr, elemAt_insert_le (by omega)]
      · rw [shift_of_lt (by omega), if_neg (by omega), if_neg (by omega),
          show q + 1 - 1 = q - 1 + 1 by omega, elemAt_insert_gt (by omega)]
    · split_ifs with h
      · exact fun he => hq' (hR.shift_id_inj hr hq h (Option.some.inj he).symm)
      · simp

/-- The nodes that stay keep their members, scores and heights. -/
theorem Rep.removed_node (hR : sl.Rep (L.insertIdx r e)) (hr : r ≤ L.length) {q : ℕ}
    (hq : q ≤ L.length) : ∃ n, ((sl.detach e.id path).forget e.id).heap (elemAt L q).id = some n ∧
      n.member = (elemAt L q).member ∧ n.score = (elemAt L q).score ∧
      n.level.length = (elemAt L q).height := by
  have hlen := length_insert (L := L) (e := e) hr
  obtain ⟨m, hm, hc⟩ := hR.node (shift r q) (hlen ▸ shift_le hq)
  rw [elemAt_shift] at hm hc
  have hcore := detach_core sl e.id path (elemAt L q).id
  rw [hm] at hcore
  obtain ⟨n, hn, hc'⟩ := Option.map_eq_some_iff.1 hcore
  simp only [core, Prod.mk.injEq] at hc'
  exact ⟨n, by simpa [forget, Function.update_of_ne (hR.removed_id_ne hr hq)] using hn,
    hc'.1.trans hc.1, hc'.2.1.trans hc.2.1, hc'.2.2.trans hc.2.2⟩

/-- Nothing else is allocated afterwards. -/
theorem Rep.removed_only (hR : sl.Rep (L.insertIdx r e)) (hr : r ≤ L.length) {y : ℕ}
    (hy : ((sl.detach e.id path).forget e.id).heap y ≠ none) :
    ∃ q ≤ L.length, y = (elemAt L q).id := by
  have hlen := length_insert (L := L) (e := e) hr
  have h : y ≠ e.id := by
    rintro rfl
    exact hy (by simp [forget])
  have hy' : sl.heap y ≠ none := by
    intro hn
    have hcore := detach_core sl e.id path y
    rw [hn] at hcore
    exact hy (by simpa [forget, h] using hcore)
  obtain ⟨p, hp, rfl⟩ := hR.only y hy'
  rcases shift_cases (r := r) p with rfl | ⟨q, rfl⟩
  · exact absurd (by rw [elemAt_insert_new hr]) h
  · exact ⟨q, le_of_shift_le hr (hlen ▸ hp), by rw [elemAt_shift]⟩

theorem Rep.removeNode_spec (hR : sl.Rep (L.insertIdx r e)) (hr : r ≤ L.length)
    (hpath : ∀ i < sl.level, (path.getD i default).1 = (pred L r i).1) :
    (sl.removeNode e.id path).Rep L := by
  have hlen := length_insert (L := L) (e := e) hr
  have hpos := hR.level_pos
  obtain ⟨hlength, hlevel, hnext, htail, -⟩ := detach_fields (hR.unlinked_forward hr hpath)
  obtain ⟨hd1, hd2, -⟩ := dropLevels_spec (sl.detach e.id path) (sl.detach e.id path).level
  rw [hlevel] at hd1 hd2
  rw [removeNode_eq]
  constructor
  · change (sl.detach e.id path).length - 1 = _
    rw [hlength, hR.length, hlen, Nat.add_sub_cancel]
  · change 1 ≤ (sl.detach e.id path).dropLevels (sl.detach e.id path).level
    exact hlevel ▸ hd2 hpos
  · change (sl.detach e.id path).dropLevels (sl.detach e.id path).level ≤ _
    exact hlevel ▸ hd1.trans hR.level_le
  · intro q hq
    change _ < (sl.detach e.id path).next
    have := hR.id_lt (shift r q) (hlen ▸ shift_le hq)
    rwa [elemAt_shift, ← hnext] at this
  · exact fun p hp q hq h => hR.shift_id_inj hr hp hq h
  · intro q h1 hq
    have := hR.height_pos (shift r q) (by unfold shift; split_ifs <;> omega) (hlen ▸ shift_le hq)
    rwa [elemAt_shift] at this
  · exact fun q h1 hq => hR.removed_height hr hpath h1 hq
  · exact fun q hq => hR.removed_node hr hq
  · exact fun y hy => hR.removed_only hr hy
  · exact fun q hq i hi => hR.removed_link hr hpath hq hi
  · exact fun q h1 hq => hR.removed_backward hr hpath h1 hq
  · change (sl.detach e.id path).tail = _
    rw [htail]
    by_cases h : r < L.length
    · rw [if_neg (by simp [h]), hR.tail, hlen, if_neg (by omega), if_neg (by omega),
        elemAt_insert_gt h]
    · obtain rfl : r = L.length := by omega
      rw [if_pos (by simp), hR.removed_own_backward le_rfl]

end Removed

/-- `erase` by the path that its search takes. -/
theorem Rep.erase_of_path {member : Bytes} {score : Double} (hR : sl.Rep L) (hr : r ≤ L.length)
    (hdesc : sl.descend (fun n _ => before n member score) sl.level (0, 0) = some ((List.range sl.level).map (entry L r))) :
    if r < L.length ∧ isAt (sl.node (elemAt L (r + 1)).id) member score then
      ∃ sl', sl.erase member score = some (sl', true) ∧ sl'.Rep (L.eraseIdx r)
    else sl.erase member score = some (sl, false) := by
  have hpos := hR.level_pos
  have hpath : ∀ i < sl.level, ((List.range sl.level).map (entry L r)).getD i default = entry L r i :=
    fun i hi => by simp [List.getD, hi]
  unfold erase
  rw [hdesc]
  simp only [Option.bind_eq_bind, Option.bind_some]
  rw [hR.path_zero hr, hR.next_zero hr]
  by_cases h : r < L.length
  · simp only [h, if_true, true_and]
    split_ifs with hat
    · refine ⟨_, rfl, ?_⟩
      have hL : (L.eraseIdx r).insertIdx r L[r] = L := List.insertIdx_eraseIdx_getElem h
      have hlen : (L.eraseIdx r).length + 1 = L.length := by
        rw [List.length_eraseIdx_of_lt h]
        omega
      have helem : (elemAt L (r + 1)).id = L[r].id := by simp [elemAt, List.getD, h]
      rw [helem]
      refine Rep.removeNode_spec (hL.symm ▸ hR) (by omega) fun i hi => ?_
      have hp := pred_insert (L := L.eraseIdx r) (r := r) (e := L[r]) (hi.trans_le hR.level_le)
      rw [hL] at hp
      rw [hpath i hi, entry, hp]
    · rfl
  · simp only [h, if_false, false_and]
    rfl

/-- `erase` deletes the element right after those that come before the pair, if
it is the pair. -/
theorem Rep.erase_spec {member : Bytes} {score : Double} (hR : sl.Rep L) (hr : r ≤ L.length)
    (hgo : ∀ q, 1 ≤ q → q ≤ L.length →
      (before (sl.node (elemAt L q).id) member score = true ↔ q ≤ r)) :
    if r < L.length ∧ isAt (sl.node (elemAt L (r + 1)).id) member score then
      ∃ sl', sl.erase member score = some (sl', true) ∧ sl'.Rep (L.eraseIdx r)
    else sl.erase member score = some (sl, false) :=
  hR.erase_of_path hr (hR.descend_spec hr hgo sl.level 0 le_rfl (Nat.zero_le _) hR.level_le)

end Erase

end BlazeKV.SkipList
