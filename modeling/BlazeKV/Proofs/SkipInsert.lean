import BlazeKV.Proofs.SkipRows
import Mathlib.Data.List.GetD

/-! `insert` puts the new element right after the elements that come before it.
On the levels of the new node the crossing link is cut in two, above them its
span grows by one, and a level the list did not have yet starts at the head. -/

namespace BlazeKV.SkipList

/-- What an update leaves of a node besides its links. -/
def core (n : SkipNode) : Bytes × Double × ℕ := (n.member, n.score, n.level.length)

theorem SameShape.core {a b : SkipList} (h : SameShape a b) (x : ℕ) :
    (a.heap x).map core = (b.heap x).map core := by
  have := congrArg (Option.map fun s : Bytes × Double × Option ℕ × ℕ => (s.1, s.2.1, s.2.2.2))
    (h.heap x)
  rw [Option.map_map, Option.map_map] at this
  exact this

theorem core_setBackward (sl : SkipList) (x y : ℕ) (b : Option ℕ) :
    ((sl.setBackward x b).heap y).map core = (sl.heap y).map core := by
  unfold setBackward modify
  by_cases h : y = x
  · subst h
    cases sl.heap y <;> simp [core]
  · simp [h, Function.update_of_ne]

theorem backward_setBackward (sl : SkipList) (x y : ℕ) (b : Option ℕ) (hx : sl.heap x ≠ none) :
    ((sl.setBackward x b).node y).backward = if y = x then b else (sl.node y).backward := by
  unfold setBackward modify SkipList.node
  by_cases h : y = x
  · subst h
    obtain ⟨n, hn⟩ := Option.ne_none_iff_exists'.1 hx
    simp [hn]
  · simp [h, Function.update_of_ne]

section Path

variable {sl : SkipList} {L : List Elem} {r i lvl : ℕ}

def pred (L : List Elem) (r i : ℕ) : ℕ × ℕ := ((elemAt L (lastTall L i r)).id, lastTall L i r)

/-- What a search records of it: the node and its rank. -/
def entry (L : List Elem) (r i : ℕ) : ℕ × ℕ := ((pred L r i).1, u32 (pred L r i).2)

theorem pred_fst (L : List Elem) (r i : ℕ) : (pred L r i).1 = (elemAt L (pred L r i).2).id := rfl

/-- The arrays `update` and `rank` after the loops of `insert`. -/
theorem Rep.path_getD (hR : sl.Rep L) (hr : r ≤ L.length) (hlvl : lvl ≤ kMaxLevel)
    (hi : i < max sl.level lvl) :
    ((List.range sl.level).map (entry L r) ++ List.replicate (lvl - sl.level) (0, 0)).getD i default
      = entry L r i := by
  by_cases h : i < sl.level
  · rw [List.getD_append _ _ _ _ (by simpa using h)]
    simp [List.getD, h]
  · have h0 := hR.lastTall_high hr (not_lt.1 h) (by omega)
    rw [List.getD_append_right _ _ _ _ (by simpa using h)]
    simp [List.getD, show i - sl.level < lvl - sl.level by omega, entry, pred, h0, u32]

/-- On the lowest level the descent ends at position `r` itself. -/
theorem Rep.path_zero (hR : sl.Rep L) (hr : r ≤ L.length) :
    (((List.range sl.level).map (entry L r)).getD 0 default).1 = (elemAt L r).id := by
  have h : 0 < sl.level := hR.level_pos
  simp [List.getD, h, entry, pred, hR.lastTall_zero hr]

end Path

/-- The links after node `x` of height `lvl` has come in after position `r`. -/
structure Grown (sl sl' : SkipList) (L : List Elem) (r x lvl : ℕ) : Prop where
  new : ∀ i < lvl, sl'.lv x i = ⟨(sl.lv (pred L r i).1 i).forward,
    sub32 (if i < sl.level then (sl.lv (pred L r i).1 i).span else u32 L.length)
      (u32 (r - (pred L r i).2))⟩
  cut : ∀ i < lvl, sl'.lv (pred L r i).1 i = ⟨some x, u32 (r - (pred L r i).2 + 1)⟩
  above : ∀ i, lvl ≤ i → i < sl.level → sl'.lv (pred L r i).1 i =
    ⟨(sl.lv (pred L r i).1 i).forward, u32 ((sl.lv (pred L r i).1 i).span + 1)⟩
  other : ∀ q ≤ L.length, ∀ i < (elemAt L q).height, max sl.level lvl ≤ i ∨ q ≠ (pred L r i).2 →
    sl'.lv (elemAt L q).id i = sl.lv (elemAt L q).id i

theorem Grown.congr {sl a b : SkipList} {L : List Elem} {r x lvl : ℕ} (h : Grown sl a L r x lvl)
    (hlv : ∀ y i, b.lv y i = a.lv y i) : Grown sl b L r x lvl :=
  ⟨fun i hi => (hlv _ _).trans (h.new i hi), fun i hi => (hlv _ _).trans (h.cut i hi),
    fun i h1 h2 => (hlv _ _).trans (h.above i h1 h2),
    fun q hq i hi ho => (hlv _ _).trans (h.other q hq i hi ho)⟩

def raised (sl : SkipList) (lvl : ℕ) : SkipList :=
  ((List.range lvl).drop sl.level).foldl raise sl

def addNode (sl : SkipList) (member : Bytes) (score : Double) (lvl : ℕ) : SkipList :=
  { sl with
    level := max sl.level lvl, next := sl.next + 1
    heap := Function.update sl.heap sl.next (some (emptyNode member score lvl)) }

/-- The two loops over the levels of the new node and those above it. -/
def splice (sl : SkipList) (x : ℕ) (path : List (ℕ × ℕ)) (lvl : ℕ) : SkipList :=
  let linked := (List.range lvl).foldl (link x path) sl
  ((List.range linked.level).drop lvl).foldl (stretch path) linked

/-- The rest of `insert`: the backward links, the tail and the length. -/
def attach (sl : SkipList) (x u : ℕ) : SkipList :=
  let sl := sl.setBackward x (if u = 0 then none else some u)
  let sl := match (sl.lv x 0).forward with
    | some y => sl.setBackward y (some x)
    | none => { sl with tail := some x }
  { sl with length := sl.length + 1 }

theorem insert_eq (sl : SkipList) (member : Bytes) (score : Double) (lvl : ℕ) :
    sl.insert member score lvl =
      (sl.descend (fun n _ => before n member score) sl.level (0, 0)).map fun path =>
        let path := path ++ List.replicate (lvl - sl.level) (0, 0)
        let x := (raised sl lvl).next
        attach (splice ((raised sl lvl).addNode member score lvl) x path lvl) x
          (path.getD 0 default).1 := by
  unfold insert
  cases sl.descend (fun n _ => before n member score) sl.level (0, 0) <;> rfl

theorem mem_drop_range {i m n : ℕ} : i ∈ (List.range n).drop m ↔ m ≤ i ∧ i < n := by
  constructor
  · intro h
    obtain ⟨k, hk, rfl⟩ := List.mem_iff_getElem.1 h
    rw [List.length_drop, List.length_range] at hk
    simp only [List.getElem_drop, List.getElem_range]
    omega
  · intro h
    refine List.mem_iff_getElem.2 ⟨i - m, ?_, ?_⟩
    · rw [List.length_drop, List.length_range]
      omega
    · simp only [List.getElem_drop, List.getElem_range]
      omega

theorem nodup_drop_range (m n : ℕ) : ((List.range n).drop m).Nodup :=
  (List.drop_sublist _ _).nodup List.nodup_range

section Stages

variable {sl : SkipList} {x lvl : ℕ} {path : List (ℕ × ℕ)} {member : Bytes} {score : Double}

theorem raised_shape : SameShape sl (raised sl lvl) :=
  (rowOp_raise.foldl _ (nodup_drop_range _ _) sl).1

theorem raised_lv (y i : ℕ) : (raised sl lvl).lv y i =
    if y = 0 ∧ sl.level ≤ i ∧ i < lvl ∧ i < (sl.node 0).level.length
      then ⟨(sl.lv 0 i).forward, u32 sl.length⟩ else sl.lv y i := by
  rw [raised, (rowOp_raise.foldl _ (nodup_drop_range _ _) sl).2 y i, raise, lv_setLv]
  simp only [mem_drop_range]
  split_ifs <;> tauto

theorem addNode_lv (y i : ℕ) :
    (sl.addNode member score lvl).lv y i = if y = sl.next then ⟨none, 0⟩ else sl.lv y i := by
  by_cases h : y = sl.next
  · subst h
    by_cases hi : i < lvl <;> simp [lv, SkipList.node, addNode, emptyNode, List.getD, hi]; rfl
  · simp [lv, SkipList.node, addNode, h, Function.update_of_ne]

theorem addNode_node {y : ℕ} (h : y ≠ sl.next) :
    (sl.addNode member score lvl).node y = sl.node y := by
  simp [SkipList.node, addNode, h, Function.update_of_ne]

theorem addNode_shape (y : ℕ) : ((sl.addNode member score lvl).heap y).map shape =
    if y = sl.next then some (member, score, none, lvl) else (sl.heap y).map shape := by
  by_cases h : y = sl.next
  · subst h
    simp [addNode, shape, emptyNode]
  · simp [addNode, h, Function.update_of_ne]

theorem link_lv (y i : ℕ) (hx : i < (sl.node x).level.length)
    (hu : i < (sl.node (path.getD i default).1).level.length) : (link x path sl i).lv y i =
      let (u, r) := path.getD i default
      let skipped := sub32 (path.getD 0 default).2 r
      if y = u then ⟨some x, u32 (skipped + 1)⟩
      else if y = x then ⟨(sl.lv u i).forward, sub32 (sl.lv u i).span skipped⟩ else sl.lv y i := by
  have hs := (sameShape_setLv sl x i ⟨(sl.lv (path.getD i default).1 i).forward, sub32
    (sl.lv (path.getD i default).1 i).span
      (sub32 (path.getD 0 default).2 (path.getD i default).2)⟩).length_level
  rw [link, lv_setLv, lv_setLv, ← hs]
  simp only [hx, hu, and_true]

theorem stretch_lv (y i : ℕ) (hu : i < (sl.node (path.getD i default).1).level.length) :
    (stretch path sl i).lv y i =
      let u := (path.getD i default).1
      if y = u then { sl.lv u i with span := u32 ((sl.lv u i).span + 1) } else sl.lv y i := by
  rw [stretch, lv_setLv]
  simp only [hu, and_true]

theorem addNode_core (y : ℕ) : ((sl.addNode member score lvl).heap y).map core =
    if y = sl.next then some (member, score, lvl) else (sl.heap y).map core := by
  by_cases h : y = sl.next
  · subst h
    simp [addNode, core, emptyNode]
  · simp [addNode, h, Function.update_of_ne]

theorem splice_shape : SameShape sl (splice sl x path lvl) :=
  ((rowOp_link x path).foldl _ List.nodup_range sl).1.trans
    ((rowOp_stretch path).foldl _ (nodup_drop_range _ _) _).1

theorem splice_lv (y i : ℕ) : (splice sl x path lvl).lv y i =
    if i < lvl then (link x path sl i).lv y i
    else if i < sl.level then (stretch path sl i).lv y i else sl.lv y i := by
  obtain ⟨hs, hl⟩ := (rowOp_link x path).foldl _ (List.nodup_range (n := lvl)) sl
  simp only [List.mem_range] at hl
  rw [splice, ((rowOp_stretch path).foldl _ (nodup_drop_range _ _) _).2 y i]
  simp only [mem_drop_range, hs.level, hl]
  by_cases h : i < lvl
  · simp [h, not_le.2 h]
  · rw [(rowOp_stretch path).row _ sl i hs.symm (fun y => by rw [hl, if_neg h]) y]
    simp [h, not_lt.1 h]

theorem attach_lv (u y i : ℕ) : (attach sl x u).lv y i = sl.lv y i := by
  unfold attach
  dsimp only
  split
  · exact (lv_setBackward _ _ _ _ _).trans (lv_setBackward _ _ _ _ _)
  · exact lv_setBackward _ _ _ _ _

theorem attach_core (u y : ℕ) : ((attach sl x u).heap y).map core = (sl.heap y).map core := by
  unfold attach
  dsimp only
  split
  · exact (core_setBackward _ _ _ _).trans (core_setBackward _ _ _ _)
  · exact core_setBackward _ _ _ _

theorem attach_fields (sl : SkipList) (x u : ℕ) : (attach sl x u).length = sl.length + 1 ∧
    (attach sl x u).level = sl.level ∧ (attach sl x u).next = sl.next ∧
    (attach sl x u).tail = if (sl.lv x 0).forward = none then some x else sl.tail := by
  simp only [attach, lv_setBackward]
  cases (sl.lv x 0).forward <;> exact ⟨rfl, rfl, rfl, rfl⟩

theorem attach_backward (sl : SkipList) (x u y : ℕ) (hx : sl.heap x ≠ none)
    (hf : ∀ y, (sl.lv x 0).forward = some y → sl.heap y ≠ none) :
    ((attach sl x u).node y).backward =
      if (sl.lv x 0).forward = some y then some x
      else if y = x then (if u = 0 then none else some u) else (sl.node y).backward := by
  simp only [attach, lv_setBackward]
  rw [← backward_setBackward sl x y _ hx]
  cases h : (sl.lv x 0).forward with
  | none => simp [SkipList.node]
  | some z =>
    have hz : (sl.setBackward x (if u = 0 then none else some u)).heap z ≠ none := by
      intro hn
      have hc := core_setBackward sl x z (if u = 0 then none else some u)
      rw [hn] at hc
      exact hf z h (Option.map_eq_none_iff.1 hc.symm)
    simp only [Option.some.injEq, eq_comm (a := z)]
    exact backward_setBackward _ z y (some x) hz

end Stages

theorem length_of_shape {sl : SkipList} {y : ℕ} {s : Bytes × Double × Option ℕ × ℕ}
    (h : (sl.heap y).map shape = some s) : (sl.node y).level.length = s.2.2.2 := by
  obtain ⟨n, hn, rfl⟩ := Option.map_eq_some_iff.1 h
  simp [SkipList.node, hn, shape]

section Links

variable {sl : SkipList} {L : List Elem} {r lvl : ℕ} {path : List (ℕ × ℕ)} {member : Bytes}
  {score : Double}

theorem Rep.raised_pred (hR : sl.Rep L) (hr : r ≤ L.length) (hlvl : lvl ≤ kMaxLevel) {i : ℕ}
    (hi : i < max sl.level lvl) : (raised sl lvl).lv (pred L r i).1 i =
      ⟨(sl.lv (pred L r i).1 i).forward,
        if i < sl.level then (sl.lv (pred L r i).1 i).span else u32 L.length⟩ := by
  rw [raised_lv]
  by_cases h : i < sl.level
  · rw [if_neg (by omega), if_pos h]
  · have h0 := hR.lastTall_high hr (not_lt.1 h) (by omega)
    have hlen : (sl.node 0).level.length = kMaxLevel := (hR.node_eq (Nat.zero_le _)).2.2
    have hp : (pred L r i).1 = 0 := by rw [pred, h0]; rfl
    rw [hp, if_pos ⟨rfl, by omega, by omega, by omega⟩, if_neg h, hR.length]

theorem Rep.splice_grown (hR : sl.Rep L) (hr : r ≤ L.length) (hlvl : lvl ≤ kMaxLevel)
    (hpath : ∀ i < max sl.level lvl, path.getD i default = entry L r i) :
    Grown sl (splice ((raised sl lvl).addNode member score lvl) sl.next path lvl) L r sl.next
      lvl := by
  have hne : ∀ q ≤ L.length, (elemAt L q).id ≠ sl.next := fun q hq => (hR.id_lt q hq).ne
  have hnext : (raised sl lvl).next = sl.next := raised_shape.next
  have hple : ∀ i, (pred L r i).2 ≤ r := fun i => lastTall_le
  have hpne : ∀ i, (pred L r i).1 ≠ sl.next := fun i => hne _ (lastTall_le.trans hr)
  have hskip : ∀ i < max sl.level lvl,
      sub32 (path.getD 0 default).2 (path.getD i default).2 = u32 (r - (pred L r i).2) := by
    intro i hi
    have h0 : (pred L r 0).2 = r := hR.lastTall_zero hr
    rw [hpath 0 (by omega), hpath i hi, entry, entry, h0, sub32_u32 (hple i)]
  set A := (raised sl lvl).addNode member score lvl with hA
  have hlevel : A.level = max sl.level lvl := by rw [hA, addNode, raised_shape.level]
  have hlenx : (A.node sl.next).level.length = lvl :=
    length_of_shape (s := (member, score, none, lvl)) (by rw [addNode_shape, hnext, if_pos rfl])
  have hlen : ∀ q ≤ L.length, (A.node (elemAt L q).id).level.length = (elemAt L q).height := by
    intro q hq
    rw [hA, addNode_node (by rw [hnext]; exact hne q hq), ← raised_shape.length_level,
      (hR.node_eq hq).2.2]
  have hlv : ∀ q ≤ L.length, ∀ i, A.lv (elemAt L q).id i = (raised sl lvl).lv (elemAt L q).id i := by
    intro q hq i
    rw [addNode_lv, hnext, if_neg (hne q hq)]
  have htall : ∀ i < max sl.level lvl, i < (elemAt L (pred L r i).2).height := fun i hi =>
    lastTall_tall (by have := hR.level_le; omega)
  have hupd : ∀ i < max sl.level lvl,
      i < (A.node (path.getD i default).1).level.length := by
    intro i hi
    rw [hpath i hi]
    exact (htall i hi).trans_eq (hlen _ (lastTall_le.trans hr)).symm
  have hold : ∀ i < max sl.level lvl, A.lv (pred L r i).1 i =
      ⟨(sl.lv (pred L r i).1 i).forward,
        if i < sl.level then (sl.lv (pred L r i).1 i).span else u32 L.length⟩ := fun i hi =>
    (hlv _ (lastTall_le.trans hr) i).trans (hR.raised_pred hr hlvl hi)
  refine ⟨fun i hi => ?_, fun i hi => ?_, fun i h1 h2 => ?_, fun q hq i hi h => ?_⟩
  · rw [splice_lv, if_pos hi, link_lv _ _ (by omega) (hupd i (by omega))]
    simp only [hskip i (by omega)]
    rw [hpath i (by omega), entry, if_neg (hpne i).symm, if_pos trivial, hold i (by omega)]
  · rw [splice_lv, if_pos hi, link_lv _ _ (by omega) (hupd i (by omega))]
    simp only [hskip i (by omega)]
    rw [hpath i (by omega), entry, if_pos rfl, u32_u32_add]
  · rw [splice_lv, if_neg (by omega), if_pos (by omega), stretch_lv _ _ (hupd i (by omega))]
    rw [hpath i (by omega), entry]
    dsimp only
    rw [if_pos rfl, hold i (by omega), if_pos h2]
  · have hpred : i < max sl.level lvl → (elemAt L q).id ≠ (pred L r i).1 := fun hlt he =>
      (h.resolve_left (by omega)) (hR.id_inj q hq _ (lastTall_le.trans hr) he)
    have hkeep : A.lv (elemAt L q).id i = sl.lv (elemAt L q).id i := by
      rw [hlv q hq, raised_lv, if_neg]
      rintro ⟨h0, h1, h2, -⟩
      refine hpred (by omega) (h0.trans ?_)
      rw [pred, hR.lastTall_high hr h1 (by omega)]
      rfl
    rw [splice_lv, hlevel]
    split_ifs with h1 h2
    · rw [link_lv _ _ (by omega) (hupd i (by omega))]
      dsimp only
      rw [hpath i (by omega), entry, if_neg (hpred (by omega)), if_neg (hne q hq), hkeep]
    · rw [stretch_lv _ _ (hupd i (by omega)), hpath i (by omega), entry]
      dsimp only
      rw [if_neg (hpred (by omega)), hkeep]
    · exact hkeep

end Links

section Insert

variable {sl sl' : SkipList} {L : List Elem} {r lvl : ℕ} {e : Elem}

theorem map_shift_id (o : Option ℕ) :
    (o.map (shift r)).map (fun p => (elemAt (L.insertIdx r e) p).id) =
      o.map fun p => (elemAt L p).id := by
  simp only [Option.map_map, Function.comp_def, elemAt_shift]

theorem getD_shift_crossing (hr : r ≤ L.length) {i : ℕ} {o : Option ℕ}
    (h : IsNext L i (pred L r i).2 o) :
    r ≤ o.getD L.length ∧ (o.map (shift r)).getD (L.length + 1) = o.getD L.length + 1 := by
  cases o with
  | none => exact ⟨hr, rfl⟩
  | some p =>
    have := lt_of_isNext h
    exact ⟨this.le, shift_of_lt this⟩

theorem getD_shift_sub {i q : ℕ} {o : Option ℕ} (hi : i < (elemAt L q).height)
    (hq : q ≠ (pred L r i).2) (hr : r ≤ L.length) (h : IsNext L i q o) :
    (o.map (shift r)).getD (L.length + 1) - shift r q = o.getD L.length - q := by
  by_cases hqr : q ≤ r
  · -- the next tall position is no further than the last one up to `r`
    have hlt : q < (pred L r i).2 := lt_of_le_of_ne (le_lastTall hi hqr) hq
    have hple : (pred L r i).2 ≤ r := lastTall_le
    have htall : i < (elemAt L (pred L r i).2).height :=
      Nat.findGreatest_spec (P := fun u => i < (elemAt L u).height) hqr hi
    cases o with
    | none => exact absurd (h _ hlt (by omega)) (not_le.2 htall)
    | some p =>
      have hp : p ≤ (pred L r i).2 := not_lt.1 fun hlt' => not_le.2 htall (h.2.2.2 _ hlt hlt')
      simp [shift_of_le hqr, shift_of_le (hp.trans hple)]
  · cases o with
    | none => simp [shift_of_lt (not_le.1 hqr)]
    | some p => simp [shift_of_lt (not_le.1 hqr), shift_of_lt ((not_le.1 hqr).trans h.1)]

theorem Rep.next_high (hR : sl.Rep L) {i q : ℕ} {o : Option ℕ} (hi : sl.level ≤ i)
    (h : IsNext L i q o) : o = none := by
  cases o with
  | none => rfl
  | some p =>
    have := hR.height_le p (by have := h.1; omega) h.2.1
    have := h.2.2.1
    omega

theorem Rep.tall_high (hR : sl.Rep L) {i q : ℕ} (hi : sl.level ≤ i) (hq : q ≤ L.length)
    (h : i < (elemAt L q).height) : q = 0 := by
  by_contra h0
  have := hR.height_le q (by omega) hq
  omega

theorem Rep.grown_new (hR : sl.Rep L) (hr : r ≤ L.length)
    (hG : Grown sl sl' L r e.id e.height) (hh : e.height ≤ kMaxLevel) {i : ℕ} (hi : i < e.height) :
    sl'.GoodLink (L.insertIdx r e) (r + 1) i := by
  obtain ⟨o, ho, hf, hspan⟩ := hR.link (pred L r i).2 (lastTall_le.trans hr) i
    (lastTall_tall (by omega))
  obtain ⟨hge, hshift⟩ := getD_shift_crossing hr ho
  have hple : (pred L r i).2 ≤ r := lastTall_le
  have hD : (if i < sl.level then (sl.lv (pred L r i).1 i).span else u32 L.length) =
      u32 (o.getD L.length - (pred L r i).2) := by
    split_ifs with h
    · exact hspan h
    · have h0 : (pred L r i).2 = 0 := hR.lastTall_high hr (not_lt.1 h) (by omega)
      rw [hR.next_high (not_lt.1 h) ho, h0]
      rfl
  have hoD : o.getD L.length ≤ L.length := by
    cases o with
    | none => exact le_rfl
    | some p => exact ho.2.1
  refine ⟨o.map (shift r), isNext_new hr ho, ?_, fun _ => ?_⟩
  · rw [map_shift_id, elemAt_insert_new hr, hG.new i hi, ← hf]
    rfl
  · rw [elemAt_insert_new hr, hG.new i hi, length_insert hr, hshift, hD]
    dsimp only
    rw [sub32_u32 (by omega)]
    exact congrArg u32 (by omega)

theorem Rep.grown_link (hR : sl.Rep L) (hr : r ≤ L.length)
    (hG : Grown sl sl' L r e.id e.height) (hlevel : sl'.level = max sl.level e.height)
    (hh : e.height ≤ kMaxLevel) (p : ℕ)
    (hp : p ≤ L.length + 1) (i : ℕ) (hi : i < (elemAt (L.insertIdx r e) p).height) :
    sl'.GoodLink (L.insertIdx r e) p i := by
  have hlen := length_insert (L := L) (e := e) hr
  have hple : (pred L r i).2 ≤ r := lastTall_le
  rcases shift_cases (r := r) p with rfl | ⟨q, rfl⟩
  · rw [elemAt_insert_new hr] at hi
    exact hR.grown_new hr hG hh hi
  have hq := le_of_shift_le hr hp
  rw [elemAt_shift] at hi
  obtain ⟨o, ho, hf, hspan⟩ := hR.link q hq i hi
  by_cases hqp : q = (pred L r i).2
  · subst hqp
    by_cases hl : i < e.height
    · refine ⟨some (r + 1), ?_, ?_⟩
      · rw [shift_of_le hple]
        exact isNext_pred hr hl
      · rw [elemAt_shift, show (elemAt L (pred L r i).2).id = (pred L r i).1 from rfl, hG.cut i hl,
          shift_of_le hple, Option.map_some, elemAt_insert_new hr, Option.getD_some]
        exact ⟨rfl, fun _ => congrArg u32 (Nat.sub_add_comm hple).symm⟩
    · obtain ⟨hge, hshift⟩ := getD_shift_crossing hr ho
      refine ⟨o.map (shift r), isNext_shift hr hi (Or.inr (not_lt.1 hl)) ho, ?_, fun hlt => ?_⟩
      · rw [map_shift_id, ← hf, elemAt_shift]
        by_cases hlt : i < sl.level
        · exact (congrArg Level.forward (hG.above i (not_lt.1 hl) hlt) :)
        · rw [hG.other _ hq i hi (Or.inl (by omega))]
      · have hs := hspan (by omega)
        have ha := hG.above i (not_lt.1 hl) (by omega)
        have hoD : o.getD L.length ≤ L.length := by
          cases o with
          | none => exact le_rfl
          | some p => exact ho.2.1
        rw [elemAt_shift, show (elemAt L (pred L r i).2).id = (pred L r i).1 from rfl, ha, hlen,
          hshift, shift_of_le hple]
        have hspan' : (sl.lv (pred L r i).1 i).span = u32 (o.getD L.length - (pred L r i).2) := hs
        dsimp only
        rw [hspan', u32_u32_add]
        exact congrArg u32 (by omega)
  · refine ⟨o.map (shift r), isNext_shift hr hi (Or.inl hqp) ho, ?_, fun hlt => ?_⟩
    · rw [map_shift_id, ← hf, elemAt_shift, hG.other q hq i hi (Or.inr hqp)]
    · rw [hlen, getD_shift_sub hi hqp hr ho, elemAt_shift, hG.other q hq i hi (Or.inr hqp)]
      apply hspan
      by_contra hlv
      have h0 := hR.tall_high (not_lt.1 hlv) hq hi
      have h0' : (pred L r i).2 = 0 := hR.lastTall_high hr (not_lt.1 hlv) (by omega)
      exact hqp (h0.trans h0'.symm)

theorem shift_pos {q : ℕ} (h : 1 ≤ shift r q) : 1 ≤ q := by
  unfold shift at h
  split_ifs at h <;> omega

theorem shift_inj {p q : ℕ} (h : shift r p = shift r q) : p = q := by
  unfold shift at h
  split_ifs at h <;> omega

/-- The neighbours on level zero are the neighbours in the list. -/
theorem Rep.next_zero (hR : sl.Rep L) {q : ℕ} (hq : q ≤ L.length) :
    (sl.lv (elemAt L q).id 0).forward =
      if q < L.length then some (elemAt L (q + 1)).id else none := by
  have hz : 0 < (elemAt L q).height := by
    rcases Nat.eq_zero_or_pos q with rfl | h
    · exact Nat.zero_lt_succ _
    · exact hR.height_pos q h hq
  obtain ⟨o, ho, hf, -⟩ := hR.link q hq 0 hz
  rw [hf]
  by_cases h : q < L.length
  · have hn : IsNext L 0 q (some (q + 1)) :=
      ⟨by omega, by omega, hR.height_pos _ (by omega) (by omega), by omega⟩
    simp [ho.unique hn, h]
  · have hn : IsNext L 0 q none := fun p h1 h2 => absurd h1 (by omega)
    simp [ho.unique hn, h]

/-- Distinct elements keep distinct nodes: the new one has a fresh id. -/
theorem Rep.grown_inj (hR : sl.Rep L) (hr : r ≤ L.length) (he : e.id = sl.next) {p q : ℕ}
    (hp : p ≤ L.length + 1) (hq : q ≤ L.length + 1)
    (h : (elemAt (L.insertIdx r e) p).id = (elemAt (L.insertIdx r e) q).id) : p = q := by
  have hne : ∀ q ≤ L.length, (elemAt L q).id ≠ e.id := fun q hq => he ▸ (hR.id_lt q hq).ne
  rcases shift_cases (r := r) p with rfl | ⟨p, rfl⟩ <;>
    rcases shift_cases (r := r) q with rfl | ⟨q, rfl⟩
  · rfl
  · rw [elemAt_insert_new hr, elemAt_shift] at h
    exact absurd h.symm (hne q (le_of_shift_le hr hq))
  · rw [elemAt_insert_new hr, elemAt_shift] at h
    exact absurd h (hne p (le_of_shift_le hr hp))
  · rw [elemAt_shift, elemAt_shift] at h
    rw [hR.id_inj p (le_of_shift_le hr hp) q (le_of_shift_le hr hq) h]

/-- The nodes in place keep their members, scores and heights, and the new one has its own. -/
theorem Rep.grown_node (hR : sl.Rep L) (hr : r ≤ L.length) (he : e.id = sl.next)
    (hcore : ∀ y, (sl'.heap y).map core =
      if y = e.id then some (e.member, e.score, e.height) else (sl.heap y).map core) {p : ℕ}
    (hp : p ≤ L.length + 1) : ∃ n, sl'.heap (elemAt (L.insertIdx r e) p).id = some n ∧
      n.member = (elemAt (L.insertIdx r e) p).member ∧ n.score = (elemAt (L.insertIdx r e) p).score ∧
      n.level.length = (elemAt (L.insertIdx r e) p).height := by
  rcases shift_cases (r := r) p with rfl | ⟨q, rfl⟩
  · obtain ⟨n, hn, hc⟩ := Option.map_eq_some_iff.1 ((hcore e.id).trans (if_pos rfl))
    rw [elemAt_insert_new hr]
    exact ⟨n, hn, by simpa [core] using hc⟩
  · have hq := le_of_shift_le hr hp
    obtain ⟨m, hm, hc⟩ := hR.node q hq
    have := (hcore (elemAt L q).id).trans (if_neg (he ▸ (hR.id_lt q hq).ne))
    rw [hm] at this
    obtain ⟨n, hn, hc'⟩ := Option.map_eq_some_iff.1 this
    rw [elemAt_shift]
    simp only [core, Prod.mk.injEq] at hc'
    exact ⟨n, hn, hc'.1.trans hc.1, hc'.2.1.trans hc.2.1, hc'.2.2.trans hc.2.2⟩

/-- Only the new node and the element after it have other back pointers than before. -/
theorem Rep.grown_backward (hR : sl.Rep L) (hr : r ≤ L.length)
    (hbnew : (sl'.node e.id).backward = if r = 0 then none else some (elemAt L r).id)
    (hbnext : r < L.length → (sl'.node (elemAt L (r + 1)).id).backward = some e.id)
    (hbold : ∀ q ≤ L.length, q ≠ r + 1 →
      (sl'.node (elemAt L q).id).backward = (sl.node (elemAt L q).id).backward) {p : ℕ}
    (hp1 : 1 ≤ p) (hp : p ≤ L.length + 1) :
    (sl'.node (elemAt (L.insertIdx r e) p).id).backward =
      if p = 1 then none else some (elemAt (L.insertIdx r e) (p - 1)).id := by
  rcases shift_cases (r := r) p with rfl | ⟨q, rfl⟩
  · rw [elemAt_insert_new hr, hbnew, Nat.add_sub_cancel, elemAt_insert_le le_rfl]
    simp
  · have hq1 := shift_pos hp1
    have hq := le_of_shift_le hr hp
    rw [elemAt_shift]
    rcases lt_trichotomy q (r + 1) with h | rfl | h
    · rw [shift_of_le (by omega), elemAt_insert_le (by omega), hbold q hq (by omega),
        hR.backward q hq1 hq]
    · rw [shift_of_lt (by omega), hbnext (by omega), if_neg (by omega), Nat.add_sub_cancel,
        elemAt_insert_new hr]
    · rw [shift_of_lt (by omega), hbold q hq (by omega), hR.backward q hq1 hq, if_neg (by omega),
        if_neg (by omega), show q + 1 - 1 = q - 1 + 1 by omega, elemAt_insert_gt (by omega)]

theorem Rep.of_grown (hR : sl.Rep L) (hr : r ≤ L.length)
    (h1 : 1 ≤ e.height) (hh : e.height ≤ kMaxLevel) (he : e.id = sl.next)
    (hG : Grown sl sl' L r e.id e.height) (hlength : sl'.length = sl.length + 1)
    (hlevel : sl'.level = max sl.level e.height) (hnext : sl'.next = sl.next + 1)
    (hcore : ∀ y, (sl'.heap y).map core =
      if y = e.id then some (e.member, e.score, e.height) else (sl.heap y).map core)
    (hbnew : (sl'.node e.id).backward = if r = 0 then none else some (elemAt L r).id)
    (hbnext : r < L.length → (sl'.node (elemAt L (r + 1)).id).backward = some e.id)
    (hbold : ∀ q ≤ L.length, q ≠ r + 1 →
      (sl'.node (elemAt L q).id).backward = (sl.node (elemAt L q).id).backward)
    (htail : sl'.tail = if r < L.length then sl.tail else some e.id) :
    sl'.Rep (L.insertIdx r e) := by
  have hlen := length_insert (L := L) (e := e) hr
  constructor
  · rw [hlength, hR.length, hlen]
  · exact hlevel ▸ le_max_of_le_left hR.level_pos
  · exact hlevel ▸ max_le hR.level_le hh
  · intro p hp
    rw [hlen] at hp
    rcases shift_cases (r := r) p with rfl | ⟨q, rfl⟩
    · rw [elemAt_insert_new hr, he, hnext]
      omega
    · rw [elemAt_shift, hnext]
      exact (hR.id_lt q (le_of_shift_le hr hp)).trans (Nat.lt_succ_self _)
  · exact fun p hp q hq h => hR.grown_inj hr he (hlen ▸ hp) (hlen ▸ hq) h
  · intro p hp1 hp
    rw [hlen] at hp
    rcases shift_cases (r := r) p with rfl | ⟨q, rfl⟩
    · rwa [elemAt_insert_new hr]
    · rw [elemAt_shift]
      exact hR.height_pos q (shift_pos hp1) (le_of_shift_le hr hp)
  · intro p hp1 hp
    rw [hlen] at hp
    rw [hlevel]
    rcases shift_cases (r := r) p with rfl | ⟨q, rfl⟩
    · rw [elemAt_insert_new hr]
      exact le_max_right _ _
    · rw [elemAt_shift]
      exact le_max_of_le_left (hR.height_le q (shift_pos hp1) (le_of_shift_le hr hp))
  · exact fun p hp => hR.grown_node hr he hcore (hlen ▸ hp)
  · intro y hy
    rw [hlen]
    by_cases h : y = e.id
    · exact ⟨r + 1, by omega, by rw [h, elemAt_insert_new hr]⟩
    · have hy' : sl.heap y ≠ none := by
        intro hn
        have := (hcore y).trans (if_neg h)
        rw [hn] at this
        exact hy (Option.map_eq_none_iff.1 this)
      obtain ⟨q, hq, rfl⟩ := hR.only y hy'
      exact ⟨shift r q, shift_le hq, by rw [elemAt_shift]⟩
  · intro p hp i hi
    exact hR.grown_link hr hG hlevel hh p (hlen ▸ hp) i hi
  · exact fun p hp1 hp => hR.grown_backward hr hbnew hbnext hbold hp1 (hlen ▸ hp)
  · rw [htail, hlen, if_neg (Nat.succ_ne_zero _)]
    by_cases h : r < L.length
    · rw [if_pos h, elemAt_insert_gt h, hR.tail, if_neg (by omega)]
    · obtain rfl : r = L.length := by omega
      rw [if_neg h, elemAt_insert_new hr]

theorem Rep.insert_of_path {member : Bytes} {score : Double} (hR : sl.Rep L) (hr : r ≤ L.length)
    (h1 : 1 ≤ lvl) (hlvl : lvl ≤ kMaxLevel)
    (hdesc : sl.descend (fun n _ => before n member score) sl.level (0, 0) = some ((List.range sl.level).map (entry L r))) :
    ∃ sl', sl.insert member score lvl = some sl' ∧
      sl'.Rep (L.insertIdx r ⟨sl.next, member, score, lvl⟩) := by
  have hpath := fun i => hR.path_getD (i := i) hr hlvl
  have hx : (raised sl lvl).next = sl.next := raised_shape.next
  have hne : ∀ q ≤ L.length, (elemAt L q).id ≠ sl.next := fun q hq => (hR.id_lt q hq).ne
  have hpos := hR.level_pos
  have hp0 : pred L r 0 = ((elemAt L r).id, r) := by rw [pred, hR.lastTall_zero hr]
  have he0 : (entry L r 0).1 = (elemAt L r).id := by rw [entry, hp0]
  refine ⟨_, by rw [insert_eq]; exact congrArg _ hdesc, ?_⟩
  have hG : Grown sl (splice ((raised sl lvl).addNode member score lvl) sl.next _ lvl) L r sl.next
      lvl := hR.splice_grown hr hlvl hpath
  dsimp only
  rw [hpath 0 (by omega), he0, hx]
  set s := splice ((raised sl lvl).addNode member score lvl) sl.next
    ((List.range sl.level).map (entry L r) ++ List.replicate (lvl - sl.level) (0, 0)) lvl with hs
  have hraised : SameShape sl (raised sl lvl) := raised_shape
  have hshape : SameShape ((raised sl lvl).addNode member score lvl) s := splice_shape
  have hcore : ∀ y, (s.heap y).map core =
      if y = sl.next then some (member, score, lvl) else (sl.heap y).map core := fun y => by
    rw [← hshape.core, addNode_core, hx, hraised.core y]
  have halloc : ∀ y, s.heap y = none ↔ y ≠ sl.next ∧ sl.heap y = none := by
    intro y
    rw [← Option.map_eq_none_iff (f := core), hcore]
    split_ifs with h <;> simp [h]
  have hmem : ∀ q ≤ L.length, sl.heap (elemAt L q).id ≠ none := fun q hq => by
    obtain ⟨n, hn, -⟩ := hR.node q hq
    simp [hn]
  have hfwd : (s.lv sl.next 0).forward = if r < L.length then some (elemAt L (r + 1)).id else none := by
    rw [hG.new 0 h1, hp0]
    exact hR.next_zero hr
  have hback : ∀ q ≤ L.length, (s.node (elemAt L q).id).backward =
      (sl.node (elemAt L q).id).backward := by
    intro q hq
    have h1 := congrArg (fun n => n.2.2.1) (hshape.node (elemAt L q).id)
    rw [addNode_node (by rw [hx]; exact hne q hq)] at h1
    exact h1.symm.trans (congrArg (fun n => n.2.2.1) (hraised.node (elemAt L q).id)).symm
  obtain ⟨hlength, hlevel, hnext, htail⟩ := attach_fields s sl.next (elemAt L r).id
  have hb := fun y => attach_backward s sl.next (elemAt L r).id y (by simp [halloc])
    (fun y hy => by
      rw [hfwd] at hy
      split_ifs at hy with h
      obtain rfl := Option.some.inj hy
      exact fun hn => hmem (r + 1) h ((halloc _).1 hn).2)
  apply hR.of_grown hr h1 hlvl rfl (hG.congr (attach_lv _))
  · rw [hlength, hshape.length]
    exact congrArg (· + 1) raised_shape.length
  · rw [hlevel, hshape.level, addNode, raised_shape.level]
  · rw [hnext, hshape.next, addNode, hx]
  · intro y
    rw [attach_core, hcore]
  · dsimp only
    rw [hb, hfwd, if_neg, if_pos rfl]
    · simp only [hR.id_eq_zero hr]
    · split_ifs with h
      · exact fun he => hne (r + 1) h (Option.some.inj he)
      · simp
  · intro h
    dsimp only
    rw [hb, hfwd, if_pos h, if_pos rfl]
  · intro q hq hqr
    rw [hb, hfwd, if_neg, if_neg (hne q hq), hback q hq]
    split_ifs with h
    · exact fun he => hqr (hR.id_inj (r + 1) h q hq (Option.some.inj he)).symm
    · simp
  · rw [htail, hfwd, hshape.tail, addNode, raised_shape.tail]
    by_cases h : r < L.length <;> simp [h]

/-- `insert` puts the element after those that come before the pair, in whatever order the list is
where these come first. -/
theorem Rep.insert_spec {member : Bytes} {score : Double} (hR : sl.Rep L) (hr : r ≤ L.length)
    (h1 : 1 ≤ lvl) (hlvl : lvl ≤ kMaxLevel)
    (hgo : ∀ q, 1 ≤ q → q ≤ L.length →
      (before (sl.node (elemAt L q).id) member score = true ↔ q ≤ r)) :
    ∃ sl', sl.insert member score lvl = some sl' ∧
      sl'.Rep (L.insertIdx r ⟨sl.next, member, score, lvl⟩) :=
  hR.insert_of_path hr h1 hlvl (hR.descend_spec hr hgo sl.level 0 le_rfl (Nat.zero_le _) hR.level_le)

end Insert

end BlazeKV.SkipList
