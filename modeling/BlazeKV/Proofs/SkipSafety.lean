import BlazeKV.Proofs.SkipErase
import BlazeKV.Spec.Checked.SkipList

/-! Over a well-formed skip list the accesses meet no fault. What the tests of the searches are, and
whether the scores are in order, does not matter: a search ends at some position of every level, and
these are the last ones up to the position where it ends on the lowest level. -/

namespace BlazeKV.SkipList

open Lib

/-- Node `x` is on the heap and has level `i`. -/
def Tall (sl : SkipList) (x i : ℕ) : Prop := ∃ n, sl.heap x = some n ∧ i < n.level.length

section Accesses

variable {sl : SkipList} {x i : ℕ}

theorem node_runs {n : SkipNode} (h : sl.heap x = some n) : Checked.node sl x = .ok (sl.node x) := by
  simp [Checked.node, SkipList.node, h, need_of_eq]

theorem Tall.alloc (h : Tall sl x i) : sl.heap x ≠ none := by
  obtain ⟨n, hn, -⟩ := h
  simp [hn]

theorem Tall.length (h : Tall sl x i) : i < (sl.node x).level.length := by
  obtain ⟨n, hn, hi⟩ := h
  simpa [SkipList.node, hn] using hi

theorem Tall.lv_runs (h : Tall sl x i) : Checked.lv sl x i = .ok (sl.lv x i) := by
  obtain ⟨n, hn, -⟩ := id h
  rw [Checked.lv, node_runs hn, ok_bind]
  exact readAt_getD h.length _

theorem Tall.setLv_runs (h : Tall sl x i) (l : Level) : Checked.setLv sl x i l = .ok (sl.setLv x i l) := by
  rw [Checked.setLv, h.lv_runs]
  rfl

theorem setBackward_runs (h : sl.heap x ≠ none) (b : Option ℕ) :
    Checked.setBackward sl x b = .ok (sl.setBackward x b) := by
  obtain ⟨n, hn⟩ := Option.ne_none_iff_exists'.1 h
  rw [Checked.setBackward, node_runs hn]
  rfl

theorem Tall.of_core {a b : SkipList} (h : Tall a x i) (hc : (b.heap x).map core = (a.heap x).map core) : Tall b x i := by
  obtain ⟨n, hn, hi⟩ := h
  rw [hn] at hc
  obtain ⟨n', hn', hc⟩ := Option.map_eq_some_iff.1 hc
  simp only [core, Prod.mk.injEq] at hc
  exact ⟨n', hn', hc.2.2 ▸ hi⟩

theorem Tall.congr {a b : SkipList} (h : Tall a x i) (hs : SameShape a b) : Tall b x i :=
  h.of_core (hs.core x).symm

end Accesses

/-- Where the searches start. -/
theorem at_head (L : List Elem) : ((elemAt L 0).id, u32 0) = (0, 0) := rfl

theorem pathAt_runs {path : List (ℕ × ℕ)} {i : ℕ} (h : i < path.length) :
    Checked.pathAt path i = .ok (path.getD i default) := readAt_getD h _

section Searches

variable {sl : SkipList} {L : List Elem} (hR : sl.Rep L)

include hR

theorem Rep.node_runs {q : ℕ} (hq : q ≤ L.length) :
    Checked.node sl (elemAt L q).id = .ok (sl.node (elemAt L q).id) := by
  obtain ⟨n, hn, -⟩ := hR.node q hq
  exact SkipList.node_runs hn

theorem Rep.tall {q i : ℕ} (hq : q ≤ L.length) (hi : i < (elemAt L q).height) : Tall sl (elemAt L q).id i := by
  obtain ⟨n, hn, -, -, hl⟩ := hR.node q hq
  exact ⟨n, hn, hl ▸ hi⟩

/-- A walk with any test meets no fault; it ends at a tall position before which the test held and
after which it does not. -/
theorem Rep.walk_runs {i : ℕ} (hi : i < sl.level) (go : SkipNode → ℕ → Bool) (fuel p : ℕ) (hp : p ≤ L.length)
    (hh : i < (elemAt L p).height) (hf : L.length - p < fuel) : ∃ p', p ≤ p' ∧ p' ≤ L.length ∧ i < (elemAt L p').height ∧
      sl.walk i go fuel ((elemAt L p).id, u32 p) = some ((elemAt L p').id, u32 p') ∧
      Checked.walk sl i go fuel ((elemAt L p).id, u32 p) = .ok ((elemAt L p').id, u32 p') ∧
      (∀ q, p < q → q ≤ p' → i < (elemAt L q).height → go (sl.node (elemAt L q).id) (u32 q) = true) ∧
      ∀ q, IsNext L i p' (some q) → go (sl.node (elemAt L q).id) (u32 q) = false := by
  induction fuel generalizing p with
  | zero => omega
  | succ fuel ih =>
    obtain ⟨o, ho, hfwd, hspan⟩ := hR.link p hp i hh
    replace hspan := hspan hi
    have hlv := (hR.tall hp hh).lv_runs
    cases o with
    | none =>
      refine ⟨p, le_rfl, hp, hh, by simp [walk, hfwd], by simp [Checked.walk, hlv, hfwd], fun q h1 h2 => ?_, fun q hq => ?_⟩
      · omega
      · exact absurd (ho.unique hq) (by simp)
    | some q =>
      obtain ⟨hpq, hqn, hqi, hbetween⟩ := id ho
      have htr : u32 (u32 p + (sl.lv (elemAt L p).id i).span) = u32 q := by
        rw [hspan, Option.getD_some, u32_add_u32, u32_u32_add, show p + (q - p) = q by omega]
      have hnode := hR.node_runs hqn
      cases hgo : go (sl.node (elemAt L q).id) (u32 q) with
      | false =>
        refine ⟨p, le_rfl, hp, hh, by simp [walk, hfwd, htr, hgo], by simp [Checked.walk, hlv, hfwd, htr, hgo, hnode],
          fun q h1 h2 => ?_, fun q' hq' => ?_⟩
        · omega
        · obtain rfl := Option.some.inj (ho.unique hq')
          exact hgo
      | true =>
        obtain ⟨p', h1, h2, h3, hw, hc, hall, hstop⟩ := ih q hqn hqi (by omega)
        refine ⟨p', by omega, h2, h3, by simp [walk, hfwd, htr, hgo, hw],
          by simp [Checked.walk, hlv, hfwd, htr, hgo, hnode, hc], fun q' hq1 hq2 hqh => ?_, hstop⟩
        rcases lt_trichotomy q' q with h | rfl | h
        · exact absurd (hbetween q' hq1 h) (by omega)
        · exact hgo
        · exact hall q' h hq2 hqh

/-- The positions of a descent are the last ones of their levels up to the lowest of them. -/
theorem Rep.descend_runs (go : SkipNode → ℕ → Bool) (n p : ℕ) (hn : n ≤ sl.level) (hp : p ≤ L.length)
    (hh : n ≤ (elemAt L p).height) : ∃ r, p ≤ r ∧ r ≤ L.length ∧
      sl.descend go n ((elemAt L p).id, u32 p) = some ((List.range n).map (entry L r)) ∧
      Checked.descend sl go n ((elemAt L p).id, u32 p) = .ok ((List.range n).map (entry L r)) ∧
      ∀ q, p < q → q ≤ r → n ≤ (elemAt L q).height → go (sl.node (elemAt L q).id) (u32 q) = true := by
  induction n generalizing p with
  | zero => exact ⟨p, le_rfl, hp, rfl, rfl, fun q h1 h2 => by omega⟩
  | succ n ih =>
    obtain ⟨p', hpp', hp', hh', hw, hcw, hall, hstop⟩ :=
      hR.walk_runs (i := n) (by omega) go (sl.length + 1) p hp (by omega) (by rw [hR.length]; omega)
    obtain ⟨r, hp'r, hr, hd, hcd, hbelow⟩ := ih p' (by omega) hp' (by omega)
    have hlast : lastTall L n r = p' := by
      apply lastTall_eq hp'r hh'
      intro q hq1 hq2
      by_contra hq
      -- the test fails at the next tall position, which a lower walk has passed
      obtain ⟨o, ho⟩ := exists_isNext L n p'
      cases o with
      | none => exact hq (ho q hq1 (by omega))
      | some q₀ =>
        have hle : q₀ ≤ q := not_lt.1 fun hlt => hq (ho.2.2.2 q hq1 hlt)
        have := hbelow q₀ ho.1 (by omega) ho.2.2.1.le
        rw [hstop q₀ ho] at this
        exact absurd this (by simp)
    have hentry : entry L r n = ((elemAt L p').id, u32 p') := by rw [entry, pred, hlast]
    refine ⟨r, by omega, hr, ?_, ?_, fun q h1 h2 h3 => ?_⟩
    · simp only [descend, hw, Option.bind_eq_bind, Option.bind_some, hd, List.range_succ, List.map_append, List.map_cons,
        List.map_nil, hentry]
      rfl
    · simp only [Checked.descend, hcw, ok_bind, hcd, List.range_succ, List.map_append, List.map_cons, List.map_nil, hentry]
      rfl
    · by_cases hq : q ≤ p'
      · exact hall q h1 hq (by omega)
      · exact hbelow q (by omega) h2 (by omega)

theorem Rep.search_runs {β : Type} (go : SkipNode → ℕ → Bool) (hit : ℕ × ℕ → Option β)
    (hit' : ℕ × ℕ → Checked (Option β))
    (hhit : ∀ q ≤ L.length, hit' ((elemAt L q).id, u32 q) = .ok (hit ((elemAt L q).id, u32 q))) (n p : ℕ)
    (hn : n ≤ sl.level) (hp : p ≤ L.length) (hh : n ≤ (elemAt L p).height) :
    ∃ b, sl.search go hit n ((elemAt L p).id, u32 p) = some b ∧
      Checked.search sl go hit' n ((elemAt L p).id, u32 p) = .ok b ∧
      ∀ c, b = some c → ∃ q ≤ L.length, hit ((elemAt L q).id, u32 q) = some c := by
  induction n generalizing p with
  | zero => exact ⟨none, rfl, rfl, by simp⟩
  | succ n ih =>
    obtain ⟨p', hpp', hp', hh', hw, hcw, -, -⟩ :=
      hR.walk_runs (i := n) (by omega) go (sl.length + 1) p hp (by omega) (by rw [hR.length]; omega)
    simp only [search, hw, Option.bind_eq_bind, Option.bind_some, Checked.search, hcw, ok_bind, hhit p' hp']
    cases h : hit ((elemAt L p').id, u32 p') with
    | some b => exact ⟨some b, rfl, rfl, fun c hc => ⟨p', hp', h.trans hc⟩⟩
    | none => exact ih p' (by omega) hp' (by omega)

theorem Rep.head_height : sl.level ≤ (elemAt L 0).height := hR.level_le

theorem Rep.lowest {q : ℕ} (hq : q ≤ L.length) : Tall sl (elemAt L q).id 0 := by
  refine hR.tall hq ?_
  cases q with
  | zero => exact Nat.zero_lt_succ _
  | succ q => exact hR.height_pos _ (by omega) hq

theorem Rep.firstGte_runs (min : Double) : ∃ r ≤ L.length,
    sl.firstGte min = some (if r < L.length then some (elemAt L (r + 1)).id else none) ∧
    Checked.firstGte sl min = .ok (if r < L.length then some (elemAt L (r + 1)).id else none) := by
  obtain ⟨r, -, hr, hdesc, hcdesc, -⟩ := hR.descend_runs (fun n _ => n.score.lt min) sl.level 0 le_rfl (Nat.zero_le _)
    hR.head_height
  rw [at_head] at hdesc hcdesc
  have hpos := hR.level_pos
  have hu := hR.path_zero hr
  refine ⟨r, hr, ?_, ?_⟩
  · rw [firstGte, hdesc]
    simp only [Option.bind_eq_bind, Option.bind_some, hu, hR.next_zero hr]
    rfl
  · rw [Checked.firstGte, hcdesc, ok_bind, pathAt_runs (by simpa), ok_bind, hu, (hR.lowest hr).lv_runs, ok_bind, hR.next_zero hr]
    rfl

theorem Rep.rankOf_runs (member : Bytes) (score : Double) :
    ∃ k, sl.rankOf member score = some k ∧ Checked.rankOf sl member score = .ok k := by
  obtain ⟨b, hb, hc, -⟩ := hR.search_runs (fun n _ => n.score.lt score || (n.score.eq score && decide (n.member ≤ member)))
    (fun at' => if at'.1 ≠ 0 ∧ isAt (sl.node at'.1) member score then some at'.2 else none)
    (fun at' => do
      if at'.1 ≠ 0 then
        if isAt (← Checked.node sl at'.1) member score then return some at'.2 else return none
      else return none) (fun q hq => by
        simp only [hR.node_runs hq, ok_bind]
        split_ifs <;> simp_all) sl.level 0 le_rfl (Nat.zero_le _) hR.head_height
  rw [at_head] at hb hc
  refine ⟨b.getD 0, ?_, ?_⟩
  · rw [rankOf, hb]
    rfl
  · rw [Checked.rankOf, hc]
    rfl

theorem Rep.atRank_runs (rank : ℕ) : ∃ o, sl.atRank rank = some o ∧ Checked.atRank sl rank = .ok o ∧
    ∀ x, o = some x → Checked.node sl x = .ok (sl.node x) := by
  obtain ⟨b, hb, hc, hat⟩ := hR.search_runs (fun _ traversed => traversed ≤ rank)
    (fun at' => if at'.2 = rank ∧ at'.1 ≠ 0 then some at'.1 else none)
    (fun at' => return if at'.2 = rank ∧ at'.1 ≠ 0 then some at'.1 else none) (fun _ _ => rfl) sl.level 0 le_rfl
    (Nat.zero_le _) hR.head_height
  refine ⟨b, hb, hc, fun x hx => ?_⟩
  obtain ⟨q, hq, h⟩ := hat x hx
  split_ifs at h
  obtain rfl := Option.some.inj h
  exact hR.node_runs hq

end Searches

section Updates

variable {sl : SkipList} {L : List Elem} {r lvl x : ℕ} {path : List (ℕ × ℕ)} {member : Bytes} {score : Double}

theorem raise_runs {i : ℕ} (h : Tall sl 0 i) : Checked.raise sl i = .ok (raise sl i) := by
  rw [Checked.raise, h.lv_runs, ok_bind, h.setLv_runs]
  rfl

theorem link_runs {i : ℕ} (hi : i < path.length) (hx : Tall sl x i) (hu : Tall sl (path.getD i default).1 i) :
    Checked.link sl x path i = .ok (link x path sl i) := by
  have hs := sameShape_setLv sl x i ⟨(sl.lv (path.getD i default).1 i).forward,
    sub32 (sl.lv (path.getD i default).1 i).span (sub32 (path.getD 0 default).2 (path.getD i default).2)⟩
  rw [Checked.link, pathAt_runs hi, ok_bind, pathAt_runs (by omega)]
  simp only [ok_bind]
  rw [hu.lv_runs, ok_bind, hx.setLv_runs, ok_bind, (hu.congr hs).setLv_runs]
  rfl

theorem stretch_runs {i : ℕ} (hi : i < path.length) (hu : Tall sl (path.getD i default).1 i) :
    Checked.stretch sl path i = .ok (stretch path sl i) := by
  rw [Checked.stretch, pathAt_runs hi]
  simp only [ok_bind]
  rw [hu.lv_runs, ok_bind, hu.setLv_runs]
  rfl

/-- A loop whose rounds need levels that the rounds keep. -/
theorem shapely_runs {f : SkipList → ℕ → SkipList} {g : SkipList → ℕ → Checked SkipList} (hf : RowOp f) (is : List ℕ)
    (h : ∀ s, SameShape sl s → ∀ i ∈ is, g s i = .ok (f s i)) : is.foldlM g sl = .ok (is.foldl f sl) :=
  (foldlM_ok (SameShape sl) is (.refl sl) fun s hs i hi => ⟨h s hs i hi, hs.trans (hf.shape s i)⟩).1

theorem raised_runs (h : ∀ i < lvl, Tall sl 0 i) :
    ((List.range lvl).drop sl.level).foldlM Checked.raise sl = .ok (raised sl lvl) :=
  shapely_runs rowOp_raise _ fun _ hs i hi => raise_runs ((h i (mem_drop_range.1 hi).2).congr hs)

theorem linked_runs (hlen : lvl ≤ path.length) (hx : ∀ i < lvl, Tall sl x i)
    (hu : ∀ i < path.length, Tall sl (path.getD i default).1 i) :
    (List.range lvl).foldlM (fun sl i => Checked.link sl x path i) sl = .ok ((List.range lvl).foldl (link x path) sl) := by
  refine shapely_runs (rowOp_link x path) _ fun s hs i hi => ?_
  have hi := List.mem_range.1 hi
  exact link_runs (by omega) ((hx i hi).congr hs) ((hu i (by omega)).congr hs)

theorem stretched_runs {n : ℕ} (hlen : n ≤ path.length) (hu : ∀ i < path.length, Tall sl (path.getD i default).1 i) :
    ((List.range n).drop lvl).foldlM (fun sl i => Checked.stretch sl path i) sl =
      .ok (((List.range n).drop lvl).foldl (stretch path) sl) := by
  refine shapely_runs (rowOp_stretch path) _ fun s hs i hi => ?_
  have hi := (mem_drop_range.1 hi).2
  exact stretch_runs (by omega) ((hu i (by omega)).congr hs)

theorem alloc_setBackward (sl : SkipList) (x y : ℕ) (b : Option ℕ) :
    (sl.setBackward x b).heap y = none ↔ sl.heap y = none := by
  rw [← Option.map_eq_none_iff (f := core), core_setBackward, Option.map_eq_none_iff]

theorem attach_runs {u : ℕ} (hx : Tall sl x 0) (hf : ∀ y, (sl.lv x 0).forward = some y → sl.heap y ≠ none) :
    (do
      let sl ← Checked.setBackward sl x (if u = 0 then none else some u)
      let l ← Checked.lv sl x 0
      let sl ← match l.forward with
        | some y => Checked.setBackward sl y (some x)
        | none => pure { sl with tail := some x }
      return { sl with length := sl.length + 1 }) = Except.ok (attach sl x u) := by
  rw [setBackward_runs hx.alloc]
  set b : Option ℕ := if u = 0 then none else some u with hb
  have hx' : Tall (sl.setBackward x b) x 0 := hx.of_core (core_setBackward _ _ _ _)
  simp only [ok_bind, hx'.lv_runs, lv_setBackward, attach, ← hb]
  cases h : (sl.lv x 0).forward with
  | none => rfl
  | some y =>
    simp only
    rw [setBackward_runs fun hn => hf y h ((alloc_setBackward sl x y b).1 hn)]
    rfl

/-- `insert` meets no fault and leaves a well-formed list, wherever its search ends. -/
theorem Rep.insert_runs (hR : sl.Rep L) (member : Bytes) (score : Double) (h1 : 1 ≤ lvl) (hlvl : lvl ≤ kMaxLevel) :
    ∃ sl' L', sl.insert member score lvl = some sl' ∧ Checked.insert sl member score lvl = .ok sl' ∧ sl'.Rep L' := by
  obtain ⟨r, -, hr, hdesc, hcdesc, -⟩ := hR.descend_runs (fun n _ => before n member score) sl.level 0 le_rfl
    (Nat.zero_le _) hR.head_height
  rw [at_head] at hdesc hcdesc
  obtain ⟨sl', hins, hR'⟩ := hR.insert_of_path hr h1 hlvl hdesc
  refine ⟨sl', _, hins, ?_, hR'⟩
  have hpath := fun i => hR.path_getD (i := i) hr hlvl
  have hx : (raised sl lvl).next = sl.next := raised_shape.next
  set path := (List.range sl.level).map (entry L r) ++ List.replicate (lvl - sl.level) (0, 0) with hpathdef
  have hlen : path.length = max sl.level lvl := by
    rw [hpathdef, List.length_append, List.length_map, List.length_range, List.length_replicate]
    omega
  have hG : Grown sl (splice ((raised sl lvl).addNode member score lvl) sl.next path lvl) L r sl.next lvl :=
    hR.splice_grown hr hlvl hpath
  have hraised : SameShape sl (raised sl lvl) := raised_shape
  set A := (raised sl lvl).addNode member score lvl with hA
  -- the new node and the predecessors have the levels that are written
  have hcore : ∀ y, (A.heap y).map core = if y = sl.next then some (member, score, lvl) else (sl.heap y).map core := fun y => by
    rw [hA, addNode_core, hx, hraised.core y]
  have hnew : ∀ i < lvl, Tall A sl.next i := fun i hi => by
    obtain ⟨n, hn, hc⟩ := Option.map_eq_some_iff.1 ((hcore sl.next).trans (if_pos rfl))
    simp only [core, Prod.mk.injEq] at hc
    exact ⟨n, hn, hc.2.2 ▸ hi⟩
  have hold : ∀ q ≤ L.length, ∀ i < (elemAt L q).height, Tall A (elemAt L q).id i := fun q hq i hi =>
    (hR.tall hq hi).of_core ((hcore _).trans (if_neg (hR.id_lt q hq).ne))
  have hpred : ∀ i < path.length, Tall A (path.getD i default).1 i := fun i hi => by
    rw [hpath i (hlen ▸ hi)]
    exact hold _ (lastTall_le.trans hr) i (lastTall_tall (by have := hR.level_le; omega))
  have hS : SameShape A (splice A sl.next path lvl) := splice_shape
  have hfwd : ((splice A sl.next path lvl).lv sl.next 0).forward =
      if r < L.length then some (elemAt L (r + 1)).id else none := by
    rw [hG.new 0 h1, show pred L r 0 = ((elemAt L r).id, r) by rw [pred, hR.lastTall_zero hr]]
    exact hR.next_zero hr
  rw [insert_eq, hdesc] at hins
  obtain rfl := Option.some.inj hins
  rw [Checked.insert, require_of ⟨hR.level_le, hlvl⟩, ok_bind, hcdesc, ok_bind]
  simp only [← hpathdef]
  rw [raised_runs fun i hi => hR.tall (Nat.zero_le _) (hi.trans_le hlvl), ok_bind]
  change List.foldlM (fun s i => Checked.link s (raised sl lvl).next path i) A (List.range lvl) >>= _ = _
  rw [hx, linked_runs (by omega) hnew hpred, ok_bind]
  set B := (List.range lvl).foldl (SkipList.link sl.next path) A with hB
  have hAB : SameShape A B := ((rowOp_link sl.next path).foldl _ List.nodup_range A).1
  have hlevel : A.level = max sl.level lvl := by rw [hA, addNode, raised_shape.level]
  rw [hAB.level, stretched_runs (by rw [hlevel, hlen]) fun i hi => (hpred i hi).congr hAB, ok_bind, pathAt_runs (by omega), ok_bind]
  have hsplice : ((List.range A.level).drop lvl).foldl (stretch path) B = splice A sl.next path lvl := by
    rw [splice, ← hB, hAB.level]
  rw [hsplice]
  refine attach_runs ((hnew 0 h1).congr hS) fun y hy => ?_
  rw [hfwd] at hy
  split_ifs at hy with h
  obtain rfl := Option.some.inj hy
  exact ((hold (r + 1) h 0 (hR.height_pos _ (by omega) h)).congr hS).alloc

theorem unlink_runs {i : ℕ} (hi : i < path.length) (hu : Tall sl (path.getD i default).1 i)
    (hx : (sl.lv (path.getD i default).1 i).forward = some x → Tall sl x i) :
    Checked.unlinkAt sl x path i = .ok (unlink x path sl i) := by
  rw [Checked.unlinkAt, pathAt_runs hi]
  simp only [ok_bind]
  rw [hu.lv_runs, ok_bind, unlink]
  split_ifs with h
  · rw [(hx h).lv_runs, ok_bind, hu.setLv_runs]
  · exact hu.setLv_runs _

theorem dropLevels_runs (n : ℕ) (h : ∀ i < n, Tall sl 0 i) : Checked.dropLevels sl n = .ok (sl.dropLevels n) := by
  induction n with
  | zero => rfl
  | succ n ih =>
    rw [Checked.dropLevels, (h n (by omega)).lv_runs, ih fun i hi => h i (by omega), dropLevels]
    by_cases h1 : 0 < n <;> by_cases h2 : (sl.lv 0 n).forward = none <;> simp [h1, h2]

theorem Rep.removeNode_runs {e : Elem} (hR : sl.Rep (L.insertIdx r e)) (hr : r ≤ L.length) (hlen : path.length = sl.level)
    (hpath : ∀ i < sl.level, (path.getD i default).1 = (pred L r i).1) :
    Checked.removeNode sl e.id path = .ok (sl.removeNode e.id path) := by
  have hlenL := length_insert (L := L) (e := e) hr
  have hid : ∀ q ≤ L.length, (elemAt L q).id ≠ e.id := fun q hq => hR.removed_id_ne hr hq
  have hold : ∀ q ≤ L.length, ∀ i < (elemAt L q).height, Tall sl (elemAt L q).id i := by
    intro q hq i hi
    have := hR.tall (i := i) (hlenL ▸ shift_le (r := r) hq) (by rwa [elemAt_shift])
    rwa [elemAt_shift] at this
  have hx : ∀ i < e.height, Tall sl e.id i := by
    intro i hi
    have := hR.tall (i := i) (q := r + 1) (by omega) (by rwa [elemAt_insert_new hr])
    rwa [elemAt_insert_new hr] at this
  have hx0 : Tall sl e.id 0 := hx 0 (by
    have := hR.height_pos (r + 1) (by omega) (by omega)
    rwa [elemAt_insert_new hr] at this)
  have hloop : (List.range sl.level).foldlM (fun sl i => Checked.unlinkAt sl e.id path i) sl =
      .ok ((List.range sl.level).foldl (unlink e.id path) sl) := by
    refine foldlM_range_ok _ _ fun i hi => ?_
    -- the rounds before left this level alone
    obtain ⟨hs, hl⟩ := (rowOp_unlink e.id path).foldl _ (List.nodup_range (n := i)) sl
    have hrow := hl (path.getD i default).1 i
    rw [if_neg (by simp)] at hrow
    have hu : Tall sl (path.getD i default).1 i := by
      rw [hpath i hi]
      exact hold _ (lastTall_le.trans hr) i (lastTall_tall (by have := hR.level_le; omega))
    refine unlink_runs (by omega) (hu.congr hs) fun hf => ?_
    rw [hrow, hpath i hi] at hf
    exact (hx i ((hR.forward_eq_iff hr hid hi).1 hf)).congr hs
  have hs := ((rowOp_unlink e.id path).foldl _ (List.nodup_range (n := sl.level)) sl).1
  have hfwd := hR.unlinked_forward hr hpath
  rw [Checked.removeNode, hloop, ok_bind]
  set s := (List.range sl.level).foldl (unlink e.id path) sl with hsdef
  obtain ⟨n, hn, -⟩ := hx0.congr hs
  rw [(hx0.congr hs).lv_runs, ok_bind, SkipList.node_runs hn]
  have hD : ∀ i < kMaxLevel, Tall (sl.detach e.id path) 0 i := fun i hi =>
    (hold 0 (Nat.zero_le _) i hi).of_core (detach_core sl e.id path 0)
  have hlevel : (sl.detach e.id path).level ≤ kMaxLevel := by
    rw [(detach_fields hfwd).2.1]
    exact hR.level_le
  have hdrop := dropLevels_runs _ fun i hi => hD i (hi.trans_le hlevel)
  rw [removeNode_eq]
  simp only [ok_bind]
  cases hf : (s.lv e.id 0).forward with
  | none =>
    have hd : sl.detach e.id path = { s with tail := (s.node e.id).backward } := by simp only [detach, ← hsdef, hf]
    rw [hd] at hdrop ⊢
    simp only [pure_eq_ok, ok_bind, hdrop]
    rfl
  | some y =>
    have hd : sl.detach e.id path = s.setBackward y (s.node e.id).backward := by simp only [detach, ← hsdef, hf]
    have hy : s.heap y ≠ none := by
      rw [hfwd] at hf
      split_ifs at hf with h
      obtain rfl := Option.some.inj hf
      have hpos := hR.height_pos (shift r (r + 1)) (by unfold shift; split_ifs <;> omega) (hlenL ▸ shift_le h)
      rw [elemAt_shift] at hpos
      exact ((hold (r + 1) h 0 hpos).congr hs).alloc
    rw [hd] at hdrop ⊢
    simp only [setBackward_runs hy, ok_bind, hdrop]
    rfl

/-- `erase` meets no fault and leaves a well-formed list, wherever its search ends. -/
theorem Rep.erase_runs (hR : sl.Rep L) (member : Bytes) (score : Double) :
    ∃ sl' b L', sl.erase member score = some (sl', b) ∧ Checked.erase sl member score = .ok (sl', b) ∧ sl'.Rep L' := by
  obtain ⟨r, -, hr, hdesc, hcdesc, -⟩ := hR.descend_runs (fun n _ => before n member score) sl.level 0 le_rfl
    (Nat.zero_le _) hR.head_height
  rw [at_head] at hdesc hcdesc
  have hpos := hR.level_pos
  have hu : (((List.range sl.level).map (entry L r)).getD 0 default).1 = (elemAt L r).id := hR.path_zero hr
  have herase := hR.erase_of_path hr hdesc
  rw [Checked.erase, require_of hR.level_le, ok_bind, hcdesc, ok_bind, pathAt_runs (by simpa), ok_bind, hu,
    (hR.lowest hr).lv_runs, ok_bind, hR.next_zero hr]
  by_cases h : r < L.length
  · simp only [h, if_true, true_and] at herase ⊢
    rw [hR.node_runs h, ok_bind]
    by_cases hat : isAt (sl.node (elemAt L (r + 1)).id) member score = true
    · rw [if_pos hat] at herase ⊢
      obtain ⟨sl', hsl', hR'⟩ := herase
      refine ⟨sl', true, _, hsl', ?_, hR'⟩
      have hL : (L.eraseIdx r).insertIdx r L[r] = L := List.insertIdx_eraseIdx_getElem h
      have hlen : (L.eraseIdx r).length + 1 = L.length := by
        rw [List.length_eraseIdx_of_lt h]
        omega
      have helem : (elemAt L (r + 1)).id = L[r].id := by simp [elemAt, List.getD, h]
      have hremove : Checked.removeNode sl L[r].id ((List.range sl.level).map (entry L r)) =
          .ok (sl.removeNode L[r].id ((List.range sl.level).map (entry L r))) := by
        refine Rep.removeNode_runs (hL.symm ▸ hR) (by omega) (by simp) fun i hi => ?_
        have hp := pred_insert (L := L.eraseIdx r) (r := r) (e := L[r]) (hi.trans_le hR.level_le)
        rw [hL] at hp
        simp [List.getD, hi, entry, hp]
      rw [erase, hdesc] at hsl'
      simp only [Option.bind_eq_bind, Option.bind_some, hu, hR.next_zero hr, h, if_true, hat] at hsl'
      obtain ⟨rfl, -⟩ := Prod.mk.inj (Option.some.inj hsl')
      rw [helem, hremove]
      rfl
    · rw [if_neg hat] at herase ⊢
      exact ⟨sl, false, L, herase, rfl, hR⟩
  · simp only [h, if_false, false_and] at herase ⊢
    exact ⟨sl, false, L, herase, rfl, hR⟩

end Updates


end BlazeKV.SkipList
