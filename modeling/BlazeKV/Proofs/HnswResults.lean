import BlazeKV.Proofs.HnswSafety

/-! What the search of a layer returns, told of the searches that end without a fault: different nodes, each at the
distance that it has from the query. -/

namespace BlazeKV.Hnsw

open Lib

variable {F : Type} {lim : Limits} {M : Metric F} {dim : ℕ} {g : Graph F} {q : List F} {ef level nb : ℕ} {st st' : Frontier F}

/-- The distance of a node from the query. -/
def away (M : Metric F) (dim : ℕ) (q : List F) (node : Node F) : F := M.distance (q.take dim) (node.vec.take dim)

theorem distance_ok {a b : List F} {d : F} (h : distance M dim a b = .ok d) : d = M.distance (a.take dim) (b.take dim) := by
  obtain ⟨_, -, h⟩ := of_bind_ok h
  exact (Except.ok.inj h).symm

/-- A result that is close enough goes in, and the farthest one may go. -/
def Frontier.take (M : Metric F) (ef : ℕ) (st : Frontier F) (c : F × ℕ) : Frontier F :=
  { st with
    candidates := st.candidates ++ [c]
    results := if ef < (st.results ++ [c]).length then pop M.farthest (st.results ++ [c]) else st.results ++ [c] }

/-- The rounds of the inner loop, by what they do. -/
theorem visit_ok (h : visit M dim g q ef st nb = .ok st') : st' = st ∨ (st.visited[nb]? = some false ∧
    ∃ node, g.nodes[nb]? = some node ∧ ∃ b, isCloser M ef (away M dim q node) st.results = .ok b ∧
      let seen := { st with visited := st.visited.set nb true }
      st' = if b then seen.take M ef (away M dim q node, nb) else seen) := by
  obtain ⟨v, hv, h⟩ := of_bind_ok h
  cases v with
  | true => exact .inl (Except.ok.inj h).symm
  | false =>
    obtain ⟨node, hnode, h⟩ := of_bind_ok h
    obtain ⟨d, hd, h⟩ := of_bind_ok h
    obtain rfl := distance_ok hd
    obtain ⟨b, hb, h⟩ := of_bind_ok h
    refine .inr ⟨of_readAt hv, node, of_readAt hnode, b, hb, ?_⟩
    cases b <;> exact (Except.ok.inj h).symm

/-- Every result has been visited, once, and has its own distance. -/
structure Frontier.Exact (M : Metric F) (dim : ℕ) (g : Graph F) (q : List F) (st : Frontier F) : Prop where
  visited : ∀ c ∈ st.results, st.visited[c.2]? = some true
  distance : ∀ c ∈ st.results, ∃ node, g.nodes[c.2]? = some node ∧ c.1 = away M dim q node
  distinct : (st.results.map Prod.snd).Nodup

theorem pop_sublist (pick : List (F × ℕ) → ℕ) (heap : List (F × ℕ)) : (pop pick heap).Sublist heap := List.eraseIdx_sublist ..

theorem Frontier.Exact.sub (h : st.Exact M dim g q) {results : List (F × ℕ)} (hsub : results.Sublist st.results) :
    Frontier.Exact M dim g q { st with results := results } :=
  ⟨fun c hc => h.visited c (hsub.subset hc), fun c hc => h.distance c (hsub.subset hc), h.distinct.sublist (hsub.map Prod.snd)⟩

theorem visit_exact (h : visit M dim g q ef st nb = .ok st') (hst : st.Exact M dim g q) : st'.Exact M dim g q := by
  obtain rfl | ⟨hv, node, hnode, b, -, rfl⟩ := visit_ok h
  · exact hst
  have hlt : nb < st.visited.length := (List.getElem?_eq_some_iff.1 hv).1
  have hnew : nb ∉ st.results.map Prod.snd := fun hc => by
    obtain ⟨c, hmem, rfl⟩ := List.mem_map.1 hc
    rw [hst.visited c hmem] at hv
    cases hv
  have hseen : Frontier.Exact M dim g q { st with visited := st.visited.set nb true } := by
    refine ⟨fun c hc => ?_, hst.distance, hst.distinct⟩
    rw [List.getElem?_set]
    split_ifs
    · rfl
    · exact hst.visited c hc
  cases b with
  | false => exact hseen
  | true =>
    have hall : Frontier.Exact M dim g q
        ⟨st.visited.set nb true, st.candidates ++ [(away M dim q node, nb)], st.results ++ [(away M dim q node, nb)]⟩ := by
      refine ⟨fun c hc => ?_, fun c hc => ?_, ?_⟩
      · rcases List.mem_append.1 hc with hc | hc
        · exact hseen.visited c hc
        · obtain rfl := List.mem_singleton.1 hc
          simp [hlt]
      · rcases List.mem_append.1 hc with hc | hc
        · exact hst.distance c hc
        · obtain rfl := List.mem_singleton.1 hc
          exact ⟨node, hnode, rfl⟩
      · rw [List.map_append, List.map_singleton]
        refine List.nodup_append.2 ⟨hst.distinct, List.nodup_singleton nb, fun a ha b hb hab => ?_⟩
        have hnb : a = nb := hab.trans (List.mem_singleton.1 hb)
        exact hnew (hnb ▸ ha)
    simp only [if_true, Frontier.take]
    split_ifs
    · exact hall.sub (pop_sublist _ _)
    · exact hall

theorem expand_ok {r : Option (Frontier F)} (h : expand M dim g q ef level st = .ok r) : ∀ st' ∈ r, ∃ links : List ℕ,
    links.foldlM (visit M dim g q ef) { st with candidates := pop M.nearest st.candidates } = .ok st' := by
  intro st' hst'
  obtain ⟨cur, -, h⟩ := of_bind_ok h
  obtain ⟨far, -, h⟩ := of_bind_ok h
  split_ifs at h with hfar
  · obtain rfl := Except.ok.inj h
    cases hst'
  · obtain ⟨node, -, h⟩ := of_bind_ok h
    split_ifs at h
    · obtain ⟨links, -, h⟩ := of_bind_ok h
      obtain ⟨s, hs, h⟩ := of_bind_ok h
      obtain rfl := Except.ok.inj h
      exact ⟨links, Option.some.inj hst' ▸ hs⟩
    · obtain rfl := Except.ok.inj h
      exact ⟨[], congrArg Except.ok (Option.some.inj hst')⟩

/-- What every round of the inner loop keeps, and a smaller heap of candidates, the search keeps. -/
theorem searchLoop_keeps (I : Frontier F → Prop) (hpop : ∀ st, I st → I { st with candidates := pop M.nearest st.candidates })
    (hround : ∀ st st' nb, visit M dim g q ef st nb = .ok st' → I st → I st') {fuel : ℕ}
    (h : searchLoop M dim g q ef level fuel st = .ok st') (hst : I st) : I st' := by
  induction fuel generalizing st with
  | zero => cases h
  | succ fuel ih =>
    unfold searchLoop at h
    split_ifs at h
    · exact Except.ok.inj h ▸ hst
    · obtain ⟨r, hr, h⟩ := of_bind_ok h
      cases r with
      | none => exact Except.ok.inj h ▸ hst
      | some s =>
        obtain ⟨links, hlinks⟩ := expand_ok hr s rfl
        exact ih h (of_foldlM I hlinks (hpop st hst) fun s s' hs nb _ he => hround s s' nb he hs)

/-- The farthest result goes to the front first, so that the nearest one ends there. -/
theorem drain_perm {results : List (F × ℕ)} {out out' : List ℕ} {fuel : ℕ} (h : drain M fuel results out = .ok out') :
    out'.Perm (results.map Prod.snd ++ out) := by
  induction fuel generalizing results out with
  | zero =>
    obtain ⟨_, hnil, h⟩ := of_bind_ok h
    obtain rfl := of_require hnil
    obtain rfl := Except.ok.inj h
    exact .refl _
  | succ fuel ih =>
    unfold drain at h
    split_ifs at h with hnil
    · obtain rfl := Except.ok.inj h
      rw [hnil]
      exact .refl _
    · obtain ⟨c, hc, h⟩ := of_bind_ok h
      obtain ⟨hlt, rfl⟩ := List.getElem?_eq_some_iff.1 (of_readAt hc)
      have hperm := (List.getElem_cons_eraseIdx_perm hlt).map Prod.snd
      refine (ih h).trans (List.perm_middle.trans ?_)
      exact hperm.append_right out

/-- The search of a layer, by the results that it drains. What holds where only the entry has been seen, and is kept by
the rounds, holds of them. -/
theorem searchLayer_keeps (I : Frontier F → Prop) (hpop : ∀ st, I st → I { st with candidates := pop M.nearest st.candidates })
    (hround : ∀ st st' nb, visit M dim g q ef st nb = .ok st' → I st → I st') {entry : ℕ} {out : List ℕ}
    (hstart : ∀ node visited, g.nodes[entry]? = some node → visited[entry]? = some true →
      I ⟨visited, [(away M dim q node, entry)], [(away M dim q node, entry)]⟩)
    (h : searchLayer lim M dim g q entry ef level = .ok out) :
    ∃ st, I st ∧ drain M st.results.length st.results [] = .ok out := by
  obtain ⟨_, -, h⟩ := of_bind_ok h
  obtain ⟨node, hnode, h⟩ := of_bind_ok h
  obtain ⟨d, hd, h⟩ := of_bind_ok h
  obtain rfl := distance_ok hd
  obtain ⟨_, hlt, h⟩ := of_bind_ok h
  obtain ⟨st, hloop, h⟩ := of_bind_ok h
  obtain ⟨_, -, h⟩ := of_bind_ok h
  have hvisited := @List.getElem?_set_self _ (List.replicate g.nodes.length false) entry true (of_require hlt)
  exact ⟨st, searchLoop_keeps I hpop hround hloop (hstart node _ (of_readAt hnode) hvisited), h⟩

theorem searchLayer_ok {entry : ℕ} {out : List ℕ} (h : searchLayer lim M dim g q entry ef level = .ok out) :
    ∃ st : Frontier F, st.Exact M dim g q ∧ drain M st.results.length st.results [] = .ok out := by
  refine searchLayer_keeps (fun s => s.Exact M dim g q) (fun s hs => ⟨hs.visited, hs.distance, hs.distinct⟩)
    (fun s s' nb hv hs => visit_exact hv hs) (fun node visited hnode hv => ⟨fun c hc => ?_, fun c hc => ?_, List.nodup_singleton _⟩) h
  · obtain rfl := List.mem_singleton.1 hc
    exact hv
  · obtain rfl := List.mem_singleton.1 hc
    exact ⟨node, hnode, rfl⟩

theorem searchLayer_nodup {entry : ℕ} {out : List ℕ} (h : searchLayer lim M dim g q entry ef level = .ok out) : out.Nodup := by
  obtain ⟨st, hst, hout⟩ := searchLayer_ok h
  refine (drain_perm hout).nodup_iff.2 ?_
  rw [List.append_nil]
  exact hst.distinct

/-- A result that is shown. -/
def shown (M : Metric F) (dim : ℕ) (g : Graph F) (q : List F) (id : ℕ) : Bytes × Double :=
  (g.nodes[id]?).elim ([], .zero) fun node => (node.label, M.score (away M dim q node))

/-- The last loop of the search leaves out what is deleted, and stops at `k`. -/
theorem collect_ok {k : ℕ} {found : List ℕ} {out out' : List (Bytes × Double)} (h : found.foldlM (collect M dim g q k) out = .ok out')
    (hk : out.length ≤ k) : out'.length ≤ k ∧ ∃ ids : List ℕ, ids.Sublist found ∧ out' = out ++ ids.map (shown M dim g q) ∧
      ∀ id ∈ ids, ∃ node : Node F, g.nodes[id]? = some node ∧ node.deleted = false := by
  induction found generalizing out with
  | nil =>
    obtain rfl := Except.ok.inj h
    exact ⟨hk, [], List.Sublist.refl _, by simp, by simp⟩
  | cons id found ih =>
    rw [List.foldlM_cons] at h
    obtain ⟨out₁, hfirst, hrest⟩ := of_bind_ok h
    have hskip : out₁ = out → out'.length ≤ k ∧ ∃ ids : List ℕ, ids.Sublist (id :: found) ∧ out' = out ++ ids.map (shown M dim g q) ∧
        ∀ id ∈ ids, ∃ node : Node F, g.nodes[id]? = some node ∧ node.deleted = false := by
      rintro rfl
      obtain ⟨hlen, ids, hsub, hout, hall⟩ := ih hrest hk
      exact ⟨hlen, ids, hsub.cons id, hout, hall⟩
    unfold collect at hfirst
    split_ifs at hfirst with hfull
    · exact hskip (Except.ok.inj hfirst).symm
    · obtain ⟨node, hnode, hfirst⟩ := of_bind_ok hfirst
      have hnode := of_readAt hnode
      split_ifs at hfirst with hdeleted
      · exact hskip (Except.ok.inj hfirst).symm
      · obtain ⟨d, hd, hfirst⟩ := of_bind_ok hfirst
        obtain rfl := distance_ok hd
        obtain rfl := Except.ok.inj hfirst
        obtain ⟨hlen, ids, hsub, hout, hall⟩ := ih hrest (by rw [List.length_append, List.length_singleton]; omega)
        refine ⟨hlen, id :: ids, hsub.cons_cons id, ?_, ?_⟩
        · rw [hout, List.map_cons, shown, hnode, List.append_assoc]
          rfl
        · intro id' hid'
          rcases List.mem_cons.1 hid' with rfl | hid'
          · exact ⟨node, hnode, by simpa using hdeleted⟩
          · exact hall id' hid'

end BlazeKV.Hnsw
