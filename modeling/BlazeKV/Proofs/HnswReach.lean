import Mathlib.Logic.Relation
import BlazeKV.Proofs.HnswPresence

/-! How far the search of a layer gets. It returns nodes that links lead to, and when its results
can hold every node it returns all of these. -/

namespace BlazeKV.Hnsw

open Lib

variable {F : Type} {lim : Limits} {M : Metric F} {dim : ℕ} {g : Graph F} {q : List F} {ef level : ℕ}
  {entry nb : ℕ} {st st' : Frontier F}

/-- A link of layer `l`. -/
def Graph.Links (g : Graph F) (l a b : ℕ) : Prop := ∃ links, g.linksOf a l = some links ∧ b ∈ links

/-- Links of layer `l` lead from `a` to `b`. -/
abbrev Graph.Reaches (g : Graph F) (l : ℕ) : ℕ → ℕ → Prop := Relation.ReflTransGen (g.Links l)

theorem Graph.Sound.links (hg : g.Sound dim) {l a b : ℕ} (h : g.Links l a b) : g.OnLayer l b := by
  obtain ⟨links, hl, hb⟩ := h
  obtain ⟨node, hnode, hlinks⟩ := mem_of_linksOf hl
  exact hg.link node (List.mem_of_getElem? hnode) l links hlinks b hb

theorem Graph.Sound.reaches (hg : g.Sound dim) {l a b : ℕ} (ha : g.OnLayer l a) (h : g.Reaches l a b) :
    g.OnLayer l b := by
  cases h with
  | refl => exact ha
  | tail _ hlink => exact hg.links hlink

/-- All that the search holds has been reached. -/
structure Frontier.Reached (g : Graph F) (level entry : ℕ) (st : Frontier F) : Prop where
  candidates : ∀ c ∈ st.candidates, g.Reaches level entry c.2
  results : ∀ c ∈ st.results, g.Reaches level entry c.2

theorem visit_reached (h : visit M dim g q ef st nb = .ok st') (hst : st.Reached g level entry)
    (hnb : g.Reaches level entry nb) : st'.Reached g level entry := by
  obtain rfl | ⟨-, node, -, b, -, rfl⟩ := visit_ok h
  · exact hst
  have hall : ∀ items : List (F × ℕ), (∀ c ∈ items, g.Reaches level entry c.2) →
      ∀ c ∈ items ++ [(away M dim q node, nb)], g.Reaches level entry c.2 := by
    intro items hitems c hc
    rcases List.mem_append.1 hc with hc | hc
    · exact hitems c hc
    · obtain rfl := List.mem_singleton.1 hc
      exact hnb
  cases b with
  | false => exact ⟨hst.candidates, hst.results⟩
  | true =>
    refine ⟨hall _ hst.candidates, fun c hc => ?_⟩
    simp only [if_true, Frontier.take] at hc
    split_ifs at hc
    · exact hall _ hst.results c (mem_pop hc)
    · exact hall _ hst.results c hc

/-- A round of the outer loop ends the search, with no room for another result, or it visits the
links of the nearest candidate. -/
theorem expand_links {r : Option (Frontier F)} (h : expand M dim g q ef level st = .ok r) :
    ∃ cur, st.candidates[M.nearest st.candidates % st.candidates.length]? = some cur ∧
      ((r = none ∧ ef ≤ st.results.length) ∨ ∃ st', r = some st' ∧ ∃ links : List ℕ,
        (∀ b, g.Links level cur.2 b ↔ b ∈ links) ∧
        links.foldlM (visit M dim g q ef) { st with candidates := pop M.nearest st.candidates } =
          .ok st') := by
  obtain ⟨cur, hcur, h⟩ := of_bind_ok h
  obtain ⟨far, -, h⟩ := of_bind_ok h
  refine ⟨cur, of_readAt hcur, ?_⟩
  split_ifs at h with hfar
  · exact .inl ⟨(Except.ok.inj h).symm, hfar.2⟩
  · obtain ⟨node, hnode, h⟩ := of_bind_ok h
    have hlinksOf : g.linksOf cur.2 level = node.links[level]? := by
      rw [Graph.linksOf, of_readAt hnode, Option.bind_some]
    split_ifs at h with hlevel
    · obtain ⟨links, hlinks, h⟩ := of_bind_ok h
      obtain ⟨s, hs, h⟩ := of_bind_ok h
      refine .inr ⟨s, (Except.ok.inj h).symm, links, fun b => ?_, hs⟩
      simp [Graph.Links, hlinksOf, of_readAt hlinks]
    · refine .inr ⟨_, (Except.ok.inj h).symm, [], fun b => ?_, rfl⟩
      simp [Graph.Links, hlinksOf, List.getElem?_eq_none (not_lt.1 hlevel)]

theorem mem_candidates {cur : F × ℕ} {pick : List (F × ℕ) → ℕ} {heap : List (F × ℕ)}
    (h : heap[pick heap % heap.length]? = some cur) :
    cur ∈ heap ∧ ∀ c ∈ heap, c = cur ∨ c ∈ pop pick heap := by
  obtain ⟨hlt, rfl⟩ := List.getElem?_eq_some_iff.1 h
  refine ⟨List.getElem_mem hlt, fun c hc => ?_⟩
  exact List.mem_cons.1 ((List.getElem_cons_eraseIdx_perm hlt).symm.subset hc)

theorem searchLoop_reached {fuel : ℕ} (h : searchLoop M dim g q ef level fuel st = .ok st')
    (hst : st.Reached g level entry) : st'.Reached g level entry := by
  induction fuel generalizing st with
  | zero => cases h
  | succ fuel ih =>
    unfold searchLoop at h
    split_ifs at h
    · exact Except.ok.inj h ▸ hst
    · obtain ⟨r, hr, h⟩ := of_bind_ok h
      obtain ⟨cur, hcur, ⟨rfl, -⟩ | ⟨s, rfl, links, hlinks, hfold⟩⟩ := expand_links hr
      · exact Except.ok.inj h ▸ hst
      · refine ih h (of_foldlM (fun s => s.Reached g level entry) hfold
          ⟨fun c hc => hst.candidates c (mem_pop hc), hst.results⟩ fun s s' hs b hb he => ?_)
        exact visit_reached he hs
          ((hst.candidates cur (mem_candidates hcur).1).tail ((hlinks b).2 hb))

/-- The search of a layer, by its loop and what it drains. -/
theorem searchLayer_loop {out : List ℕ} (h : searchLayer lim M dim g q entry ef level = .ok out) :
    ∃ node st, g.nodes[entry]? = some node ∧ searchLoop M dim g q ef level (g.nodes.length + 1)
      ⟨(List.replicate g.nodes.length false).set entry true, [(away M dim q node, entry)],
        [(away M dim q node, entry)]⟩ = .ok st ∧ drain M st.results.length st.results [] = .ok out := by
  obtain ⟨_, -, h⟩ := of_bind_ok h
  obtain ⟨node, hnode, h⟩ := of_bind_ok h
  obtain ⟨d, hd, h⟩ := of_bind_ok h
  obtain rfl := distance_ok hd
  obtain ⟨_, -, h⟩ := of_bind_ok h
  obtain ⟨st, hloop, h⟩ := of_bind_ok h
  obtain ⟨_, -, h⟩ := of_bind_ok h
  exact ⟨node, st, of_readAt hnode, hloop, h⟩

theorem mem_drained {out : List ℕ} (h : drain M st.results.length st.results [] = .ok out) (c : ℕ) :
    c ∈ out ↔ c ∈ st.results.map Prod.snd := by
  rw [(drain_perm h).mem_iff, List.append_nil]

/-- What the search of a layer returns, links lead to. -/
theorem searchLayer_reached {out : List ℕ} (h : searchLayer lim M dim g q entry ef level = .ok out) :
    ∀ c ∈ out, g.Reaches level entry c := by
  obtain ⟨node, st, -, hloop, hdrain⟩ := searchLayer_loop h
  have hst : st.Reached g level entry := searchLoop_reached hloop
    ⟨fun c hc => by rw [List.mem_singleton.1 hc], fun c hc => by rw [List.mem_singleton.1 hc]⟩
  intro c hc
  obtain ⟨item, hitem, rfl⟩ := List.mem_map.1 ((mem_drained hdrain c).1 hc)
  exact hst.results item hitem

section Exhaustive

/-- Different numbers below a bound are not more than the bound. -/
theorem length_le_of_nodup {l : List ℕ} {n : ℕ} (hl : l.Nodup) (hlt : ∀ a ∈ l, a < n) :
    l.length ≤ n := by
  have hsub : l ⊆ List.range n := fun a ha => List.mem_range.2 (hlt a ha)
  simpa using (hl.subperm hsub).length_le

/-- A search that has room for every node forgets none. What it has seen is a result, and leads to
what it has seen unless it is a candidate, or is the node `cur` that is being expanded. -/
structure Frontier.Full (M : Metric F) (dim : ℕ) (g : Graph F) (q : List F) (level : ℕ) (cur : Option ℕ)
    (st : Frontier F) : Prop where
  exact : st.Exact M dim g q
  kept : ∀ a, st.visited[a]? = some true → a ∈ st.results.map Prod.snd
  closed : ∀ a b, st.visited[a]? = some true → a ∉ st.candidates.map Prod.snd → some a ≠ cur →
    g.Links level a b → st.visited[b]? = some true

theorem Frontier.Exact.lt (h : st.Exact M dim g q) {a : ℕ} (ha : a ∈ st.results.map Prod.snd) :
    a < g.nodes.length := by
  obtain ⟨c, hc, rfl⟩ := List.mem_map.1 ha
  obtain ⟨node, hnode, -⟩ := h.distance c hc
  exact (List.getElem?_eq_some_iff.1 hnode).1

theorem Frontier.Exact.length_le (h : st.Exact M dim g q) : st.results.length ≤ g.nodes.length := by
  have := length_le_of_nodup h.distinct fun a ha => h.lt ha
  rwa [List.length_map] at this

/-- Where there is room, a node that is new becomes a candidate and a result. -/
theorem visit_room (hef : g.nodes.length ≤ ef) (h : visit M dim g q ef st nb = .ok st')
    (hst : st.Exact M dim g q) : (st' = st ∧ st.visited[nb]? = some true) ∨
      (st.visited[nb]? = some false ∧ ∃ d, st' = ⟨st.visited.set nb true, st.candidates ++ [(d, nb)],
        st.results ++ [(d, nb)]⟩) := by
  have hexact := visit_exact h hst
  obtain ⟨v, hv, h'⟩ := of_bind_ok h
  cases v with
  | true => exact .inl ⟨(Except.ok.inj h').symm, of_readAt hv⟩
  | false =>
    have hunseen := of_readAt hv
    obtain ⟨node, hnode, h'⟩ := of_bind_ok h'
    obtain ⟨d, hd, h'⟩ := of_bind_ok h'
    have hnew : nb ∉ st.results.map Prod.snd := fun hmem => by
      obtain ⟨c, hc, rfl⟩ := List.mem_map.1 hmem
      rw [hst.visited c hc] at hunseen
      cases hunseen
    have hroom : st.results.length < ef := by
      have hlen : (nb :: st.results.map Prod.snd).length ≤ g.nodes.length := by
        refine length_le_of_nodup (List.nodup_cons.2 ⟨hnew, hst.distinct⟩) fun a ha => ?_
        rcases List.mem_cons.1 ha with rfl | ha
        · exact (List.getElem?_eq_some_iff.1 (of_readAt hnode)).1
        · exact hst.lt ha
      rw [List.length_cons, List.length_map] at hlen
      omega
    have hcloser : isCloser M ef d st.results = .ok true := by
      unfold isCloser
      rw [if_pos hroom]
      rfl
    obtain ⟨b, hb, h'⟩ := of_bind_ok h'
    obtain rfl : true = b := Except.ok.inj (hcloser.symm.trans hb)
    have hfits : ¬ef < (st.results ++ [(d, nb)]).length := by
      rw [List.length_append, List.length_singleton]
      omega
    refine .inr ⟨hunseen, d, (Except.ok.inj h').symm.trans ?_⟩
    rw [if_neg hfits]

theorem visit_full (hef : g.nodes.length ≤ ef) {cur : Option ℕ} (h : visit M dim g q ef st nb = .ok st')
    (hst : st.Full M dim g q level cur) : st'.Full M dim g q level cur ∧
      st'.visited[nb]? = some true ∧
        ∀ a : ℕ, st.visited[a]? = some true → st'.visited[a]? = some true := by
  have hexact := visit_exact h hst.exact
  obtain ⟨rfl, hseen⟩ | ⟨hunseen, d, rfl⟩ := visit_room hef h hst.exact
  · exact ⟨hst, hseen, fun a ha => ha⟩
  have hset : ∀ a, (st.visited.set nb true)[a]? = some true ↔ a = nb ∨ st.visited[a]? = some true := by
    intro a
    by_cases ha : nb = a
    · subst ha
      simp [(List.getElem?_eq_some_iff.1 hunseen).1]
    · simp [List.getElem?_set_ne ha, Ne.symm ha]
  refine ⟨⟨hexact, fun a ha => ?_, fun a b ha hnot hcur hlink => ?_⟩, (hset nb).2 (.inl rfl),
    fun a ha => (hset a).2 (.inr ha)⟩
  · rw [List.map_append, List.mem_append]
    rcases (hset a).1 ha with rfl | ha
    · exact .inr (List.mem_singleton_self _)
    · exact .inl (hst.kept a ha)
  · rw [List.map_append, List.mem_append, not_or] at hnot
    rcases (hset a).1 ha with rfl | ha
    · exact absurd (List.mem_singleton_self _) hnot.2
    · exact (hset b).2 (.inr (hst.closed a b ha hnot.1 hcur hlink))

theorem visits_full (hef : g.nodes.length ≤ ef) {cur : Option ℕ} {links : List ℕ}
    (h : links.foldlM (visit M dim g q ef) st = .ok st') (hst : st.Full M dim g q level cur) :
    st'.Full M dim g q level cur ∧ (∀ b ∈ links, st'.visited[b]? = some true) ∧
      ∀ a : ℕ, st.visited[a]? = some true → st'.visited[a]? = some true := by
  induction links generalizing st with
  | nil =>
    obtain rfl := Except.ok.inj h
    exact ⟨hst, by simp, fun a ha => ha⟩
  | cons nb links ih =>
    rw [List.foldlM_cons] at h
    obtain ⟨s, hfirst, hrest⟩ := of_bind_ok h
    obtain ⟨hs, hnb, hkeep⟩ := visit_full hef hfirst hst
    obtain ⟨hst', hall, hkeep'⟩ := ih hrest hs
    refine ⟨hst', fun b hb => ?_, fun a ha => hkeep' a (hkeep a ha)⟩
    rcases List.mem_cons.1 hb with rfl | hb
    · exact hkeep' _ hnb
    · exact hall b hb

/-- A round that visits the links of a candidate closes it. -/
theorem expand_full (hef : g.nodes.length ≤ ef) (h : expand M dim g q ef level st = .ok (some st'))
    (hst : st.Full M dim g q level none) : st'.Full M dim g q level none ∧
      ∀ a : ℕ, st.visited[a]? = some true → st'.visited[a]? = some true := by
  obtain ⟨cur, hcur, ⟨hnone, -⟩ | ⟨s, hs, links, hlinks, hfold⟩⟩ := expand_links h
  · cases hnone
  obtain rfl := Option.some.inj hs
  have hpopped : Frontier.Full M dim g q level (some cur.2)
      { st with candidates := pop M.nearest st.candidates } := by
    refine ⟨⟨hst.exact.visited, hst.exact.distance, hst.exact.distinct⟩, hst.kept,
      fun a b ha hnot hne hlink => hst.closed a b ha (fun hmem => ?_) (by simp) hlink⟩
    obtain ⟨c, hc, rfl⟩ := List.mem_map.1 hmem
    rcases (mem_candidates hcur).2 c hc with rfl | hc
    · exact hne rfl
    · exact hnot (List.mem_map_of_mem hc)
  obtain ⟨hfull, hseen, hkeep⟩ := visits_full hef hfold hpopped
  refine ⟨⟨hfull.exact, hfull.kept, fun a b ha hnot _ hlink => ?_⟩, hkeep⟩
  by_cases hne : some a = some cur.2
  · obtain rfl := Option.some.inj hne
    exact hseen b ((hlinks b).1 hlink)
  · exact hfull.closed a b ha hnot hne hlink

/-- The results of a search that has room for every node are closed under the links. -/
theorem searchLoop_closed (hg : g.Sound dim) (hef : g.nodes.length ≤ ef) {fuel : ℕ}
    (h : searchLoop M dim g q ef level fuel st = .ok st') (hst : st.Full M dim g q level none) :
    (∀ a : ℕ, st.visited[a]? = some true → a ∈ st'.results.map Prod.snd) ∧
      ∀ a b, a ∈ st'.results.map Prod.snd → g.Links level a b → b ∈ st'.results.map Prod.snd := by
  induction fuel generalizing st with
  | zero => cases h
  | succ fuel ih =>
    unfold searchLoop at h
    split_ifs at h with hempty
    · obtain rfl := Except.ok.inj h
      refine ⟨hst.kept, fun a b ha hlink => hst.kept b (hst.closed a b ?_ ?_ (by simp) hlink)⟩
      · obtain ⟨c, hc, rfl⟩ := List.mem_map.1 ha
        exact hst.exact.visited c hc
      · rw [hempty]
        exact List.not_mem_nil
    · obtain ⟨r, hr, h⟩ := of_bind_ok h
      obtain ⟨cur, -, ⟨rfl, hfull⟩ | ⟨s, rfl, -⟩⟩ := expand_links hr
      · -- no room for another result: all nodes are results
        obtain rfl := Except.ok.inj h
        have hsub : (st.results.map Prod.snd).Subperm (List.range g.nodes.length) :=
          List.subperm_of_subset hst.exact.distinct fun a ha => List.mem_range.2 (hst.exact.lt ha)
        have hall := hsub.perm_of_length_le (by rw [List.length_range, List.length_map]; omega)
        refine ⟨hst.kept, fun a b _ hlink => ?_⟩
        exact hall.mem_iff.2 (List.mem_range.2 (hg.links hlink).lt)
      · obtain ⟨hs, hkeep⟩ := expand_full hef hr hst
        obtain ⟨hall, hclosed⟩ := ih h hs
        exact ⟨fun a ha => hall a (hkeep a ha), hclosed⟩

/-- With room for every node, the search of a layer returns what links lead to from its entry. -/
theorem searchLayer_exhaustive (hg : g.Sound dim) (hef : g.nodes.length ≤ ef) {out : List ℕ}
    (h : searchLayer lim M dim g q entry ef level = .ok out) (c : ℕ) :
    c ∈ out ↔ g.Reaches level entry c := by
  refine ⟨searchLayer_reached h c, fun hreach => ?_⟩
  obtain ⟨node, st, hnode, hloop, hdrain⟩ := searchLayer_loop h
  have hlt : entry < g.nodes.length := (List.getElem?_eq_some_iff.1 hnode).1
  have hseen : ∀ a : ℕ,
      ((List.replicate g.nodes.length false).set entry true)[a]? = some true → a = entry := by
    intro a ha
    by_contra hne
    rw [List.getElem?_set_ne (Ne.symm hne)] at ha
    cases List.eq_of_mem_replicate (List.mem_of_getElem? ha)
  have hself : ((List.replicate g.nodes.length false).set entry true)[entry]? = some true := by
    simp [hlt]
  obtain ⟨hfirst, hclosed⟩ := searchLoop_closed hg hef hloop
    ⟨⟨fun c hc => by rw [List.mem_singleton.1 hc]; exact hself,
      fun c hc => ⟨node, by rw [List.mem_singleton.1 hc]; exact hnode, by rw [List.mem_singleton.1 hc]⟩,
      List.nodup_singleton _⟩,
    fun a ha => by rw [hseen a ha]; exact List.mem_singleton_self _,
    fun a b ha hnot => absurd (by rw [hseen a ha]; exact List.mem_singleton_self _) hnot⟩
  rw [mem_drained hdrain]
  induction hreach with
  | refl => exact hfirst entry hself
  | tail _ hlink ih => exact hclosed _ _ ih hlink

end Exhaustive

end BlazeKV.Hnsw
