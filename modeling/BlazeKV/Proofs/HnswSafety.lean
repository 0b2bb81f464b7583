import BlazeKV.Proofs.CheckedStrings
import BlazeKV.Spec.Checked.Hnsw

/-! The graph of an index is closed: every link of a layer leads to a node of that layer, and so does
the entry point. On such a graph the searches end, and nothing that they or the updates touch is out
of range. -/

namespace BlazeKV.Hnsw

open Lib

variable {F : Type}

/-- Node `c` has layer `l`. -/
def Graph.OnLayer (g : Graph F) (l c : ℕ) : Prop := ∃ node, g.nodes[c]? = some node ∧ l < node.links.length

structure Graph.Sound (g : Graph F) (dim : ℕ) : Prop where
  size : g.nodes.length ≤ 2 ^ 32
  vec : ∀ node ∈ g.nodes, node.vec.length = dim
  link : ∀ node ∈ g.nodes, ∀ l links, node.links[l]? = some links → ∀ nb ∈ links, g.OnLayer l nb
  entry : ∀ e, g.entryPoint = some e → g.OnLayer g.maxLevel e
  start : g.entryPoint = none → g.nodes = []

section Heaps

variable {pick : List (F × ℕ) → ℕ} {heap : List (F × ℕ)}

theorem top_runs (h : heap ≠ []) : ∃ c ∈ heap, top pick heap = .ok c := by
  have hlt : pick heap % heap.length < heap.length := Nat.mod_lt _ (List.length_pos_iff.2 h)
  exact ⟨_, List.getElem_mem hlt, readAt_of_lt hlt⟩

theorem mem_pop {c : F × ℕ} (h : c ∈ pop pick heap) : c ∈ heap := List.mem_of_mem_eraseIdx h

theorem length_pop (h : heap ≠ []) : (pop pick heap).length = heap.length - 1 :=
  List.length_eraseIdx_of_lt (Nat.mod_lt _ (List.length_pos_iff.2 h))

end Heaps

section Layers

variable {lim : Limits} {M : Metric F} {dim : ℕ} {g : Graph F} {q : List F} {ef level l c : ℕ}

theorem Graph.OnLayer.mono (h : g.OnLayer l c) {l' : ℕ} (hl : l' ≤ l) : g.OnLayer l' c := by
  obtain ⟨node, hc, hlt⟩ := h
  exact ⟨node, hc, by omega⟩

theorem Graph.OnLayer.lt (h : g.OnLayer l c) : c < g.nodes.length := by
  obtain ⟨node, hc, -⟩ := h
  exact (List.getElem?_eq_some_iff.1 hc).1

theorem nodeAt_of_some {node : Node F} (h : g.nodes[c]? = some node) : g.nodeAt c = .ok node := by
  rw [Graph.nodeAt, readAt, h]

theorem distance_runs {a b : List F} (ha : a.length = dim) (hb : b.length = dim) :
    distance M dim a b = .ok (M.distance (a.take dim) (b.take dim)) := by
  rw [distance, require_of ⟨ha.ge, hb.ge⟩]
  rfl

theorem prepare_runs {vec : List Double} (h : vec.length = dim) : ∃ v, prepare M dim vec = .ok v ∧ v.length = dim := by
  refine ⟨_, by rw [prepare, require_of h.ge]; rfl, ?_⟩
  rw [List.length_map, List.length_take, h, min_self]

/-- What the search of a layer keeps. Every result has been visited, and was not before. -/
structure Frontier.Ok (g : Graph F) (level : ℕ) (st : Frontier F) : Prop where
  visited : st.visited.length = g.nodes.length
  candidates : ∀ c ∈ st.candidates, g.OnLayer level c.2
  results : ∀ c ∈ st.results, g.OnLayer level c.2
  filled : st.results ≠ []
  fit : st.results.length + st.visited.count false ≤ g.nodes.length

/-- The nodes that the loop can still come to. -/
def Frontier.left (st : Frontier F) : ℕ := st.candidates.length + st.visited.count false

theorem isCloser_runs {results : List (F × ℕ)} (h : results ≠ []) (d : F) : ∃ b, isCloser M ef d results = .ok b := by
  obtain ⟨c, -, hc⟩ := @top_runs F M.farthest _ h
  unfold isCloser
  split_ifs
  · exact ⟨true, rfl⟩
  · exact ⟨_, by rw [hc]; rfl⟩

theorem visit_runs (hg : g.Sound dim) (hq : q.length = dim) {st : Frontier F} (h : st.Ok g level) {nb : ℕ}
    (hnb : g.OnLayer level nb) : ∃ st', visit M dim g q ef st nb = .ok st' ∧ st'.Ok g level ∧ st'.left ≤ st.left := by
  have hlt : nb < st.visited.length := by
    rw [h.visited]
    exact hnb.lt
  obtain ⟨node, hnode, -⟩ := id hnb
  have hvec := hg.vec node (List.mem_of_getElem? hnode)
  unfold visit
  rw [readAt_of_lt hlt, ok_bind]
  cases hv : st.visited[nb] with
  | true => exact ⟨st, rfl, h, le_rfl⟩
  | false =>
    have hcount : (st.visited.set nb true).count false + 1 = st.visited.count false := by
      have hpos : 0 < st.visited.count false := List.count_pos_iff.2 (hv ▸ List.getElem_mem hlt)
      rw [List.count_set hlt, hv]
      simp
      omega
    simp only [Bool.false_eq_true, if_false, nodeAt_of_some hnode, ok_bind, distance_runs hq hvec]
    generalize M.distance (q.take dim) (node.vec.take dim) = d
    obtain ⟨b, hb⟩ := @isCloser_runs F M ef _ h.filled d
    rw [hb, ok_bind]
    have hlen : (st.visited.set nb true).length = g.nodes.length := by rw [List.length_set, h.visited]
    have hfit := h.fit
    cases b with
    | false => exact ⟨_, rfl, ⟨hlen, h.candidates, h.results, h.filled, by dsimp only; omega⟩, by dsimp only [Frontier.left]; omega⟩
    | true =>
      have hres : ∀ c ∈ st.results ++ [(d, nb)], g.OnLayer level c.2 := by
        intro c hc
        rcases List.mem_append.1 hc with hc | hc
        · exact h.results c hc
        · exact List.mem_singleton.1 hc ▸ hnb
      have hcand : ∀ c ∈ st.candidates ++ [(d, nb)], g.OnLayer level c.2 := by
        intro c hc
        rcases List.mem_append.1 hc with hc | hc
        · exact h.candidates c hc
        · exact List.mem_singleton.1 hc ▸ hnb
      have hne : st.results ++ [(d, nb)] ≠ [] := by simp
      have hpos := List.length_pos_iff.2 h.filled
      have hpop := @length_pop F M.farthest _ hne
      rw [List.length_append, List.length_singleton] at hpop
      refine ⟨_, rfl, ⟨hlen, hcand, ?_, ?_, ?_⟩, ?_⟩
      · dsimp only
        split_ifs
        · exact fun c hc => hres c (mem_pop hc)
        · exact hres
      · dsimp only
        split_ifs
        · exact List.length_pos_iff.1 (by omega)
        · exact hne
      · dsimp only
        split_ifs
        · omega
        · rw [List.length_append, List.length_singleton]
          omega
      · dsimp only [Frontier.left]
        rw [List.length_append, List.length_singleton]
        omega

/-- A round of the outer loop takes a candidate away, or is the last one. -/
theorem expand_runs (hg : g.Sound dim) (hq : q.length = dim) {st : Frontier F} (h : st.Ok g level) (hne : st.candidates ≠ []) :
    expand M dim g q ef level st = .ok none ∨
      ∃ st', expand M dim g q ef level st = .ok (some st') ∧ st'.Ok g level ∧ st'.left < st.left := by
  obtain ⟨cur, hcur, htop⟩ := @top_runs F M.nearest _ hne
  obtain ⟨far, -, hfar⟩ := @top_runs F M.farthest _ h.filled
  obtain ⟨node, hnode, hlevel⟩ := h.candidates cur hcur
  unfold expand
  rw [htop, ok_bind, hfar, ok_bind]
  split_ifs
  · exact .inl rfl
  simp only [nodeAt_of_some hnode, ok_bind, hlevel, if_true, readAt_of_lt hlevel]
  have hpop := @length_pop F M.nearest _ hne
  have hpos := List.length_pos_iff.2 hne
  have hst : Frontier.Ok g level { st with candidates := pop M.nearest st.candidates } :=
    ⟨h.visited, fun c hc => h.candidates c (mem_pop hc), h.results, h.filled, h.fit⟩
  have hlink := hg.link node (List.mem_of_getElem? hnode) level _ (List.getElem?_eq_getElem hlevel)
  obtain ⟨st', hloop, hok, hleft⟩ := foldlM_keeps
    (fun s : Frontier F => s.Ok g level ∧ s.left ≤ Frontier.left { st with candidates := pop M.nearest st.candidates })
    (g := visit M dim g q ef) node.links[level] ⟨hst, le_rfl⟩ fun s hs nb hnb => by
      obtain ⟨s', he, hok, hle⟩ := visit_runs hg hq hs.1 (hlink nb hnb)
      exact ⟨s', he, hok, hle.trans hs.2⟩
  refine .inr ⟨st', by rw [hloop]; rfl, hok, lt_of_le_of_lt hleft ?_⟩
  dsimp only [Frontier.left]
  omega

theorem searchLoop_runs (hg : g.Sound dim) (hq : q.length = dim) (fuel : ℕ) {st : Frontier F} (h : st.Ok g level)
    (hf : st.left < fuel) : ∃ st', searchLoop M dim g q ef level fuel st = .ok st' ∧ st'.Ok g level := by
  induction fuel generalizing st with
  | zero => omega
  | succ fuel ih =>
    unfold searchLoop
    split_ifs with hc
    · exact ⟨st, rfl, h⟩
    · rcases expand_runs hg hq h hc with he | ⟨st', he, hok, hlt⟩
      · exact ⟨st, by rw [he]; rfl, h⟩
      · obtain ⟨st'', he', hok'⟩ := ih hok (by omega)
        exact ⟨st'', by rw [he]; exact he', hok'⟩

theorem drain_runs (results : List (F × ℕ)) (out : List ℕ) : ∃ out', drain M results.length results out = .ok out' ∧
    out'.length = results.length + out.length ∧ ∀ c ∈ out', c ∈ out ∨ ∃ r ∈ results, r.2 = c := by
  generalize hn : results.length = n
  induction n generalizing results out with
  | zero =>
    obtain rfl := List.length_eq_zero_iff.1 hn
    exact ⟨out, rfl, by simp, fun c hc => .inl hc⟩
  | succ n ih =>
    have hne : results ≠ [] := List.length_pos_iff.1 (by omega)
    obtain ⟨c, hc, htop⟩ := @top_runs F M.farthest _ hne
    obtain ⟨out', he, hlen, hmem⟩ := ih (pop M.farthest results) (c.2 :: out) (by rw [length_pop hne]; omega)
    refine ⟨out', ?_, ?_, fun x hx => ?_⟩
    · rw [drain, if_neg hne, htop]
      exact he
    · rw [hlen, List.length_cons]
      omega
    · rcases hmem x hx with hx | ⟨r, hr, rfl⟩
      · rcases List.mem_cons.1 hx with rfl | hx
        · exact .inr ⟨c, hc, rfl⟩
        · exact .inl hx
      · exact .inr ⟨r, mem_pop hr, rfl⟩

/-- The search of a layer ends, and finds nodes of that layer, at least one. -/
theorem searchLayer_runs (hg : g.Sound dim) (hq : q.length = dim) {entry : ℕ} (he : g.OnLayer level entry) :
    ∃ out, searchLayer lim M dim g q entry ef level = .ok out ∧ out ≠ [] ∧ ∀ c ∈ out, g.OnLayer level c := by
  obtain ⟨node, hnode, -⟩ := id he
  have hvec := hg.vec node (List.mem_of_getElem? hnode)
  have hlarge := hg.size.trans lim.vector_large
  have hlt := he.lt
  unfold searchLayer
  rw [require_of hlarge, ok_bind]
  simp only [nodeAt_of_some hnode, ok_bind, distance_runs hq hvec, List.length_replicate, require_of hlt]
  generalize M.distance (q.take dim) (node.vec.take dim) = d
  have hcount : ((List.replicate g.nodes.length false).set entry true).count false + 1 = g.nodes.length := by
    rw [List.count_set (by rwa [List.length_replicate])]
    simp
    omega
  have hst : Frontier.Ok g level ⟨(List.replicate g.nodes.length false).set entry true, [(d, entry)], [(d, entry)]⟩ := by
    refine ⟨by simp, fun c hc => ?_, fun c hc => ?_, by simp, by dsimp only; rw [List.length_singleton]; omega⟩ <;>
      exact List.mem_singleton.1 hc ▸ he
  obtain ⟨st', hloop, hok⟩ := @searchLoop_runs F M dim g q ef level hg hq (g.nodes.length + 1) _ hst
    (by dsimp only [Frontier.left]; rw [List.length_singleton]; omega)
  have hfit := hok.fit
  obtain ⟨out, hout, hlen, hmem⟩ := @drain_runs F M st'.results []
  refine ⟨out, ?_, ?_, fun c hc => ?_⟩
  · rw [hloop, ok_bind, require_of (by omega), ok_bind]
    exact hout
  · have := List.length_pos_iff.2 hok.filled
    exact List.length_pos_iff.1 (by omega)
  · obtain ⟨r, hr, rfl⟩ := (hmem c hc).resolve_left (by simp)
    exact hok.results r hr

/-- The nearest node that was found, if any. -/
theorem step_runs {found : List ℕ} {cur : ℕ} (h : found ≠ []) : ∃ c ∈ found, step found cur = .ok c := by
  obtain ⟨c, cs, rfl⟩ := List.exists_cons_of_ne_nil h
  exact ⟨c, List.mem_cons_self, rfl⟩

theorem descendLayer_runs (hg : g.Sound dim) (hq : q.length = dim) {cur : ℕ} (h : g.OnLayer level cur) :
    ∃ c, descendLayer lim M dim g q cur level = .ok c ∧ g.OnLayer level c := by
  obtain ⟨out, he, hne, hout⟩ := @searchLayer_runs F lim M dim g q 1 level hg hq cur h
  obtain ⟨c, hc, hstep⟩ := @step_runs out cur hne
  exact ⟨c, by rw [descendLayer, he]; exact hstep, hout c hc⟩

/-- The layers from `k + n` down to `k + 1`. -/
theorem descend_runs (hg : g.Sound dim) (hq : q.length = dim) (k n : ℕ) {cur : ℕ} (h : g.OnLayer (k + n) cur) :
    ∃ c, (List.range' (k + 1) n).reverse.foldlM (descendLayer lim M dim g q) cur = .ok c ∧ g.OnLayer k c := by
  induction n generalizing cur with
  | zero => exact ⟨cur, rfl, h⟩
  | succ n ih =>
    have hlast : List.range' (k + 1) (n + 1) = List.range' (k + 1) n ++ [k + (n + 1)] := by
      rw [List.range'_concat]
      congr 2
      omega
    rw [hlast, List.reverse_append, List.reverse_singleton, List.singleton_append, List.foldlM_cons]
    obtain ⟨c, hc, hon⟩ := @descendLayer_runs F lim M dim g q _ hg hq cur h
    obtain ⟨c', hc', hon'⟩ := ih (hon.mono (by omega))
    exact ⟨c', by rw [hc]; exact hc', hon'⟩

end Layers

section Updates

variable {lim : Limits} {M : Metric F} {dim : ℕ} {g g' : Graph F} {q : List F} {level c : ℕ}

/-- Equal but for vectors and links. -/
structure Graph.SameLayers (g g' : Graph F) : Prop where
  size : g'.nodes.length = g.nodes.length
  layer : ∀ l c, g'.OnLayer l c ↔ g.OnLayer l c
  entryPoint : g'.entryPoint = g.entryPoint
  maxLevel : g'.maxLevel = g.maxLevel

theorem Graph.SameLayers.refl (g : Graph F) : g.SameLayers g := ⟨rfl, fun _ _ => Iff.rfl, rfl, rfl⟩

theorem Graph.SameLayers.trans {a b c : Graph F} (h : a.SameLayers b) (h' : b.SameLayers c) : a.SameLayers c :=
  ⟨h'.size.trans h.size, fun l x => (h'.layer l x).trans (h.layer l x), h'.entryPoint.trans h.entryPoint,
    h'.maxLevel.trans h.maxLevel⟩

/-- Node `c` is overwritten by one with as many layers, a vector of the same length and links of the
layers that they are in. -/
theorem Graph.Sound.setNode (hg : g.Sound dim) {old : Node F} (new : Node F) (hold : g.nodes[c]? = some old)
    (hlen : new.links.length = old.links.length) (hvec : new.vec.length = dim)
    (hlink : ∀ l links, new.links[l]? = some links → ∀ nb ∈ links, g.OnLayer l nb) :
    Graph.Sound { g with nodes := g.nodes.set c new } dim ∧ g.SameLayers { g with nodes := g.nodes.set c new } := by
  obtain ⟨hc, hget⟩ := List.getElem?_eq_some_iff.1 hold
  have hlayer : ∀ l x, Graph.OnLayer { g with nodes := g.nodes.set c new } l x ↔ g.OnLayer l x := by
    intro l x
    simp only [Graph.OnLayer, List.getElem?_set]
    by_cases hx : c = x
    · subst hx
      simp [hc, hget, hlen]
    · simp [hx]
  refine ⟨⟨?_, fun node hn => ?_, fun node hn l links hl nb hnb => ?_, fun e he => ?_, fun h => ?_⟩,
    List.length_set .., hlayer, rfl, rfl⟩
  · rw [List.length_set]
    exact hg.size
  · rcases List.mem_or_eq_of_mem_set hn with hn | rfl
    · exact hg.vec node hn
    · exact hvec
  · rw [hlayer]
    rcases List.mem_or_eq_of_mem_set hn with hn | rfl
    · exact hg.link node hn l links hl nb hnb
    · exact hlink l links hl nb hnb
  · rw [hlayer]
    exact hg.entry e he
  · simp only [hg.start h, List.length_nil] at hc
    omega

theorem setLinks_runs (hg : g.Sound dim) (hc : g.OnLayer level c) {links : List ℕ} (hlinks : ∀ nb ∈ links, g.OnLayer level nb) :
    ∃ g', setLinks g c level links = .ok g' ∧ g'.Sound dim ∧ g.SameLayers g' := by
  obtain ⟨node, hnode, hlt⟩ := hc
  have hmem := List.mem_of_getElem? hnode
  have hset : setLinks g c level links =
      .ok { g with nodes := g.nodes.set c { node with links := node.links.set level links } } := by
    rw [setLinks, nodeAt_of_some hnode, ok_bind, readAt_of_lt hlt]
    rfl
  refine ⟨_, hset, hg.setNode _ hnode (List.length_set ..) (hg.vec node hmem) fun l ls hl nb hnb => ?_⟩
  rw [List.getElem?_set] at hl
  split_ifs at hl with he
  · subst he
    exact hlinks nb (Option.some.inj hl ▸ hnb)
  · exact hg.link node hmem l ls hl nb hnb

theorem prune_runs (hg : g.Sound dim) (hc : g.OnLayer level c) {links : List ℕ} (hlinks : ∀ nb ∈ links, g.OnLayer level nb)
    (maxLinks : ℕ) : ∃ kept, prune M dim g c maxLinks links = .ok kept ∧ ∀ nb ∈ kept, nb ∈ links := by
  unfold prune
  split_ifs
  · obtain ⟨node, hnode, -⟩ := hc
    have hbase := hg.vec node (List.mem_of_getElem? hnode)
    rw [nodeAt_of_some hnode, ok_bind]
    dsimp only
    rw [mapM_ok (f := fun a => (M.distance (node.vec.take dim) (((g.nodes[a]?).elim [] Node.vec).take dim), a)) links fun a ha => by
      obtain ⟨other, hother, -⟩ := hlinks a ha
      rw [nodeAt_of_some hother, ok_bind, distance_runs hbase (hg.vec other (List.mem_of_getElem? hother)), hother]
      rfl]
    refine ⟨_, rfl, fun nb hnb => ?_⟩
    obtain ⟨p, hp, rfl⟩ := List.mem_map.1 (List.mem_of_mem_take hnb)
    obtain ⟨a, ha, rfl⟩ := List.mem_map.1 ((M.sort_perm _).mem_iff.1 hp)
    exact ha
  · exact ⟨links, rfl, fun _ h => h⟩

theorem linkBack_runs (hg : g.Sound dim) (hc : g.OnLayer level c) {id : ℕ} (hid : g.OnLayer level id) (maxLinks : ℕ) :
    ∃ g', linkBack M dim id level maxLinks g c = .ok g' ∧ g'.Sound dim ∧ g.SameLayers g' := by
  have hc' := hc
  obtain ⟨node, hnode, hlt⟩ := hc'
  have hlinks : ∀ nb ∈ node.links[level] ++ [id], g.OnLayer level nb := by
    intro nb hnb
    rcases List.mem_append.1 hnb with hnb | hnb
    · exact hg.link node (List.mem_of_getElem? hnode) level _ (List.getElem?_eq_getElem hlt) nb hnb
    · exact List.mem_singleton.1 hnb ▸ hid
  obtain ⟨kept, hkept, hsub⟩ := @prune_runs F M dim g level c hg hc _ hlinks maxLinks
  obtain ⟨g', hset, hg', hsame⟩ := setLinks_runs hg hc fun nb hnb => hlinks nb (hsub nb hnb)
  refine ⟨g', ?_, hg', hsame⟩
  simp only [linkBack, nodeAt_of_some hnode, ok_bind, readAt_of_lt hlt, hkept]
  exact hset

theorem connect_runs (hg : g.Sound dim) {id : ℕ} (hid : g.OnLayer level id) {candidates : List ℕ}
    (hcand : ∀ c ∈ candidates, g.OnLayer level c) :
    ∃ g', connect M dim g id level candidates = .ok g' ∧ g'.Sound dim ∧ g.SameLayers g' := by
  unfold connect
  dsimp only
  set maxLinks := if level = 0 then m0 else m with hmax
  have hlinks : ∀ c ∈ (candidates.filter fun c => c ≠ id).take maxLinks, g.OnLayer level c := fun c hc =>
    hcand c (List.mem_filter.1 (List.mem_of_mem_take hc)).1
  obtain ⟨g₁, hset, hg₁, hsame₁⟩ := setLinks_runs hg hid hlinks
  rw [hset, ok_bind]
  obtain ⟨g', hloop, hg', hsame⟩ := foldlM_keeps (fun s : Graph F => s.Sound dim ∧ g.SameLayers s)
    (g := linkBack M dim id level maxLinks) ((candidates.filter fun c => c ≠ id).take maxLinks) ⟨hg₁, hsame₁⟩ fun s hs c hc => by
      obtain ⟨s', he, hok, hsame'⟩ := @linkBack_runs F M dim s level c hs.1 ((hs.2.layer _ _).2 (hlinks c hc)) id
        ((hs.2.layer _ _).2 hid) maxLinks
      exact ⟨s', he, hok, hs.2.trans hsame'⟩
  exact ⟨g', hloop, hg', hsame⟩

theorem insertLayer_runs (hg : g.Sound dim) (hq : q.length = dim) {id cur : ℕ} (hid : g.OnLayer level id)
    (hcur : g.OnLayer level cur) : ∃ g' cur', insertLayer lim M dim id q (g, cur) level = .ok (g', cur') ∧ g'.Sound dim ∧
      g.SameLayers g' ∧ g'.OnLayer level cur' := by
  obtain ⟨out, he, hne, hout⟩ := @searchLayer_runs F lim M dim g q efConstruction level hg hq cur hcur
  obtain ⟨g', hconn, hg', hsame⟩ := @connect_runs F M dim g level hg id hid out hout
  obtain ⟨c, hc, hstep⟩ := @step_runs out cur hne
  refine ⟨g', c, ?_, hg', hsame, (hsame.layer _ _).2 (hout c hc)⟩
  simp only [insertLayer, he, ok_bind, hconn, hstep]
  rfl

/-- The layers of the new node, from `n - 1` down to `0`. -/
theorem insertLayers_runs (hq : q.length = dim) {id : ℕ} (n : ℕ) {cur : ℕ} (hg : g.Sound dim) (hid : ∀ l < n, g.OnLayer l id)
    (hcur : ∀ l < n, g.OnLayer l cur) : ∃ r, (List.range n).reverse.foldlM (insertLayer lim M dim id q) (g, cur) = .ok r ∧
      r.1.Sound dim ∧ g.SameLayers r.1 := by
  induction n generalizing g cur with
  | zero => exact ⟨(g, cur), rfl, hg, .refl g⟩
  | succ n ih =>
    rw [List.range_succ, List.reverse_append, List.reverse_singleton, List.singleton_append, List.foldlM_cons]
    obtain ⟨g₁, cur₁, he, hg₁, hsame₁, hon⟩ := @insertLayer_runs F lim M dim g q n hg hq id cur (hid n (by omega)) (hcur n (by omega))
    obtain ⟨r, hr, hg', hsame⟩ := ih hg₁ (fun l hl => (hsame₁.layer _ _).2 (hid l (by omega))) fun l hl => hon.mono (by omega)
    exact ⟨r, by rw [he]; exact hr, hg', hsame₁.trans hsame⟩

end Updates

section Graphs

variable {lim : Limits} {M : Metric F} {dim : ℕ} {g : Graph F}

theorem Graph.sound_empty : (Graph.empty : Graph F).Sound dim where
  size := Nat.zero_le _
  vec node hn := absurd hn (by simp [Graph.empty])
  link node hn := absurd hn (by simp [Graph.empty])
  entry e he := absurd he (by simp [Graph.empty])
  start _ := rfl

theorem Graph.OnLayer.append {l c : ℕ} (h : g.OnLayer l c) (ns : List (Node F)) (e : Option ℕ) (k : ℕ) :
    Graph.OnLayer ⟨g.nodes ++ ns, e, k⟩ l c := by
  obtain ⟨node, hc, hl⟩ := h
  exact ⟨node, by rw [List.getElem?_append_left (List.getElem?_eq_some_iff.1 hc).1, hc], hl⟩

/-- A node that nothing links to, and that links to nothing, on an old or a new entry point. -/
theorem Graph.Sound.push (hg : g.Sound dim) (hlt : g.nodes.length < 2 ^ 32) {node : Node F} (hvec : node.vec.length = dim)
    (hlinks : ∀ links ∈ node.links, links = []) {e k : ℕ} (he : Graph.OnLayer ⟨g.nodes ++ [node], some e, k⟩ k e) :
    Graph.Sound ⟨g.nodes ++ [node], some e, k⟩ dim where
  size := by
    rw [List.length_append, List.length_singleton]
    exact hlt
  vec n hn := by
    rcases List.mem_append.1 hn with hn | hn
    · exact hg.vec n hn
    · exact List.mem_singleton.1 hn ▸ hvec
  link n hn l links hl nb hnb := by
    rcases List.mem_append.1 hn with hn | hn
    · exact (hg.link n hn l links hl nb hnb).append _ _ _
    · obtain rfl := List.mem_singleton.1 hn
      rw [hlinks links (List.mem_of_getElem? hl)] at hnb
      exact absurd hnb (by simp)
  entry e' he' := Option.some.inj he' ▸ he
  start h := absurd h (by simp)

theorem insert_runs (hg : g.Sound dim) (hlt : g.nodes.length < 2 ^ 32) (label : Bytes) {vec : List Double}
    (hvec : vec.length = dim) : ∃ g', insert lim M dim g label vec = .ok (g', g.nodes.length) ∧ g'.Sound dim ∧
      g'.nodes.length = g.nodes.length + 1 := by
  obtain ⟨v, hv, hdim⟩ := @prepare_runs F M dim vec hvec
  have hid : u32 g.nodes.length = g.nodes.length := Nat.mod_eq_of_lt hlt
  have hlevel : (M.level g.nodes.length : ℕ) + 1 ≤ lim.vector :=
    (show (M.level g.nodes.length : ℕ) + 1 ≤ 2 ^ 32 by have := (M.level g.nodes.length).isLt; omega).trans lim.vector_large
  unfold insert
  simp only [hid]
  generalize (M.level g.nodes.length : ℕ) = level at hlevel
  rw [require_of hlevel, ok_bind, hv, ok_bind]
  set node : Node F := ⟨label, v, List.replicate (level + 1) [], false⟩ with hnode
  have hnil : ∀ links ∈ node.links, links = [] := fun links h => List.eq_of_mem_replicate h
  have hnew : ∀ e k, ∀ l < level + 1, Graph.OnLayer ⟨g.nodes ++ [node], e, k⟩ l g.nodes.length := fun e k l hl =>
    ⟨node, by simp, by rw [hnode, List.length_replicate]; exact hl⟩
  cases hentry : g.entryPoint with
  | none =>
    refine ⟨⟨g.nodes ++ [node], some g.nodes.length, level⟩, rfl, hg.push hlt hdim hnil (hnew _ _ level (by omega)), ?_⟩
    rw [List.length_append, List.length_singleton]
  | some cur =>
    have hcur := (hg.entry cur hentry).append [node] (some cur) g.maxLevel
    have hg₁ : Graph.Sound ⟨g.nodes ++ [node], some cur, g.maxLevel⟩ dim := hg.push hlt hdim hnil hcur
    have hat : Graph.nodeAt ⟨g.nodes ++ [node], some cur, g.maxLevel⟩ g.nodes.length = .ok node :=
      nodeAt_of_some (by simp)
    simp only [hat, ok_bind]
    obtain ⟨c, hc, hon⟩ : ∃ c, (List.range' (level + 1) (g.maxLevel - level)).reverse.foldlM
        (descendLayer lim M dim ⟨g.nodes ++ [node], some cur, g.maxLevel⟩ node.vec) cur = .ok c ∧
        Graph.OnLayer ⟨g.nodes ++ [node], some cur, g.maxLevel⟩ (min level g.maxLevel) c := by
      by_cases h : level ≤ g.maxLevel
      · rw [min_eq_left h]
        exact descend_runs hg₁ hdim level (g.maxLevel - level) (by rwa [Nat.add_sub_cancel' h])
      · rw [min_eq_right (by omega), Nat.sub_eq_zero_of_le (by omega)]
        exact ⟨cur, rfl, hcur⟩
    rw [hc, ok_bind]
    obtain ⟨⟨g', r⟩, hloop, hg', hsame⟩ := @insertLayers_runs F lim M dim _ node.vec hdim g.nodes.length (min level g.maxLevel + 1)
      c hg₁ (fun l hl => hnew _ _ l (by omega)) fun l hl => hon.mono (by omega)
    rw [hloop, ok_bind]
    have hsize : g'.nodes.length = g.nodes.length + 1 := by
      rw [hsame.size, List.length_append, List.length_singleton]
    dsimp only
    refine ⟨_, rfl, ?_, ?_⟩
    · split_ifs
      · refine ⟨hg'.size, hg'.vec, hg'.link, fun e he => ?_, fun h => absurd h (by simp)⟩
        obtain rfl := Option.some.inj he
        exact (hsame.layer _ _).2 (hnew _ _ level (by omega))
      · exact hg'
    · split_ifs <;> exact hsize

theorem replace_runs (hg : g.Sound dim) {id : ℕ} (hid : id < g.nodes.length) {vec : List Double} (hvec : vec.length = dim) :
    ∃ g', replace M dim g id vec = .ok g' ∧ g'.Sound dim ∧ g'.nodes.length = g.nodes.length := by
  obtain ⟨v, hv, hdim⟩ := @prepare_runs F M dim vec hvec
  have hnode := List.getElem?_eq_getElem hid
  obtain ⟨hg', hsame⟩ := hg.setNode { g.nodes[id] with vec := v, deleted := false } hnode rfl hdim
    fun l links hl nb hnb => hg.link _ (List.getElem_mem hid) l links hl nb hnb
  refine ⟨_, ?_, hg', hsame.size⟩
  rw [replace, nodeAt_of_some hnode, ok_bind, hv]
  rfl

theorem tombstone_runs (hg : g.Sound dim) {id : ℕ} (hid : id < g.nodes.length) :
    ∃ g', tombstone g id = .ok g' ∧ g'.Sound dim ∧ g'.nodes.length = g.nodes.length := by
  have hnode := List.getElem?_eq_getElem hid
  obtain ⟨hg', hsame⟩ := hg.setNode { g.nodes[id] with deleted := true } hnode rfl (hg.vec g.nodes[id] (List.getElem_mem hid))
    fun l links hl nb hnb => hg.link _ (List.getElem_mem hid) l links hl nb hnb
  refine ⟨_, ?_, hg', hsame.size⟩
  rw [tombstone, nodeAt_of_some hnode]
  rfl

theorem search_runs (hg : g.Sound dim) {query : List Double} (hquery : query.length = dim) (k ef : ℕ) :
    ∃ out, search lim M dim g query k ef = .ok out := by
  unfold search
  cases hentry : g.entryPoint with
  | none => exact ⟨[], rfl⟩
  | some cur =>
    dsimp only
    split_ifs
    · exact ⟨[], rfl⟩
    obtain ⟨q, hq, hdim⟩ := @prepare_runs F M dim query hquery
    obtain ⟨c, hc, hon⟩ := @descend_runs F lim M dim g q hg hdim 0 g.maxLevel cur (by rw [Nat.zero_add]; exact hg.entry cur hentry)
    obtain ⟨found, hfound, -, hmem⟩ := @searchLayer_runs F lim M dim g q (max ef k) 0 hg hdim c hon
    rw [Nat.zero_add] at hc
    rw [hq, ok_bind, hc, ok_bind, hfound, ok_bind]
    obtain ⟨out, hout, -⟩ := foldlM_keeps (fun _ => True) (g := collect M dim g q k) found (s := []) trivial fun out _ id hid => by
      obtain ⟨node, hnode, -⟩ := hmem id hid
      have hvec := hg.vec node (List.mem_of_getElem? hnode)
      unfold collect
      rw [nodeAt_of_some hnode, ok_bind, distance_runs hdim hvec]
      split_ifs
      · exact ⟨_, rfl, trivial⟩
      · exact ⟨_, rfl, trivial⟩
      · exact ⟨_, rfl, trivial⟩
    exact ⟨out, hout⟩

end Graphs

end BlazeKV.Hnsw

namespace BlazeKV

open Hnsw Lib

variable {F : Type} {lim : Limits} {M : Metric F}

/-- The graph of an index is closed, and its labels name nodes of it. -/
structure HnswIndex.Sound (x : HnswIndex (Graph F)) : Prop where
  graph : x.graph.Sound x.dim
  nodes : x.nodes = x.graph.nodes.length
  labels : ∀ e ∈ x.labels, e.2 < x.graph.nodes.length

def Vectors.Sound (vs : Vectors (Graph F)) : Prop := ∀ key x, vs key = some x → x.Sound

namespace Checked

theorem mem_of_lookup {labels : List (Bytes × ℕ)} {label : Bytes} {id : ℕ} (h : labels.lookup label = some id) :
    (label, id) ∈ labels := by
  obtain ⟨l₁, l₂, rfl, -⟩ := List.lookup_eq_some_iff.1 h
  simp

theorem indexAdd_runs {x : HnswIndex (Graph F)} (hx : x.Sound) {label : Bytes} {vec : List Double} (hvec : vec.length = x.dim)
    (hfit : x.labels.lookup label = none → x.nodes < 2 ^ 32) : ∃ r, indexAdd lim M x label vec = .ok r ∧ r.1.Sound := by
  unfold indexAdd
  cases hlabel : x.labels.lookup label with
  | some id =>
    have hid : id < x.graph.nodes.length := hx.labels _ (mem_of_lookup hlabel)
    obtain ⟨g, hg, hsound, hsize⟩ := @replace_runs F M x.dim x.graph hx.graph id hid vec hvec
    refine ⟨({ x with graph := g }, false), ?_, hsound, hx.nodes.trans hsize.symm, fun e he => (hx.labels e he).trans_eq hsize.symm⟩
    simp only [hg, ok_bind]
    rfl
  | none =>
    obtain ⟨g, hg, hsound, hsize⟩ := @insert_runs F lim M x.dim x.graph hx.graph (hx.nodes ▸ hfit hlabel) label vec hvec
    refine ⟨({ x with labels := (label, x.graph.nodes.length) :: x.labels, nodes := x.nodes + 1, graph := g }, true), ?_, hsound,
      by rw [hsize, hx.nodes], fun e he => ?_⟩
    · simp only [hg, ok_bind]
      rfl
    show e.2 < g.nodes.length
    rcases List.mem_cons.1 he with rfl | he
    · rw [hsize]
      exact Nat.lt_succ_self _
    · exact (hx.labels e he).trans (by omega)

theorem indexRemove_runs {x : HnswIndex (Graph F)} (hx : x.Sound) (label : Bytes) :
    ∃ r, indexRemove x label = .ok r ∧ r.1.Sound := by
  unfold indexRemove
  cases hlabel : x.labels.lookup label with
  | none => exact ⟨_, rfl, hx⟩
  | some id =>
    have hid : id < x.graph.nodes.length := hx.labels _ (mem_of_lookup hlabel)
    obtain ⟨g, hg, hsound, hsize⟩ := tombstone_runs hx.graph hid
    refine ⟨({ x with labels := x.labels.filter fun e => e.1 ≠ label, graph := g }, true), ?_, hsound,
      hx.nodes.trans hsize.symm, fun e he => (hx.labels e (List.mem_filter.1 he).1).trans_eq hsize.symm⟩
    simp only [hg, ok_bind]
    rfl

section Handlers

variable {argv : List Bytes} {vs : Vectors (Graph F)}

theorem parseVector_eq (argv : List Bytes) (start : ℕ) : parseVector argv start = .ok (BlazeKV.parseVector (argv.drop start)) := by
  have hnone : ∀ args : List Bytes, args.foldl (fun (vec : Option (List Double)) a =>
      vec.bind fun vec => (parseDouble a).map fun d => vec ++ [d]) none = none := by
    intro args
    induction args with
    | nil => rfl
    | cons a args ih => exact ih
  have hfold : ∀ (args : List Bytes) (acc : List Double), args.foldl (fun (vec : Option (List Double)) a =>
      vec.bind fun vec => (parseDouble a).map fun d => vec ++ [d]) (some acc) = (args.mapM parseDouble).map (acc ++ ·) := by
    intro args
    induction args with
    | nil => simp
    | cons a args ih =>
      intro acc
      rw [List.foldl_cons, List.mapM_cons]
      cases parseDouble a with
      | none => exact hnone args
      | some d =>
        refine (ih (acc ++ [d])).trans ?_
        cases args.mapM parseDouble <;> simp
  have hloop := foldlM_pure (ε := Fault) (argv.drop start) (some [])
    (f := fun vec a => vec.bind fun vec => (parseDouble a).map fun d => vec ++ [d])
    (g := fun vec a => .ok (vec.bind fun vec => (parseDouble a).map fun d => vec ++ [d])) fun _ _ _ => rfl
  rw [hfold] at hloop
  simp only [parseVector, forFrom_eq, pure_eq_ok, hloop, ok_bind, BlazeKV.parseVector, List.nil_append, Option.map_id']
  cases argv.drop start with
  | nil => rfl
  | cons a args =>
    rw [if_neg (List.cons_ne_nil a args), List.mapM_cons]
    cases parseDouble a with
    | none => rfl
    | some d => cases args.mapM parseDouble <;> rfl

/-- A vector that goes into an index under a new label finds an identifier. -/
def vaddFits (argv : List Bytes) (vs : Vectors (Graph F)) : Prop :=
  ∀ x, vs (arg argv 1) = some x → ∀ vec, BlazeKV.parseVector (argv.drop 3) = some vec → vec.length = x.dim →
    x.labels.lookup (arg argv 2) = none → x.nodes < 2 ^ 32

theorem put_sound {vs : Vectors (Graph F)} (hvs : vs.Sound) (key : Bytes) {x : HnswIndex (Graph F)} (hx : x.Sound) :
    Vectors.Sound (Function.update vs key (some x)) := by
  intro k y hy
  by_cases h : k = key
  · subst h
    rw [Function.update_self] at hy
    exact Option.some.inj hy ▸ hx
  · rw [Function.update_of_ne h] at hy
    exact hvs k y hy

theorem vadd_runs (hvs : vs.Sound) (h : 3 ≤ argv.length) (hfit : vaddFits argv vs) :
    ∃ r, vadd lim M argv vs = .ok r ∧ r.vectors.Sound := by
  simp only [vadd, parseVector_eq, ok_bind, argAt_of_lt (show 1 < argv.length by omega), argAt_of_lt (show 2 < argv.length by omega)]
  cases hvec : BlazeKV.parseVector (argv.drop 3) with
  | none => exact ⟨_, rfl, hvs⟩
  | some vec =>
    dsimp only
    cases hx : vs (arg argv 1) with
    | none =>
      have hnew : HnswIndex.Sound ⟨vec.length, [], 0, (Graph.empty : Graph F)⟩ := ⟨Graph.sound_empty, rfl, by simp⟩
      obtain ⟨r, hr, hsound⟩ := @indexAdd_runs F lim M _ hnew (arg argv 2) vec rfl fun _ => Nat.two_pow_pos 32
      exact ⟨_, by dsimp only; rw [hr]; rfl, put_sound hvs _ hsound⟩
    | some x =>
      dsimp only
      split_ifs with hdim
      · exact ⟨_, rfl, hvs⟩
      · have hdim := (not_not.1 hdim).symm
        obtain ⟨r, hr, hsound⟩ := @indexAdd_runs F lim M x (hvs _ x hx) (arg argv 2) vec hdim (hfit x hx vec hvec hdim)
        exact ⟨_, by rw [hr]; rfl, put_sound hvs _ hsound⟩

theorem vsim_runs (hvs : vs.Sound) (h : 3 ≤ argv.length) : ∃ r, vsim lim M argv vs = .ok r ∧ r.vectors.Sound := by
  simp only [vsim, parseVector_eq, ok_bind, argAt_of_lt (show 1 < argv.length by omega), argAt_of_lt (show 2 < argv.length by omega)]
  cases parseInt (arg argv 2) with
  | none => exact ⟨_, rfl, hvs⟩
  | some count =>
    dsimp only
    split_ifs
    · exact ⟨_, rfl, hvs⟩
    cases BlazeKV.parseVector (argv.drop 3) with
    | none => exact ⟨_, rfl, hvs⟩
    | some query =>
      dsimp only
      cases hx : vs (arg argv 1) with
      | none => exact ⟨_, rfl, hvs⟩
      | some x =>
        dsimp only
        split_ifs with hdim
        · exact ⟨_, rfl, hvs⟩
        · obtain ⟨out, hout⟩ := @search_runs F lim M x.dim x.graph (hvs _ x hx).graph query (not_not.1 hdim).symm count.toNat
            (u64 (count.toNat * 4 + 32))
          exact ⟨_, by rw [hout]; rfl, hvs⟩

theorem vcard_runs (hvs : vs.Sound) (h : 2 ≤ argv.length) : ∃ r, vcard argv vs = .ok r ∧ r.vectors.Sound := by
  simp only [vcard, argAt_of_lt (show 1 < argv.length by omega), ok_bind]
  exact ⟨_, rfl, hvs⟩

theorem vrem_runs (hvs : vs.Sound) (h : 3 ≤ argv.length) : ∃ r, vrem argv vs = .ok r ∧ r.vectors.Sound := by
  simp only [vrem, argAt_of_lt (show 1 < argv.length by omega), argAt_of_lt (show 2 < argv.length by omega), ok_bind]
  cases hx : vs (arg argv 1) with
  | none => exact ⟨_, rfl, hvs⟩
  | some x =>
    obtain ⟨r, hr, hsound⟩ := indexRemove_runs (hvs _ x hx) (arg argv 2)
    exact ⟨_, by simp only [hr, ok_bind]; rfl, put_sound hvs _ hsound⟩

end Handlers

end Checked

end BlazeKV
