import BlazeKV.Proofs.HnswLinks

/-! Runs of `add` and `remove` on an index, and the graph that they leave. -/

namespace BlazeKV

open Lib Hnsw

variable {F : Type}

/-- A call, with a vector of the dimension of the index. -/
inductive HnswOp (dim : ℕ)
  | add (label : Bytes) (vec : {v : List Double // v.length = dim})
  | remove (label : Bytes)

variable {dim : ℕ}

def HnswOp.run (lim : Limits) (M : Metric F) (x : HnswIndex (Graph F)) : HnswOp dim → Checked (HnswIndex (Graph F))
  | add label vec => do return (← Checked.indexAdd lim M x label vec.1).1
  | remove label => do return (← Checked.indexRemove x label).1

def HnswIndex.fresh (F : Type) (dim : ℕ) : HnswIndex (Graph F) := ⟨dim, [], 0, .empty⟩

def HnswIndex.runAll (lim : Limits) (M : Metric F) (ops : List (HnswOp dim)) (x : HnswIndex (Graph F)) : Checked (HnswIndex (Graph F)) :=
  ops.foldlM (HnswOp.run lim M) x

/-- A new label finds an identifier that is not taken. -/
def HnswOp.Fits (x : HnswIndex (Graph F)) : HnswOp dim → Prop
  | add label _ => x.labels.lookup label = none → x.nodes < 2 ^ 32
  | remove _ => True

/-- Every step of the run fits. -/
def HnswIndex.FitsAll (lim : Limits) (M : Metric F) : List (HnswOp dim) → HnswIndex (Graph F) → Prop
  | [], _ => True
  | op :: ops, x => op.Fits x ∧ ∀ x', op.run lim M x = .ok x' → FitsAll lim M ops x'

namespace Hnsw

/-- Every link leads to another node of its layer, at most once, the lists are short, and the search enters at the top. -/
structure Graph.WellFormed (g : Graph F) : Prop where
  link : ∀ c l links, g.linksOf c l = some links → ∀ nb ∈ links, nb ≠ c ∧ g.OnLayer l nb
  nodup : ∀ c l links, g.linksOf c l = some links → links.Nodup
  bound : ∀ c l links, g.linksOf c l = some links → links.length ≤ if l = 0 then m0 else m
  entry : ∀ e, g.entryPoint = some e → ∃ node, g.nodes[e]? = some node ∧ node.links.length = g.maxLevel + 1

section Graphs

variable {lim : Limits} {M : Metric F} {g g' : Graph F} {node old new : Node F} {c l : ℕ}

theorem linksOf_push (c l : ℕ) : (g.push node).linksOf c l = if c = g.nodes.length then node.links[l]? else g.linksOf c l := by
  unfold Graph.linksOf Graph.push
  dsimp only
  split_ifs with hc
  · rw [hc, List.getElem?_concat_length, Option.bind_some]
  · by_cases hlt : c < g.nodes.length
    · rw [List.getElem?_append_left hlt]
    · rw [List.getElem?_eq_none (by simp; omega), List.getElem?_eq_none (by omega)]

/-- The links of a node with a new vector or mark stay. -/
theorem linksOf_set (hold : g.nodes[c]? = some old) (hlinks : new.links = old.links) (c' l : ℕ) :
    Graph.linksOf { g with nodes := g.nodes.set c new } c' l = g.linksOf c' l := by
  unfold Graph.linksOf
  dsimp only
  rw [List.getElem?_set]
  split_ifs with he hlt
  · rw [← he, hold, Option.bind_some, Option.bind_some, hlinks]
  · rw [← he, hold]
    exact absurd (List.getElem?_eq_some_iff.1 hold).1 hlt
  · rfl

theorem mem_of_linksOf {links : List ℕ} (h : g.linksOf c l = some links) : ∃ node, g.nodes[c]? = some node ∧ node.links[l]? = some links :=
  Option.bind_eq_some_iff.1 h

theorem Graph.Sound.wellFormed (hs : g.Sound dim) (hn : g.Neat)
    (he : ∀ e, g.entryPoint = some e → ∃ node, g.nodes[e]? = some node ∧ node.links.length = g.maxLevel + 1) : g.WellFormed where
  link c l links h nb hnb := by
    obtain ⟨node, hnode, hlinks⟩ := mem_of_linksOf h
    exact ⟨fun heq => (hn c l links h).1 (heq ▸ hnb), hs.link node (List.mem_of_getElem? hnode) l links hlinks nb hnb⟩
  nodup c l links h := (hn c l links h).2.1
  bound c l links h := (hn c l links h).2.2
  entry := he

theorem Graph.WellFormed.neat (h : g.WellFormed) : g.Neat := fun c l links hl =>
  ⟨fun hc => (h.link c l links hl c hc).1 rfl, h.nodup c l links hl, h.bound c l links hl⟩

theorem insert_wellFormed (hg : g.WellFormed) (hlt : g.nodes.length < 2 ^ 32) {label : Bytes} {vec : List Double}
    {id : ℕ} (h : insert lim M dim g label vec = .ok (g', id)) (hs' : g'.Sound dim) : g'.WellFormed := by
  obtain ⟨hid, v, g₁, -, hrelinked, hneat, hg'⟩ := insert_ok h
  obtain rfl : id = g.nodes.length := hid.trans (Nat.mod_eq_of_lt hlt)
  have hpushed : (g.push (newNode M g label v)).Neat := by
    intro c l links hl
    rw [linksOf_push] at hl
    split_ifs at hl
    · obtain rfl : links = [] := List.eq_of_mem_replicate (List.mem_of_getElem? hl)
      exact ⟨by simp, List.nodup_nil, Nat.zero_le _⟩
    · exact hg.neat c l links hl
  have hnew : ∀ l, (g.push (newNode M g label v)).Unlinked g.nodes.length l := by
    intro l c links hl hmem
    rw [linksOf_push] at hl
    split_ifs at hl
    · obtain rfl : links = [] := List.eq_of_mem_replicate (List.mem_of_getElem? hl)
      cases hmem
    · exact absurd (hg.link c l links hl _ hmem).2.lt (lt_irrefl _)
  have hneat := hneat hpushed hnew
  have hbody : ∀ (e : ℕ) (node : Node F), (g.push (newNode M g label v)).nodes[e]? = some node →
      ∃ node', g₁.nodes[e]? = some node' ∧ node'.links.length = node.links.length := fun e node he => by
    obtain ⟨node', hnode', hb⟩ := hrelinked.symm.node he
    exact ⟨node', hnode', congrArg (fun b => b.2.2.2) hb⟩
  refine hs'.wellFormed ?_ ?_
  · rw [hg']
    split_ifs
    · exact hneat
    · exact hneat
  · intro e he
    rw [hg'] at he ⊢
    split_ifs at he ⊢ with htop
    · obtain rfl := Option.some.inj he
      obtain ⟨node', hnode', hlen⟩ := hbody g.nodes.length (newNode M g label v) List.getElem?_concat_length
      exact ⟨node', hnode', hlen.trans List.length_replicate⟩
    · rw [hrelinked.entryPoint] at he
      obtain ⟨node, hnode, hlen⟩ := hg.entry e he
      obtain ⟨node', hnode', hlen'⟩ := hbody e node
        ((List.getElem?_append_left (List.getElem?_eq_some_iff.1 hnode).1).trans hnode)
      exact ⟨node', hnode', by rw [hlen', hlen, hrelinked.maxLevel]; rfl⟩

theorem wellFormed_set (hg : g.WellFormed) (hold : g.nodes[c]? = some old) (hlinks : new.links = old.links)
    (hs' : Graph.Sound { g with nodes := g.nodes.set c new } dim) : Graph.WellFormed { g with nodes := g.nodes.set c new } := by
  refine hs'.wellFormed (fun c' l links h => hg.neat c' l links ?_) fun e he => ?_
  · rwa [linksOf_set hold hlinks] at h
  · obtain ⟨node, hnode, hlen⟩ := hg.entry e he
    dsimp only
    rw [List.getElem?_set]
    split_ifs with hc hlt
    · subst hc
      obtain rfl := Option.some.inj (hold.symm.trans hnode)
      exact ⟨new, rfl, by rw [hlinks, hlen]⟩
    · exact absurd (hc ▸ (List.getElem?_eq_some_iff.1 hold).1) hlt
    · exact ⟨node, hnode, hlen⟩

theorem wellFormed_empty : (Graph.empty : Graph F).WellFormed where
  link c l links h := by
    obtain ⟨node, hnode, -⟩ := mem_of_linksOf h
    cases hnode
  nodup c l links h := by
    obtain ⟨node, hnode, -⟩ := mem_of_linksOf h
    cases hnode
  bound c l links h := by
    obtain ⟨node, hnode, -⟩ := mem_of_linksOf h
    cases hnode
  entry e he := by cases he

end Graphs

end Hnsw

section Runs

variable {lim : Limits} {M : Metric F} {x x' : HnswIndex (Graph F)} {label : Bytes}

/-- A call under a label that is known changes one node, but not its links. -/
theorem replace_ok {g g' : Graph F} {id : ℕ} {vec : List Double} (h : replace M dim g id vec = .ok g') :
    ∃ old v, g.nodes[id]? = some old ∧ prepare M dim vec = .ok v ∧
      g' = { g with nodes := g.nodes.set id { old with vec := v, deleted := false } } := by
  obtain ⟨old, hold, h⟩ := of_bind_ok h
  obtain ⟨v, hv, h⟩ := of_bind_ok h
  exact ⟨old, v, of_readAt hold, hv, (Except.ok.inj h).symm⟩

theorem tombstone_ok {g g' : Graph F} {id : ℕ} (h : tombstone g id = .ok g') :
    ∃ old, g.nodes[id]? = some old ∧ g' = { g with nodes := g.nodes.set id { old with deleted := true } } := by
  obtain ⟨old, hold, h⟩ := of_bind_ok h
  exact ⟨old, of_readAt hold, (Except.ok.inj h).symm⟩

/-- The steps of a run, by what they do to the graph and to the labels. -/
theorem HnswOp.run_add (vec : {v : List Double // v.length = dim}) (h : (HnswOp.add label vec).run lim M x = .ok x') :
    (∃ id graph, x.labels.lookup label = some id ∧ replace M x.dim x.graph id vec.1 = .ok graph ∧ x' = { x with graph := graph }) ∨
      (∃ id graph, x.labels.lookup label = none ∧ insert lim M x.dim x.graph label vec.1 = .ok (graph, id) ∧
        x' = { x with labels := (label, id) :: x.labels, nodes := x.nodes + 1, graph := graph }) := by
  obtain ⟨r, hr, h⟩ := of_bind_ok h
  obtain rfl := Except.ok.inj h
  unfold Checked.indexAdd at hr
  cases hl : x.labels.lookup label with
  | some id =>
    simp only [hl] at hr
    obtain ⟨graph, hgraph, hr⟩ := of_bind_ok hr
    exact .inl ⟨id, graph, rfl, hgraph, by rw [← Except.ok.inj hr]⟩
  | none =>
    simp only [hl] at hr
    obtain ⟨⟨graph, id⟩, hgraph, hr⟩ := of_bind_ok hr
    exact .inr ⟨id, graph, rfl, hgraph, by rw [← Except.ok.inj hr]⟩

theorem HnswOp.run_remove (h : (HnswOp.remove label : HnswOp dim).run lim M x = .ok x') :
    (x.labels.lookup label = none ∧ x' = x) ∨
      ∃ id graph, x.labels.lookup label = some id ∧ tombstone x.graph id = .ok graph ∧
        x' = { x with labels := x.labels.filter fun e => e.1 ≠ label, graph := graph } := by
  obtain ⟨r, hr, h⟩ := of_bind_ok h
  obtain rfl := Except.ok.inj h
  unfold Checked.indexRemove at hr
  cases hl : x.labels.lookup label with
  | none =>
    simp only [hl] at hr
    exact .inl ⟨rfl, by rw [← Except.ok.inj hr]⟩
  | some id =>
    simp only [hl] at hr
    obtain ⟨graph, hgraph, hr⟩ := of_bind_ok hr
    exact .inr ⟨id, graph, rfl, hgraph, by rw [← Except.ok.inj hr]⟩

/-- What a run keeps of the graph of an index. -/
structure HnswIndex.Tidy (dim : ℕ) (x : HnswIndex (Graph F)) : Prop where
  sound : x.Sound
  dim : x.dim = dim
  wellFormed : x.graph.WellFormed

theorem HnswIndex.tidy_fresh : (HnswIndex.fresh F dim).Tidy dim :=
  ⟨⟨Graph.sound_empty, rfl, by simp [HnswIndex.fresh]⟩, rfl, wellFormed_empty⟩

theorem HnswOp.run_runs (hx : x.Tidy dim) (op : HnswOp dim) (hfit : op.Fits x) : ∃ x', op.run lim M x = .ok x' ∧ x'.Sound := by
  cases op with
  | add label vec =>
    obtain ⟨r, hr, hsound⟩ := @Checked.indexAdd_runs F lim M x hx.sound label vec.1 (vec.2.trans hx.dim.symm) hfit
    exact ⟨r.1, by rw [HnswOp.run, hr]; rfl, hsound⟩
  | remove label =>
    obtain ⟨r, hr, hsound⟩ := Checked.indexRemove_runs hx.sound label
    exact ⟨r.1, by rw [HnswOp.run, hr]; rfl, hsound⟩

theorem HnswOp.run_tidy (hx : x.Tidy dim) (op : HnswOp dim) (hfit : op.Fits x) (h : op.run lim M x = .ok x') (hs : x'.Sound) :
    x'.Tidy dim := by
  cases op with
  | add label vec =>
    obtain ⟨id, graph, -, hgraph, rfl⟩ | ⟨id, graph, hnew, hgraph, rfl⟩ := HnswOp.run_add vec h
    · obtain ⟨old, v, hold, -, rfl⟩ := replace_ok hgraph
      exact ⟨hs, hx.dim, wellFormed_set hx.wellFormed hold rfl hs.graph⟩
    · exact ⟨hs, hx.dim, insert_wellFormed hx.wellFormed (hx.sound.nodes ▸ hfit hnew) hgraph hs.graph⟩
  | remove label =>
    obtain ⟨-, rfl⟩ | ⟨id, graph, -, hgraph, rfl⟩ := HnswOp.run_remove h
    · exact hx
    · obtain ⟨old, hold, rfl⟩ := tombstone_ok hgraph
      exact ⟨hs, hx.dim, wellFormed_set hx.wellFormed hold rfl hs.graph⟩

theorem HnswIndex.runAll_tidy (hx : x.Tidy dim) (ops : List (HnswOp dim)) (hfit : HnswIndex.FitsAll lim M ops x) :
    ∃ x', HnswIndex.runAll lim M ops x = .ok x' ∧ x'.Tidy dim := by
  induction ops generalizing x with
  | nil => exact ⟨x, rfl, hx⟩
  | cons op ops ih =>
    obtain ⟨x₁, hrun, hs⟩ := HnswOp.run_runs hx op hfit.1
    obtain ⟨x', hrest, hx'⟩ := ih (HnswOp.run_tidy hx op hfit.1 hrun hs) (hfit.2 x₁ hrun)
    exact ⟨x', by rw [HnswIndex.runAll, List.foldlM_cons, hrun]; exact hrest, hx'⟩

/-- A search of an index ends without a fault. -/
theorem HnswIndex.Tidy.search_runs (hx : x.Tidy dim) (query : {v : List Double // v.length = dim}) (k ef : ℕ) :
    ∃ out, Hnsw.search lim M dim x.graph query.1 k ef = .ok out := by
  have hsound := hx.sound.graph
  rw [hx.dim] at hsound
  exact Hnsw.search_runs hsound query.2 k ef

end Runs

end BlazeKV
