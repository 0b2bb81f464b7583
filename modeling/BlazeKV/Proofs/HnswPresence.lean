import BlazeKV.Proofs.HnswWellFormed

/-! What an index answers. The labels that were added and not removed since are those of the nodes that are not deleted,
each with its latest vector. -/

namespace BlazeKV

open Lib Hnsw

variable {F : Type} {dim : ℕ}

/-- The labels that are present, with their latest vectors. -/
abbrev LatestVectors (dim : ℕ) := Bytes → Option {v : List Double // v.length = dim}

def HnswOp.latest (s : LatestVectors dim) : HnswOp dim → LatestVectors dim
  | add label vec => Function.update s label (some vec)
  | remove label => Function.update s label none

def latestAll (ops : List (HnswOp dim)) : LatestVectors dim := ops.foldl HnswOp.latest fun _ => none

/-- A vector as the nodes hold it. -/
def prepared (M : Metric F) (vec : {v : List Double // v.length = dim}) : List F := vec.1.map (M.prepare vec.1)

/-- The labels name the nodes that are not deleted. -/
structure HnswIndex.Presents (M : Metric F) (x : HnswIndex (Graph F)) (s : LatestVectors dim) : Prop where
  known : ∀ label vec, s label = some vec → ∃ id node, x.labels.lookup label = some id ∧ x.graph.nodes[id]? = some node ∧
    node.label = label ∧ node.deleted = false ∧ node.vec = prepared M vec
  unknown : ∀ label, s label = none → x.labels.lookup label = none
  alive : ∀ id node, x.graph.nodes[id]? = some node → node.deleted = false → x.labels.lookup node.label = some id
  keys : (x.labels.map Prod.fst).Nodup

section Labels

variable {labels : List (Bytes × ℕ)} {label : Bytes} {id : ℕ}

theorem lookup_push (labels : List (Bytes × ℕ)) (label : Bytes) (id : ℕ) (k : Bytes) :
    ((label, id) :: labels).lookup k = if k = label then some id else labels.lookup k := by
  rw [List.lookup_cons]
  by_cases h : k = label
  · rw [if_pos h, beq_iff_eq.2 h]
  · rw [if_neg h, beq_eq_false_iff_ne.2 h]

theorem lookup_without (labels : List (Bytes × ℕ)) (label k : Bytes) :
    (labels.filter fun e => e.1 ≠ label).lookup k = if k = label then none else labels.lookup k := by
  induction labels with
  | nil => simp
  | cons e labels ih =>
    obtain ⟨l, id⟩ := e
    rw [List.filter_cons, lookup_push]
    by_cases hl : l = label
    · subst hl
      simp only [ne_eq, not_true_eq_false, decide_false, Bool.false_eq_true, if_false]
      rw [ih]
      split_ifs <;> rfl
    · simp only [ne_eq, hl, not_false_eq_true, decide_true, if_true]
      rw [lookup_push, ih]
      by_cases hk : k = l
      · subst hk
        rw [if_pos rfl, if_neg hl, if_pos rfl]
      · rw [if_neg hk, if_neg hk]

theorem not_mem_keys (h : labels.lookup label = none) : label ∉ labels.map Prod.fst := by
  intro hmem
  obtain ⟨e, he, rfl⟩ := List.mem_map.1 hmem
  simpa using List.lookup_eq_none_iff.1 h e he

theorem mem_keys (h : labels.lookup label = some id) : label ∈ labels.map Prod.fst :=
  List.mem_map.2 ⟨_, Checked.mem_of_lookup h, rfl⟩

end Labels

theorem Hnsw.Node.body_eq {node node' : Hnsw.Node F} : node.body = node'.body ↔
    node.label = node'.label ∧ node.vec = node'.vec ∧ node.deleted = node'.deleted ∧ node.links.length = node'.links.length := by
  simp only [Node.body, Prod.mk.injEq]

section Steps

variable {lim : Limits} {M : Metric F} {x x' : HnswIndex (Graph F)} {s : LatestVectors dim} {label : Bytes} {id : ℕ}

theorem prepare_ok {v : List F} {vec : {v : List Double // v.length = dim}} (h : prepare M dim vec.1 = .ok v) : v = prepared M vec := by
  obtain ⟨_, -, h⟩ := of_bind_ok h
  obtain rfl := Except.ok.inj h
  rw [List.take_of_length_le vec.2.le]
  rfl

/-- A label that is known names a node of its own. -/
theorem HnswIndex.Presents.node (h : x.Presents M s) (hl : x.labels.lookup label = some id) :
    ∃ vec node, s label = some vec ∧ x.graph.nodes[id]? = some node ∧ node.label = label := by
  cases hs : s label with
  | none =>
    rw [h.unknown label hs] at hl
    cases hl
  | some vec =>
    obtain ⟨id', node, hl', hnode, hlabel, -⟩ := h.known label vec hs
    obtain rfl := Option.some.inj (hl'.symm.trans hl)
    exact ⟨vec, node, rfl, hnode, hlabel⟩

/-- Two labels name two nodes. -/
theorem HnswIndex.Presents.ne (h : x.Presents M s) (hl : x.labels.lookup label = some id) {label' : Bytes} {id' : ℕ}
    (hl' : x.labels.lookup label' = some id') (hne : label' ≠ label) : id ≠ id' := by
  rintro rfl
  obtain ⟨-, node, -, hnode, hlabel⟩ := h.node hl
  obtain ⟨-, node', -, hnode', hlabel'⟩ := h.node hl'
  obtain rfl := Option.some.inj (hnode.symm.trans hnode')
  exact hne (hlabel'.symm.trans hlabel)

theorem presents_fresh : (HnswIndex.fresh F dim).Presents M (fun _ => none : LatestVectors dim) where
  known label vec h := by cases h
  unknown label _ := rfl
  alive id node h := by cases h
  keys := List.nodup_nil

/-- A new vector for a label that is known. -/
theorem presents_replace (h : x.Presents M s) (hl : x.labels.lookup label = some id) (vec : {v : List Double // v.length = dim})
    {old : Hnsw.Node F} (hold : x.graph.nodes[id]? = some old) : HnswIndex.Presents M
      { x with graph := { x.graph with nodes := x.graph.nodes.set id { old with vec := prepared M vec, deleted := false } } }
      (Function.update s label (some vec)) := by
  have hlt := (List.getElem?_eq_some_iff.1 hold).1
  obtain ⟨-, node, -, hnode, hlabel⟩ := h.node hl
  obtain rfl := Option.some.inj (hold.symm.trans hnode)
  constructor
  · intro label' vec' hs
    dsimp only
    by_cases hne : label' = label
    · subst hne
      rw [Function.update_self] at hs
      obtain rfl := Option.some.inj hs
      exact ⟨id, _, hl, List.getElem?_set_self hlt, hlabel, rfl, rfl⟩
    · rw [Function.update_of_ne hne] at hs
      obtain ⟨id', node', hl', hnode', hrest⟩ := h.known label' vec' hs
      exact ⟨id', node', hl', by rw [List.getElem?_set_ne (h.ne hl hl' hne)]; exact hnode', hrest⟩
  · intro label' hs
    by_cases hne : label' = label
    · rw [hne, Function.update_self] at hs
      cases hs
    · rw [Function.update_of_ne hne] at hs
      exact h.unknown label' hs
  · intro id' node' hnode' hdeleted
    dsimp only at hnode' ⊢
    by_cases he : id = id'
    · subst he
      rw [List.getElem?_set_self hlt] at hnode'
      obtain rfl := Option.some.inj hnode'
      rw [← hlabel] at hl
      exact hl
    · rw [List.getElem?_set_ne he] at hnode'
      exact h.alive id' node' hnode' hdeleted
  · exact h.keys

/-- A label that goes, and leaves its node deleted. -/
theorem presents_remove (h : x.Presents M s) (hl : x.labels.lookup label = some id) {old : Hnsw.Node F}
    (hold : x.graph.nodes[id]? = some old) : HnswIndex.Presents M
      { x with
        labels := x.labels.filter fun e => e.1 ≠ label
        graph := { x.graph with nodes := x.graph.nodes.set id { old with deleted := true } } }
      (Function.update s label none) := by
  have hlt := (List.getElem?_eq_some_iff.1 hold).1
  constructor
  · intro label' vec' hs
    by_cases hne : label' = label
    · rw [hne, Function.update_self] at hs
      cases hs
    · rw [Function.update_of_ne hne] at hs
      obtain ⟨id', node', hl', hnode', hrest⟩ := h.known label' vec' hs
      refine ⟨id', node', ?_, ?_, hrest⟩
      · rw [lookup_without, if_neg hne]
        exact hl'
      · dsimp only
        rw [List.getElem?_set_ne (h.ne hl hl' hne)]
        exact hnode'
  · intro label' hs
    dsimp only
    rw [lookup_without]
    split_ifs with hne
    · rfl
    · rw [Function.update_of_ne hne] at hs
      exact h.unknown label' hs
  · intro id' node' hnode' hdeleted
    dsimp only at hnode' ⊢
    by_cases he : id = id'
    · subst he
      rw [List.getElem?_set_self hlt] at hnode'
      rw [← Option.some.inj hnode'] at hdeleted
      cases hdeleted
    · rw [List.getElem?_set_ne he] at hnode'
      have hl' := h.alive id' node' hnode' hdeleted
      rw [lookup_without, if_neg, hl']
      rintro hlabel
      rw [hlabel] at hl'
      exact he (Option.some.inj (hl.symm.trans hl'))
  · exact h.keys.sublist (List.filter_sublist.map Prod.fst)

/-- A new label, on a new node with links of its own. -/
theorem presents_insert (h : x.Presents M s) (hl : x.labels.lookup label = none) (vec : {v : List Double // v.length = dim})
    {g₁ g' : Graph F} (hrelinked : (x.graph.push (newNode M x.graph label (prepared M vec))).Relinked g₁) (hnodes : g'.nodes = g₁.nodes) :
    HnswIndex.Presents M
      { x with labels := (label, x.graph.nodes.length) :: x.labels, nodes := x.nodes + 1, graph := g' }
      (Function.update s label (some vec)) := by
  set new := newNode M x.graph label (prepared M vec) with hnew
  have hother : ∀ {label' : Bytes} {id : ℕ}, x.labels.lookup label' = some id → label' ≠ label := by
    rintro _ id hl' rfl
    rw [hl] at hl'
    cases hl'
  constructor
  · intro label' vec' hs
    dsimp only
    rw [lookup_push, hnodes]
    by_cases hne : label' = label
    · subst hne
      rw [Function.update_self] at hs
      obtain rfl := Option.some.inj hs
      obtain ⟨node', hnode', hbody⟩ := hrelinked.symm.node (c := x.graph.nodes.length) List.getElem?_concat_length
      obtain ⟨hlabel, hvec, hdeleted, -⟩ := Node.body_eq.1 hbody
      exact ⟨_, node', if_pos rfl, hnode', hlabel, hdeleted, hvec⟩
    · rw [Function.update_of_ne hne] at hs
      obtain ⟨id', node, hl', hnode, hlabel, hdeleted, hvec⟩ := h.known label' vec' hs
      obtain ⟨node', hnode', hbody⟩ := hrelinked.symm.node
        ((List.getElem?_append_left (List.getElem?_eq_some_iff.1 hnode).1).trans hnode)
      obtain ⟨hlabel', hvec', hdeleted', -⟩ := Node.body_eq.1 hbody
      exact ⟨id', node', by rw [if_neg hne, hl'], hnode', hlabel'.trans hlabel, hdeleted'.trans hdeleted, hvec'.trans hvec⟩
  · intro label' hs
    dsimp only
    rw [lookup_push]
    split_ifs with hne
    · rw [hne, Function.update_self] at hs
      cases hs
    · rw [Function.update_of_ne hne] at hs
      exact h.unknown label' hs
  · intro id' node' hnode' hdeleted
    dsimp only at hnode' ⊢
    rw [hnodes] at hnode'
    obtain ⟨node, hnode, hbody⟩ := hrelinked.node hnode'
    obtain ⟨hlabel, -, hdeleted', -⟩ := Node.body_eq.1 hbody
    rw [lookup_push, ← hlabel]
    by_cases hlt : id' < x.graph.nodes.length
    · have hl' := h.alive id' node ((List.getElem?_append_left hlt).symm.trans hnode) (hdeleted'.trans hdeleted)
      rw [if_neg (hother hl'), hl']
    · have hid : id' = x.graph.nodes.length := by
        have := (List.getElem?_eq_some_iff.1 hnode).1
        rw [Graph.push, List.length_append, List.length_singleton] at this
        omega
      subst hid
      obtain rfl := Option.some.inj (List.getElem?_concat_length.symm.trans hnode)
      exact if_pos rfl
  · exact List.nodup_cons.2 ⟨not_mem_keys hl, h.keys⟩

theorem HnswOp.run_presents (hx : x.Tidy dim) (h : x.Presents M s) (op : HnswOp dim) (hfit : op.Fits x)
    (hrun : op.run lim M x = .ok x') : x'.Presents M (op.latest s) := by
  cases op with
  | add label vec =>
    obtain ⟨id, graph, hl, hgraph, rfl⟩ | ⟨id, graph, hl, hgraph, rfl⟩ := HnswOp.run_add vec hrun
    · rw [hx.dim] at hgraph
      obtain ⟨old, v, hold, hv, rfl⟩ := replace_ok hgraph
      rw [prepare_ok hv]
      exact presents_replace h hl vec hold
    · rw [hx.dim] at hgraph
      obtain ⟨hid, v, g₁, hv, hrelinked, -, hg'⟩ := insert_ok hgraph
      obtain rfl : id = x.graph.nodes.length := hid.trans (Nat.mod_eq_of_lt (hx.sound.nodes ▸ hfit hl))
      rw [prepare_ok hv] at hrelinked
      refine presents_insert h hl vec hrelinked ?_
      rw [hg']
      split_ifs <;> rfl
  | remove label =>
    obtain ⟨hl, rfl⟩ | ⟨id, graph, hl, hgraph, rfl⟩ := HnswOp.run_remove hrun
    · have hs : s label = none := by
        by_contra hs
        obtain ⟨vec, hs⟩ := Option.ne_none_iff_exists'.1 hs
        obtain ⟨id, node, hl', -⟩ := h.known label vec hs
        rw [hl] at hl'
        cases hl'
      rw [HnswOp.latest, ← hs, Function.update_eq_self]
      exact h
    · obtain ⟨old, hold, rfl⟩ := tombstone_ok hgraph
      exact presents_remove h hl hold

theorem HnswIndex.runAll_presents (hx : x.Tidy dim) (h : x.Presents M s) (ops : List (HnswOp dim))
    (hfit : HnswIndex.FitsAll lim M ops x) : ∃ x', HnswIndex.runAll lim M ops x = .ok x' ∧ x'.Tidy dim ∧
      x'.Presents M (ops.foldl HnswOp.latest s) := by
  induction ops generalizing x s with
  | nil => exact ⟨x, rfl, hx, h⟩
  | cons op ops ih =>
    obtain ⟨x₁, hrun, hs⟩ := HnswOp.run_runs hx op hfit.1
    obtain ⟨x', hrest, hx'⟩ := ih (HnswOp.run_tidy hx op hfit.1 hrun hs) (HnswOp.run_presents hx h op hfit.1 hrun) (hfit.2 x₁ hrun)
    exact ⟨x', by rw [HnswIndex.runAll, List.foldlM_cons, hrun]; exact hrest, hx'⟩

/-- `size()` counts the labels that are present. -/
theorem HnswIndex.Presents.size_eq (h : x.Presents M s) : x.size = {label | (s label).isSome}.ncard := by
  have hset : {label | (s label).isSome} = ((x.labels.map Prod.fst).toFinset : Set Bytes) := by
    ext label
    rw [Set.mem_ofPred_eq, Finset.mem_coe, List.mem_toFinset]
    cases hs : s label with
    | none => exact iff_of_false (by simp) (not_mem_keys (h.unknown label hs))
    | some vec =>
      obtain ⟨id, node, hl, -⟩ := h.known label vec hs
      exact iff_of_true rfl (mem_keys hl)
  rw [hset, Set.ncard_coe_finset, List.toFinset_card_of_nodup h.keys, List.length_map]
  rfl

end Steps

section Search

variable {lim : Limits} {M : Metric F} {x : HnswIndex (Graph F)} {s : LatestVectors dim}

/-- The distance of a vector from a query. -/
def far (M : Metric F) (query vec : {v : List Double // v.length = dim}) : F := M.distance (prepared M query) (prepared M vec)

/-- What a search promises, for the labels that are present. -/
structure SearchLaw [LinearOrder F] (M : Metric F) (s : LatestVectors dim) (query : {v : List Double // v.length = dim}) (k : ℕ)
    (out : List (Bytes × Double)) : Prop where
  few : out.length ≤ k
  distinct : (out.map Prod.fst).Nodup
  scored : ∀ r ∈ out, ∃ vec, s r.1 = some vec ∧ r.2 = M.score (far M query vec)
  nearest : out.Pairwise fun a b => ∀ v w, s a.1 = some v → s b.1 = some w → far M query v ≤ far M query w

theorem length_prepared (vec : {v : List Double // v.length = dim}) : (prepared M vec).length = dim := by
  rw [prepared, List.length_map]
  exact vec.2

/-- A node that is not deleted is shown with its label, and its vector is the latest one. -/
theorem HnswIndex.Presents.shown_eq (h : x.Presents M s) {id : ℕ} {node : Hnsw.Node F} (hnode : x.graph.nodes[id]? = some node)
    (hdeleted : node.deleted = false) (query : {v : List Double // v.length = dim}) : ∃ vec, s node.label = some vec ∧
      away M dim (prepared M query) node = far M query vec ∧
      shown M dim x.graph (prepared M query) id = (node.label, M.score (far M query vec)) := by
  have hl := h.alive id node hnode hdeleted
  obtain ⟨vec, -, hs, -, -⟩ := h.node hl
  obtain ⟨id', node', hl', hnode', -, -, hvec⟩ := h.known node.label vec hs
  obtain rfl := Option.some.inj (hl.symm.trans hl')
  obtain rfl := Option.some.inj (hnode.symm.trans hnode')
  have haway : away M dim (prepared M query) node = far M query vec := by
    rw [away, far, hvec, List.take_of_length_le (length_prepared query).le, List.take_of_length_le (length_prepared vec).le]
  refine ⟨vec, hs, haway, ?_⟩
  rw [shown, hnode, ← haway]
  rfl

theorem search_law [LinearOrder F] (hM : M.Ordered) (h : x.Presents M s) (query : {v : List Double // v.length = dim}) {k ef : ℕ}
    {out : List (Bytes × Double)} (hsearch : Hnsw.search lim M dim x.graph query.1 k ef = .ok out) : SearchLaw M s query k out := by
  unfold Hnsw.search at hsearch
  cases hentry : x.graph.entryPoint with
  | none =>
    rw [hentry] at hsearch
    obtain rfl := Except.ok.inj hsearch
    exact ⟨Nat.zero_le k, List.nodup_nil, by simp, List.Pairwise.nil⟩
  | some cur =>
    simp only [hentry] at hsearch
    split_ifs at hsearch
    · obtain rfl := Except.ok.inj hsearch
      exact ⟨Nat.zero_le k, List.nodup_nil, by simp, List.Pairwise.nil⟩
    obtain ⟨q, hq, hsearch⟩ := of_bind_ok hsearch
    obtain rfl := prepare_ok hq
    obtain ⟨cur, -, hsearch⟩ := of_bind_ok hsearch
    obtain ⟨found, hfound, hsearch⟩ := of_bind_ok hsearch
    have hnodup := searchLayer_nodup hfound
    obtain ⟨st, hst, hdrain⟩ := searchLayer_ok hfound
    obtain ⟨items, hperm, rfl, hsorted⟩ := @drain_sorted F _ M hM _ _ [] _ hdrain List.Pairwise.nil (by simp)
    rw [List.append_nil] at hperm
    obtain ⟨hlen, ids, hsub, rfl, hids⟩ := collect_ok hsearch (Nat.zero_le k)
    obtain ⟨kept, hkept, rfl⟩ := List.sublist_map_iff.1 hsub
    rw [List.nil_append] at hlen ⊢
    -- what is shown of a result
    have hshown : ∀ c ∈ kept, ∃ node vec, x.graph.nodes[c.2]? = some node ∧ node.deleted = false ∧ s node.label = some vec ∧
        c.1 = far M query vec ∧ shown M dim x.graph (prepared M query) c.2 = (node.label, M.score (far M query vec)) := fun c hc => by
      obtain ⟨node, hnode, hdeleted⟩ := hids c.2 (List.mem_map_of_mem hc)
      obtain ⟨node', hnode', hdist⟩ := hst.distance c (hperm.subset (hkept.subset hc))
      obtain rfl := Option.some.inj (hnode.symm.trans hnode')
      obtain ⟨vec, hs, haway, hshow⟩ := h.shown_eq hnode hdeleted query
      exact ⟨node, vec, hnode, hdeleted, hs, hdist.trans haway, hshow⟩
    refine ⟨hlen, ?_, ?_, ?_⟩
    · rw [@List.map_map _ _ _ Prod.fst]
      refine List.Nodup.map_on (fun i hi j hj hij => ?_) (hnodup.sublist hsub)
      obtain ⟨a, ha, rfl⟩ := List.mem_map.1 hi
      obtain ⟨b, hb, rfl⟩ := List.mem_map.1 hj
      obtain ⟨node, vec, hnode, hdeleted, -, -, hshow⟩ := hshown a ha
      obtain ⟨node', vec', hnode', hdeleted', -, -, hshow'⟩ := hshown b hb
      simp only [Function.comp_apply, hshow, hshow'] at hij
      have hl := h.alive _ _ hnode hdeleted
      rw [hij, h.alive _ _ hnode' hdeleted'] at hl
      exact (Option.some.inj hl).symm
    · intro r hr
      rw [List.map_map] at hr
      obtain ⟨c, hc, rfl⟩ := List.mem_map.1 hr
      obtain ⟨node, vec, -, -, hs, -, hshow⟩ := hshown c hc
      rw [Function.comp_apply, hshow]
      exact ⟨vec, hs, rfl⟩
    · rw [List.map_map, List.pairwise_map]
      refine (hsorted.sublist hkept).imp_of_mem fun {a b} ha hb hle v w hv hw => ?_
      obtain ⟨node, vec, -, -, hs, hdist, hshow⟩ := hshown a ha
      obtain ⟨node', vec', -, -, hs', hdist', hshow'⟩ := hshown b hb
      simp only [Function.comp_apply, hshow, hshow'] at hv hw
      rw [hs] at hv
      rw [hs'] at hw
      rw [← Option.some.inj hv, ← Option.some.inj hw, ← hdist, ← hdist']
      exact hle

/-- In every run whose steps fit, the index counts the labels that are present, and a search shows some of them, the
nearest first. -/
theorem search_present [LinearOrder F] (hM : M.Ordered) (ops : List (HnswOp dim)) (hfit : HnswIndex.FitsAll lim M ops (.fresh F dim)) :
    ∃ x, HnswIndex.runAll lim M ops (.fresh F dim) = .ok x ∧ x.size = {label | (latestAll ops label).isSome}.ncard ∧
      ∀ query k ef, ∃ out, Hnsw.search lim M dim x.graph query.1 k ef = .ok out ∧ SearchLaw M (latestAll ops) query k out := by
  obtain ⟨x, hrun, hx, hp⟩ := HnswIndex.runAll_presents (M := M) HnswIndex.tidy_fresh presents_fresh ops hfit
  refine ⟨x, hrun, hp.size_eq, fun query k ef => ?_⟩
  obtain ⟨out, hout⟩ := hx.search_runs query k ef
  exact ⟨out, hout, search_law hM hp query hout⟩

/-- Where no distance is smaller than another, a search for one result stays where it enters. -/
theorem searchLayer_flat {g : Graph F} {q : List F} {entry level : ℕ} {out : List ℕ}
    (hflat : ∀ a b c d, M.lt (M.distance a b) (M.distance c d) = false) (h : searchLayer lim M dim g q entry 1 level = .ok out) :
    out = [entry] := by
  obtain ⟨st, ⟨node, hst⟩, hdrain⟩ := searchLayer_keeps (fun st => ∃ node, st.results = [(away M dim q node, entry)])
    (fun _ hs => hs) (fun st st' nb hv hs => by
      obtain ⟨node, hs⟩ := hs
      obtain rfl | ⟨-, node', -, b, hb, rfl⟩ := visit_ok hv
      · exact ⟨node, hs⟩
      · rw [hs, isCloser, if_neg (by simp)] at hb
        obtain ⟨c, hc, hb⟩ := of_bind_ok hb
        have hc := of_readAt hc
        rw [List.length_singleton, Nat.mod_one] at hc
        obtain rfl := Option.some.inj hc
        obtain rfl : false = b := (hflat _ _ _ _).symm.trans (Except.ok.inj hb)
        exact ⟨node, hs⟩)
    (fun node _ _ _ => ⟨node, rfl⟩) h
  have hperm := drain_perm hdrain
  rw [hst] at hperm
  exact List.perm_singleton.1 hperm

end Search

/-- All distances are the same, and all nodes have one layer. -/
def plain : Metric ℕ := .ofOrder (fun _ _ => 0) (fun _ _ => 0) (fun _ => .zero) fun _ => 0

/-- A label that is removed is not shown. -/
theorem search_present_removed : ∃ x, HnswIndex.runAll Checked.wide plain [crowdOp 0, crowdOp 1, .remove (decimal 0)] (.fresh ℕ 1) =
    .ok x ∧ ∀ (query : {v : List Double // v.length = 1}) (k ef : ℕ), ∃ out,
      Hnsw.search Checked.wide plain 1 x.graph query.1 k ef = .ok out ∧ ∀ r ∈ out, r.1 ≠ decimal 0 := by
  have hgone : latestAll [crowdOp 0, crowdOp 1, .remove (decimal 0)] (decimal 0) = none := by
    simp [latestAll, HnswOp.latest]
  obtain ⟨x, hrun, -, hsearch⟩ := @search_present ℕ 1 Checked.wide plain _ (Metric.ofOrder_ordered ..)
    [crowdOp 0, crowdOp 1, .remove (decimal 0)] (fitsAll_of_short _ (by decide))
  refine ⟨x, hrun, fun query k ef => ?_⟩
  obtain ⟨out, hout, hlaw⟩ := hsearch query k ef
  refine ⟨out, hout, fun r hr hlabel => ?_⟩
  obtain ⟨vec, hs, -⟩ := hlaw.scored r hr
  rw [hlabel, hgone] at hs
  cases hs

/-- The identifier of the first node is given to one more label, and its node is deleted and comes back. -/
def reused : List (HnswOp 1) := crowd (2 ^ 32 + 1) ++ [.remove (decimal 0)] ++ [crowdOp (2 ^ 32)]

section Reused

variable {lim : Limits} {M : Metric F} {x x' : HnswIndex (Graph F)}

/-- After the run the search enters at a node that is not deleted, and whose label is not present. -/
theorem reused_graph (hlevel : ∀ i, (M.level i : ℕ) = 0) (hrun : HnswIndex.runAll lim M reused (.fresh F 1) = .ok x') :
    x'.graph.entryPoint = some 0 ∧ x'.graph.maxLevel = 0 ∧
      ∃ node, x'.graph.nodes[0]? = some node ∧ node.label = decimal 0 ∧ node.deleted = false := by
  have hlength : (crowd (2 ^ 32)).length = 2 ^ 32 := by rw [crowd, List.length_map, List.length_range]
  obtain ⟨x, hcrowd, -, hp⟩ := @HnswIndex.runAll_presents F 1 lim M _ _ HnswIndex.tidy_fresh presents_fresh (crowd (2 ^ 32))
    (fitsAll_of_short _ (by rw [hlength]; exact le_of_eq (Nat.zero_add _)))
  obtain ⟨y, hcrowd', -, hc⟩ := @crowd_runs F lim M (2 ^ 32) le_rfl fun i _ => hlevel i
  obtain rfl := Except.ok.inj (hcrowd.symm.trans hcrowd')
  rw [reused, runAll_append, runAll_append, crowd_succ, runAll_append, hcrowd] at hrun
  obtain ⟨x₂, hrun, hadd⟩ := of_bind_ok hrun
  obtain ⟨x₁, hfirst, hremove⟩ := of_bind_ok hrun
  obtain ⟨v, g₁, hrelinked, hlabels, hgraph⟩ := hc.add hfirst
  -- the node at the front, after all labels that have identifiers of their own
  have hpos : 0 < 2 ^ 32 := Nat.two_pow_pos 32
  have hlt : 0 < x.graph.nodes.length := hc.length ▸ hpos
  have hnode := List.getElem?_eq_getElem hlt
  obtain ⟨hlabel, hdeleted, -⟩ := hc.node hpos hnode
  have hl := hp.alive 0 _ hnode hdeleted
  rw [hlabel] at hl
  have hentry : x.graph.entryPoint = some 0 := hc.entry.trans (if_neg hpos.ne')
  rw [hlevel, hentry, if_neg (by simp)] at hgraph
  have hwrapped : u32 (2 ^ 32) = 0 := rfl
  have hne : decimal 0 ≠ decimal (2 ^ 32) := fun h => hpos.ne (decimal_injective h)
  obtain ⟨node₁, hnode₁, hbody⟩ := hrelinked.symm.node ((List.getElem?_append_left hlt).trans hnode)
  have hlabel₁ : node₁.label = decimal 0 := (Node.body_eq.1 hbody).1.trans hlabel
  obtain ⟨hnone, -⟩ | ⟨id, g₂, hid, htomb, rfl⟩ := HnswOp.run_remove hremove
  · rw [hlabels, lookup_push, if_neg hne, hl] at hnone
    cases hnone
  rw [hlabels, lookup_push, if_neg hne, hl] at hid
  obtain rfl := Option.some.inj hid
  obtain ⟨old, hold, rfl⟩ := tombstone_ok htomb
  rw [hgraph] at hold
  obtain rfl := Option.some.inj (hnode₁.symm.trans hold)
  have hback : (x₁.labels.filter fun e => e.1 ≠ decimal 0).lookup (decimal (2 ^ 32)) = some 0 := by
    rw [lookup_without, if_neg hne.symm, hlabels, lookup_push, if_pos rfl, hwrapped]
  obtain ⟨id, g₃, hid, hreplace, rfl⟩ | ⟨id, g₃, hnone, -⟩ := HnswOp.run_add _ hadd
  · obtain rfl := Option.some.inj (hback.symm.trans hid)
    obtain ⟨old, w, hold, -, rfl⟩ := replace_ok hreplace
    have hlt₁ : 0 < x₁.graph.nodes.length := hgraph ▸ (List.getElem?_eq_some_iff.1 hnode₁).1
    rw [List.getElem?_set_self hlt₁] at hold
    obtain rfl := Option.some.inj hold
    dsimp only
    refine ⟨?_, ?_, _, List.getElem?_set_self (by rwa [List.length_set]), hlabel₁, rfl⟩
    · rw [hgraph, hrelinked.entryPoint]
      exact hentry
    · rw [hgraph, hrelinked.maxLevel]
      exact hc.maxLevel
  · rw [hback] at hnone
    cases hnone

end Reused

/-- A search for one result shows the label that was removed. -/
theorem search_shows_removed : ¬∃ x, HnswIndex.runAll Checked.wide plain reused (.fresh ℕ 1) = .ok x ∧
    x.size = {label | (latestAll reused label).isSome}.ncard ∧ ∀ query k ef, ∃ out,
      Hnsw.search Checked.wide plain 1 x.graph query.1 k ef = .ok out ∧ SearchLaw plain (latestAll reused) query k out := by
  rintro ⟨x, hrun, -, hsearch⟩
  obtain ⟨hentry, hlevel, node, hnode, hlabel, hdeleted⟩ := reused_graph (fun _ => rfl) hrun
  obtain ⟨out, hout, hlaw⟩ := hsearch ⟨[.zero], rfl⟩ 1 1
  unfold Hnsw.search at hout
  simp only [hentry, hlevel, one_ne_zero, if_false] at hout
  obtain ⟨q, -, hout⟩ := of_bind_ok hout
  obtain ⟨cur, hcur, hout⟩ := of_bind_ok hout
  obtain rfl := Except.ok.inj hcur
  obtain ⟨found, hfound, hout⟩ := of_bind_ok hout
  obtain rfl := searchLayer_flat (fun _ _ _ _ => rfl) hfound
  rw [List.foldlM_cons] at hout
  obtain ⟨out₁, hcollect, hout⟩ := of_bind_ok hout
  obtain rfl := Except.ok.inj hout
  rw [Hnsw.collect, if_neg (by simp), nodeAt_of_some hnode, ok_bind, if_neg (by simp [hdeleted])] at hcollect
  obtain ⟨d, -, hcollect⟩ := of_bind_ok hcollect
  obtain rfl := Except.ok.inj hcollect
  obtain ⟨vec, hs, -⟩ := hlaw.scored (node.label, plain.score d) (by simp)
  have hne : decimal 0 ≠ decimal (2 ^ 32) := fun h => (Nat.two_pow_pos 32).ne (decimal_injective h)
  rw [hlabel, latestAll, reused, List.foldl_concat, List.foldl_concat] at hs
  rw [show HnswOp.latest _ (crowdOp (2 ^ 32)) = Function.update _ (decimal (2 ^ 32)) _ from rfl, Function.update_of_ne hne,
    show HnswOp.latest _ (.remove (decimal 0)) = Function.update _ (decimal 0) none from rfl, Function.update_self] at hs
  cases hs

end BlazeKV
