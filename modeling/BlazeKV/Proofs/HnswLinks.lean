import BlazeKV.Proofs.HnswResults

/-! What the updates of a graph do to its links, told of the updates that end without a fault. -/

namespace BlazeKV.Hnsw

open Lib

variable {F : Type}

/-- The links of node `c` on layer `l`. -/
def Graph.linksOf (g : Graph F) (c l : ℕ) : Option (List ℕ) := (g.nodes[c]?).bind fun node => node.links[l]?

/-- A node without its links; the number of its layers stays. -/
def Node.body (node : Node F) : Bytes × List F × Bool × ℕ := (node.label, node.vec, node.deleted, node.links.length)

/-- Equal but for the links. -/
structure Graph.Relinked (g g' : Graph F) : Prop where
  bodies : g'.nodes.map Node.body = g.nodes.map Node.body
  entryPoint : g'.entryPoint = g.entryPoint
  maxLevel : g'.maxLevel = g.maxLevel

section Relinked

variable {g g' g'' : Graph F} {c l : ℕ}

theorem Graph.Relinked.refl (g : Graph F) : g.Relinked g := ⟨rfl, rfl, rfl⟩

theorem Graph.Relinked.symm (h : g.Relinked g') : g'.Relinked g := ⟨h.bodies.symm, h.entryPoint.symm, h.maxLevel.symm⟩

theorem Graph.Relinked.trans (h : g.Relinked g') (h' : g'.Relinked g'') : g.Relinked g'' :=
  ⟨h'.bodies.trans h.bodies, h'.entryPoint.trans h.entryPoint, h'.maxLevel.trans h.maxLevel⟩

theorem Graph.Relinked.length (h : g.Relinked g') : g'.nodes.length = g.nodes.length := by
  simpa using congrArg List.length h.bodies

theorem Graph.Relinked.node (h : g.Relinked g') {node' : Node F} (hc : g'.nodes[c]? = some node') :
    ∃ node, g.nodes[c]? = some node ∧ node.body = node'.body := by
  have := congrArg (fun bodies => bodies[c]?) h.bodies
  rw [List.getElem?_map, List.getElem?_map, hc, Option.map_some] at this
  exact Option.map_eq_some_iff.1 this.symm

end Relinked

section Links

variable {lim : Limits} {M : Metric F} {dim : ℕ} {g g' : Graph F} {q : List F} {level c : ℕ}

theorem setLinks_ok {links : List ℕ} (h : setLinks g c level links = .ok g') : g.Relinked g' ∧
    ∀ c' l, g'.linksOf c' l = if c' = c ∧ l = level then some links else g.linksOf c' l := by
  obtain ⟨node, hnode, h⟩ := of_bind_ok h
  obtain ⟨old, hold, h⟩ := of_bind_ok h
  have hnode := of_readAt hnode
  obtain ⟨hc, hget⟩ := List.getElem?_eq_some_iff.1 hnode
  obtain ⟨hlevel, -⟩ := List.getElem?_eq_some_iff.1 (of_readAt hold)
  obtain rfl := Except.ok.inj h
  refine ⟨⟨?_, rfl, rfl⟩, fun c' l => ?_⟩
  · have hself := @List.set_getElem_self _ (g.nodes.map Node.body) c (by simpa using hc)
    rw [List.map_set]
    refine Eq.trans ?_ hself
    simp [Node.body, hget]
  · unfold Graph.linksOf
    rw [List.getElem?_set]
    by_cases he : c = c'
    · subst he
      simp only [if_pos, hc, Option.bind_some, List.getElem?_set, hnode, true_and]
      by_cases hl : level = l
      · subst hl
        simp [hlevel]
      · simp [hl, Ne.symm hl]
    · simp [he, Ne.symm he]

/-- Pruning keeps some of the links, and not too many. -/
theorem prune_ok {maxLinks : ℕ} {links kept : List ℕ} (h : prune M dim g c maxLinks links = .ok kept) :
    kept.Subperm links ∧ kept.length ≤ maxLinks := by
  unfold prune at h
  split_ifs at h with hlong
  · obtain ⟨node, -, h⟩ := of_bind_ok h
    obtain ⟨ds, hds, h⟩ := of_bind_ok h
    obtain rfl := Except.ok.inj h
    have hall : List.Forall₂ (fun a p => a = Prod.snd p) links ds := (of_mapM hds).imp fun a p hp => by
      obtain ⟨_, -, hp⟩ := of_bind_ok hp
      obtain ⟨_, -, hp⟩ := of_bind_ok hp
      exact congrArg Prod.snd (Except.ok.inj hp)
    have hsnd : links = ds.map Prod.snd := by
      rw [← List.forall₂_eq_eq_eq]
      exact List.forall₂_map_right_iff.2 hall
    refine ⟨?_, List.length_take_le ..⟩
    rw [hsnd]
    exact (List.take_sublist _ _).subperm.trans ((M.sort_perm ds).map Prod.snd).subperm
  · obtain rfl := Except.ok.inj h
    exact ⟨List.Subperm.refl _, not_lt.1 hlong⟩

theorem linkBack_ok {id maxLinks : ℕ} (h : linkBack M dim id level maxLinks g c = .ok g') : g.Relinked g' ∧
    ∃ old kept, g.linksOf c level = some old ∧ kept.Subperm (old ++ [id]) ∧ kept.length ≤ maxLinks ∧
      ∀ c' l, g'.linksOf c' l = if c' = c ∧ l = level then some kept else g.linksOf c' l := by
  obtain ⟨node, hnode, h⟩ := of_bind_ok h
  obtain ⟨old, hold, h⟩ := of_bind_ok h
  obtain ⟨kept, hkept, h⟩ := of_bind_ok h
  obtain ⟨hsub, hlen⟩ := prune_ok hkept
  obtain ⟨hsame, hlinks⟩ := setLinks_ok h
  refine ⟨hsame, old, kept, ?_, hsub, hlen, hlinks⟩
  rw [Graph.linksOf, of_readAt hnode, Option.bind_some, of_readAt hold]

/-- What the links of node `c` on layer `l` must be, besides leading to nodes of that layer. -/
def NeatLinks (c l : ℕ) (links : List ℕ) : Prop := c ∉ links ∧ links.Nodup ∧ links.length ≤ if l = 0 then m0 else m

def Graph.Neat (g : Graph F) : Prop := ∀ c l links, g.linksOf c l = some links → NeatLinks c l links

/-- Nothing on layer `l` leads to `id`. -/
def Graph.Unlinked (g : Graph F) (id l : ℕ) : Prop := ∀ c links, g.linksOf c l = some links → id ∉ links

theorem linkBack_neat {id : ℕ} (h : linkBack M dim id level (if level = 0 then m0 else m) g c = .ok g') (hg : g.Neat)
    (hne : c ≠ id) (hnew : ∀ links, g.linksOf c level = some links → id ∉ links) : g'.Neat := by
  obtain ⟨-, old, kept, hold, hsub, hlen, hlinks⟩ := linkBack_ok h
  obtain ⟨hself, hnodup, -⟩ := hg c level old hold
  intro c' l links hl
  rw [hlinks] at hl
  split_ifs at hl with he
  · obtain ⟨rfl, rfl⟩ := he
    obtain rfl := Option.some.inj hl
    refine ⟨fun hc => ?_, ?_, hlen⟩
    · rcases List.mem_append.1 (hsub.subset hc) with hc | hc
      · exact hself hc
      · exact hne (List.mem_singleton.1 hc)
    · have hall : (old ++ [id]).Nodup := List.nodup_append.2 ⟨hnodup, List.nodup_singleton id, fun a ha b hb hab =>
        hnew old hold (List.mem_singleton.1 hb ▸ hab ▸ ha)⟩
      obtain ⟨p, hperm, hsub⟩ := hsub
      exact hperm.nodup_iff.1 (hall.sublist hsub)
  · exact hg c' l links hl

/-- The back-links, one for each of the nodes that the new one links to. -/
theorem linkBacks_neat {id : ℕ} {links : List ℕ} (h : links.foldlM (linkBack M dim id level (if level = 0 then m0 else m)) g = .ok g')
    (hg : g.Neat) (hnodup : links.Nodup) (hid : id ∉ links)
    (hnew : ∀ c ∈ links, ∀ ls, g.linksOf c level = some ls → id ∉ ls) :
    g'.Neat ∧ ∀ c l, l ≠ level → g'.linksOf c l = g.linksOf c l := by
  induction links generalizing g with
  | nil =>
    obtain rfl := Except.ok.inj h
    exact ⟨hg, fun _ _ _ => rfl⟩
  | cons c links ih =>
    rw [List.foldlM_cons] at h
    obtain ⟨g₁, hfirst, hrest⟩ := of_bind_ok h
    obtain ⟨hnotin, hnodup⟩ := List.nodup_cons.1 hnodup
    have hne : c ≠ id := fun hc => hid (hc ▸ List.mem_cons_self)
    have hg₁ := linkBack_neat hfirst hg hne (hnew c List.mem_cons_self)
    obtain ⟨-, old, kept, -, -, -, hlinks⟩ := linkBack_ok hfirst
    obtain ⟨hneat, hother⟩ := ih hrest hg₁ hnodup (fun hc => hid (List.mem_cons_of_mem c hc)) fun c' hc' ls hls => by
      have hother : ¬(c' = c ∧ level = level) := fun he => hnotin (he.1 ▸ hc')
      rw [hlinks, if_neg hother] at hls
      exact hnew c' (List.mem_cons_of_mem c hc') ls hls
    refine ⟨hneat, fun c' l hl => ?_⟩
    rw [hother c' l hl, hlinks, if_neg fun he => hl he.2]

theorem connect_relinked {id : ℕ} {candidates : List ℕ} (h : connect M dim g id level candidates = .ok g') : g.Relinked g' := by
  obtain ⟨g₁, hset, hloop⟩ := of_bind_ok h
  exact of_foldlM (fun s => g.Relinked s) hloop (setLinks_ok hset).1 fun s s' hs c _ he => hs.trans (linkBack_ok he).1

theorem connect_neat {id : ℕ} {candidates : List ℕ} (h : connect M dim g id level candidates = .ok g') (hg : g.Neat)
    (hnodup : candidates.Nodup) (hnew : g.Unlinked id level) : g'.Neat ∧ ∀ c l, l ≠ level → g'.linksOf c l = g.linksOf c l := by
  obtain ⟨g₁, hset, hloop⟩ := of_bind_ok h
  obtain ⟨-, hlinks⟩ := setLinks_ok hset
  set links := (candidates.filter fun c => c ≠ id).take (if level = 0 then m0 else m) with hdef
  have hid : id ∉ links := fun hc => by simpa using (List.mem_filter.1 (List.mem_of_mem_take hc)).2
  have hnodup : links.Nodup := (hnodup.filter _).sublist (List.take_sublist _ _)
  have hg₁ : g₁.Neat := by
    intro c l ls hls
    rw [hlinks] at hls
    split_ifs at hls with he
    · obtain ⟨rfl, rfl⟩ := he
      obtain rfl := Option.some.inj hls
      exact ⟨hid, hnodup, List.length_take_le ..⟩
    · exact hg c l ls hls
  obtain ⟨hneat, hother⟩ := linkBacks_neat hloop hg₁ hnodup hid fun c _ ls hls => by
    rw [hlinks] at hls
    split_ifs at hls
    · exact Option.some.inj hls ▸ hid
    · exact hnew c ls hls
  refine ⟨hneat, fun c l hl => ?_⟩
  rw [hother c l hl, hlinks, if_neg fun he => hl he.2]

/-- The layers of the new node, from `n - 1` down to `0`. Those that are still to come do not know it. -/
theorem insertLayers_ok {id cur : ℕ} (n : ℕ) {r : Graph F × ℕ}
    (h : (List.range n).reverse.foldlM (insertLayer lim M dim id q) (g, cur) = .ok r) : g.Relinked r.1 ∧
      (g.Neat → (∀ l < n, g.Unlinked id l) → r.1.Neat) := by
  induction n generalizing g cur with
  | zero =>
    obtain rfl := Except.ok.inj h
    exact ⟨.refl g, fun hg _ => hg⟩
  | succ n ih =>
    rw [List.range_succ, List.reverse_append, List.reverse_singleton, List.singleton_append, List.foldlM_cons] at h
    obtain ⟨⟨g₁, cur₁⟩, hfirst, hrest⟩ := of_bind_ok h
    obtain ⟨candidates, hfound, hfirst⟩ := of_bind_ok hfirst
    obtain ⟨g₂, hconnect, hfirst⟩ := of_bind_ok hfirst
    obtain ⟨cur₂, -, hfirst⟩ := of_bind_ok hfirst
    obtain ⟨rfl, rfl⟩ := Prod.mk.inj (Except.ok.inj hfirst)
    obtain ⟨hrelinked, hneat⟩ := ih hrest
    refine ⟨(connect_relinked hconnect).trans hrelinked, fun hg hnew => ?_⟩
    obtain ⟨hg₂, hother⟩ := connect_neat hconnect hg (searchLayer_nodup hfound) (hnew n (by omega))
    refine hneat hg₂ fun l hl c links hlinks => hnew l (by omega) c links ?_
    rwa [← hother c l (by omega)]

/-- The node that `add` appends. -/
def newNode (M : Metric F) (g : Graph F) (label : Bytes) (v : List F) : Node F :=
  ⟨label, v, List.replicate (M.level g.nodes.length + 1) [], false⟩

def Graph.push (g : Graph F) (node : Node F) : Graph F := { g with nodes := g.nodes ++ [node] }

/-- What the insertion of a new label does: a node at the end, links among the nodes, and a new entry point where the
node has the highest level. -/
theorem insert_ok {label : Bytes} {vec : List Double} {id : ℕ} (h : insert lim M dim g label vec = .ok (g', id)) :
    id = u32 g.nodes.length ∧ ∃ v g₁, prepare M dim vec = .ok v ∧ (g.push (newNode M g label v)).Relinked g₁ ∧
      ((g.push (newNode M g label v)).Neat → (∀ l, (g.push (newNode M g label v)).Unlinked id l) → g₁.Neat) ∧
      g' = if g.entryPoint = none ∨ g.maxLevel < M.level g.nodes.length then
        { g₁ with entryPoint := some id, maxLevel := M.level g.nodes.length } else g₁ := by
  obtain ⟨_, -, h⟩ := of_bind_ok h
  obtain ⟨v, hv, h⟩ := of_bind_ok h
  cases he : g.entryPoint with
  | none =>
    simp only [he] at h
    obtain ⟨rfl, rfl⟩ := Prod.mk.inj (Except.ok.inj h)
    exact ⟨rfl, v, g.push (newNode M g label v), hv, .refl _, fun hg _ => hg, by simp [Graph.push, newNode]⟩
  | some entry =>
    have hpush : g.push (newNode M g label v) = ⟨g.nodes ++ [newNode M g label v], some entry, g.maxLevel⟩ := by rw [Graph.push, he]
    simp only [he] at h
    obtain ⟨node, -, h⟩ := of_bind_ok h
    obtain ⟨cur, -, h⟩ := of_bind_ok h
    obtain ⟨⟨g₁, r⟩, hloop, h⟩ := of_bind_ok h
    obtain ⟨rfl, rfl⟩ := Prod.mk.inj (Except.ok.inj h)
    obtain ⟨hrelinked, hneat⟩ := insertLayers_ok _ hloop
    refine ⟨rfl, v, g₁, hv, by rw [hpush]; exact hrelinked, ?_, ?_⟩
    · rw [hpush]
      exact fun hg hnew => hneat hg fun l _ => hnew l
    · have hlevel : g₁.maxLevel = g.maxLevel := hrelinked.maxLevel
      simp [hlevel]

end Links

end BlazeKV.Hnsw
