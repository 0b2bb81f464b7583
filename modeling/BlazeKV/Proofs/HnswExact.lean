import BlazeKV.Proofs.HnswReach

/-! Where a search is exact. If its results can hold every node it shows the nearest of the
vectors that links lead to, and on an index with one node more than a node has links on the
bottom layer these are all vectors. -/

namespace BlazeKV

open Lib Hnsw

variable {F : Type} {dim : ℕ}

namespace Hnsw

section Results

variable {M : Metric F} {g : Graph F} {q : List F}

def Graph.alive (g : Graph F) (id : ℕ) : Bool := (g.nodes[id]?).any fun node => !node.deleted

/-- What is shown: the first `k` that are not deleted. -/
theorem collect_eq {k : ℕ} {found : List ℕ} {out out' : List (Bytes × Double)}
    (h : found.foldlM (collect M dim g q k) out = .ok out') :
    out' = out ++ ((found.filter g.alive).take (k - out.length)).map (shown M dim g q) := by
  induction found generalizing out with
  | nil =>
    obtain rfl := Except.ok.inj h
    simp
  | cons id found ih =>
    rw [List.foldlM_cons] at h
    obtain ⟨out₁, hfirst, hrest⟩ := of_bind_ok h
    have hout := ih hrest
    unfold collect at hfirst
    split_ifs at hfirst with hfull
    · obtain rfl := Except.ok.inj hfirst
      rw [hout, Nat.sub_eq_zero_of_le hfull, List.take_zero, List.take_zero]
    · obtain ⟨node, hnode, hfirst⟩ := of_bind_ok hfirst
      have halive : g.alive id = !node.deleted := by rw [Graph.alive, of_readAt hnode, Option.any_some]
      split_ifs at hfirst with hdeleted
      · obtain rfl := Except.ok.inj hfirst
        rw [List.filter_cons_of_neg (by rw [halive, hdeleted]; simp)]
        exact hout
      · obtain ⟨d, hd, hfirst⟩ := of_bind_ok hfirst
        obtain rfl := distance_ok hd
        obtain rfl := Except.ok.inj hfirst
        have hroom : k - out.length =
            k - (out ++ [(node.label, M.score (away M dim q node))]).length + 1 := by
          rw [List.length_append, List.length_singleton]
          omega
        have hshown : shown M dim g q id = (node.label, M.score (away M dim q node)) := by
          rw [shown, of_readAt hnode]
          rfl
        rw [List.filter_cons_of_pos (by rw [halive]; simpa using hdeleted), hroom, List.take_succ_cons,
          List.map_cons, hshown, hout, List.append_assoc]
        rfl

end Results

section Mesh

variable {lim : Limits} {M : Metric F} {g g' : Graph F} {q : List F} {level id : ℕ}

/-- Every two nodes are linked on the bottom layer. -/
def Graph.Meshed (g : Graph F) : Prop :=
  ∀ a b, a < g.nodes.length → b < g.nodes.length → a ≠ b → g.Links 0 a b

theorem Graph.Unlinked.reaches {l a b : ℕ} (hnew : g.Unlinked id l) (ha : a ≠ id)
    (h : g.Reaches l a b) :
    b ≠ id := by
  cases h with
  | refl => exact ha
  | tail _ hlink =>
    obtain ⟨links, hl, hb⟩ := hlink
    exact fun he => hnew _ links hl (he ▸ hb)

/-- The next layer is entered at a node that was found, or where this one was. -/
theorem of_step {found : List ℕ} {cur c : ℕ} (h : step found cur = .ok c) : c = cur ∨ c ∈ found := by
  cases found with
  | nil => exact .inl (Except.ok.inj h).symm
  | cons b found => exact .inr (Except.ok.inj h ▸ List.mem_cons_self)

/-- A back-link that fits in is appended. -/
theorem linkBack_short {c maxLinks : ℕ} (h : linkBack M dim id level maxLinks g c = .ok g')
    (hshort : ∀ old, g.linksOf c level = some old → old.length < maxLinks) :
    ∃ old, g.linksOf c level = some old ∧
      ∀ c' l, g'.linksOf c' l = if c' = c ∧ l = level then some (old ++ [id]) else g.linksOf c' l := by
  obtain ⟨node, hnode, h⟩ := of_bind_ok h
  obtain ⟨old, hold, h⟩ := of_bind_ok h
  obtain ⟨kept, hkept, h⟩ := of_bind_ok h
  have hlinksOf : g.linksOf c level = some old := by
    rw [Graph.linksOf, of_readAt hnode, Option.bind_some, of_readAt hold]
  have hfits : ¬maxLinks < (old ++ [id]).length := by
    have := hshort old hlinksOf
    rw [List.length_append, List.length_singleton]
    omega
  rw [prune, if_neg hfits] at hkept
  obtain rfl := Except.ok.inj hkept
  exact ⟨old, hlinksOf, (setLinks_ok h).2⟩

theorem linkBacks_short {maxLinks : ℕ} {links : List ℕ}
    (h : links.foldlM (linkBack M dim id level maxLinks) g = .ok g') (hnodup : links.Nodup)
    (hshort : ∀ c ∈ links, ∀ old, g.linksOf c level = some old → old.length < maxLinks) :
    (∀ a b, g.Links level a b → g'.Links level a b) ∧ ∀ c ∈ links, g'.Links level c id := by
  induction links generalizing g with
  | nil =>
    obtain rfl := Except.ok.inj h
    exact ⟨fun a b hab => hab, by simp⟩
  | cons c links ih =>
    rw [List.foldlM_cons] at h
    obtain ⟨g₁, hfirst, hrest⟩ := of_bind_ok h
    obtain ⟨hnotin, hnodup⟩ := List.nodup_cons.1 hnodup
    obtain ⟨old, hold, hlinks⟩ := linkBack_short hfirst (hshort c List.mem_cons_self)
    obtain ⟨hkeep, hall⟩ := ih hrest hnodup fun c' hc' old' hold' => by
      rw [hlinks, if_neg fun he : c' = c ∧ level = level => hnotin (he.1 ▸ hc')] at hold'
      exact hshort c' (List.mem_cons_of_mem c hc') old' hold'
    have hself : g₁.linksOf c level = some (old ++ [id]) := by rw [hlinks, if_pos ⟨rfl, rfl⟩]
    refine ⟨fun a b hab => hkeep a b ?_, fun c' hc' => ?_⟩
    · obtain ⟨ls, hls, hb⟩ := hab
      by_cases ha : a = c
      · subst ha
        obtain rfl := Option.some.inj (hold.symm.trans hls)
        exact ⟨_, hself, List.mem_append_left _ hb⟩
      · exact ⟨ls, by rw [hlinks, if_neg fun he => ha he.1]; exact hls, hb⟩
    · rcases List.mem_cons.1 hc' with rfl | hc'
      · exact hkeep _ _ ⟨_, hself, List.mem_append_right _ (List.mem_singleton_self _)⟩
      · exact hall c' hc'

/-- Connecting on one layer leaves the links of the others. -/
theorem connect_other {candidates : List ℕ} (h : connect M dim g id level candidates = .ok g') (c l : ℕ)
    (hl : l ≠ level) : g'.linksOf c l = g.linksOf c l := by
  obtain ⟨g₁, hset, hloop⟩ := of_bind_ok h
  refine of_foldlM (fun s => s.linksOf c l = g.linksOf c l) hloop ?_ fun s s' hs c' _ he => ?_
  · rw [(setLinks_ok hset).2, if_neg fun he => hl he.2]
  · obtain ⟨-, _, _, -, -, -, hlinks⟩ := linkBack_ok he
    rw [hlinks, if_neg fun he => hl he.2, hs]

/-- Few candidates are all linked to, and link back. -/
theorem connect_short {candidates : List ℕ} (h : connect M dim g id 0 candidates = .ok g')
    (hnodup : candidates.Nodup) (hlen : candidates.length ≤ m0) (hid : id ∉ candidates)
    (hshort : ∀ c ∈ candidates, ∀ old, g.linksOf c 0 = some old → old.length < m0) :
    (∀ a b, a ≠ id → g.Links 0 a b → g'.Links 0 a b) ∧
      ∀ c ∈ candidates, g'.Links 0 id c ∧ g'.Links 0 c id := by
  obtain ⟨g₁, hset, hloop⟩ := of_bind_ok h
  have hkept : (candidates.filter fun c => c ≠ id) = candidates :=
    List.filter_eq_self.2 fun c hc => decide_eq_true fun he => hid (he ▸ hc)
  have hall : (candidates.filter fun c => c ≠ id).take m0 = candidates := by
    rw [hkept, List.take_of_length_le hlen]
  rw [if_pos rfl, hall] at hset hloop
  obtain ⟨-, hlinks⟩ := setLinks_ok hset
  have hother : ∀ c, c ≠ id → g₁.linksOf c 0 = g.linksOf c 0 := fun c hc => by
    rw [hlinks, if_neg fun he => hc he.1]
  obtain ⟨hkeep, hback⟩ := linkBacks_short hloop hnodup fun c hc old hold => by
    rw [hother c fun he => hid (he ▸ hc)] at hold
    exact hshort c hc old hold
  refine ⟨fun a b ha hab => hkeep a b ?_, fun c hc => ⟨hkeep id c ⟨candidates, ?_, hc⟩, hback c hc⟩⟩
  · obtain ⟨links, hl, hb⟩ := hab
    exact ⟨links, (hother a ha).trans hl, hb⟩
  · rw [hlinks, if_pos ⟨rfl, rfl⟩]

/-- What stands before a layer of the new node `id` is linked. -/
structure Graph.Joins (g : Graph F) (dim id n : ℕ) : Prop where
  sound : g.Sound dim
  node : ∀ l ≤ n, g.OnLayer l id
  unlinked : ∀ l ≤ n, g.Unlinked id l
  neat : ∀ c links, g.linksOf c 0 = some links → NeatLinks c 0 links
  small : g.nodes.length ≤ m0 + 1
  meshed : ∀ a b, a < g.nodes.length → b < g.nodes.length → a ≠ id → b ≠ id → a ≠ b → g.Links 0 a b

/-- The bottom layer: the search finds all nodes but the new one, and all of them are linked to it. -/
theorem Graph.Joins.bottom {cur cur' : ℕ} (hg : g.Joins dim id 0) (hcur : cur < g.nodes.length)
    (hne : cur ≠ id) (h : insertLayer lim M dim id q (g, cur) 0 = .ok (g', cur')) : g'.Meshed := by
  obtain ⟨candidates, hfound, h⟩ := of_bind_ok h
  obtain ⟨g₂, hconnect, h⟩ := of_bind_ok h
  obtain ⟨cur₂, -, h⟩ := of_bind_ok h
  obtain ⟨rfl, rfl⟩ := Prod.mk.inj (Except.ok.inj h)
  have hid := (hg.node 0 (le_refl 0)).lt
  have hef : g.nodes.length ≤ efConstruction := hg.small.trans (by decide)
  have hall := fun c => searchLayer_exhaustive hg.sound hef hfound c
  have hmem : ∀ c < g.nodes.length, c ≠ id → c ∈ candidates := by
    intro c hc hcid
    rw [hall]
    by_cases he : cur = c
    · rw [he]
    · exact .single (hg.meshed cur c hcur hc hne hcid he)
  have hnotin : id ∉ candidates := fun hin =>
    (hg.unlinked 0 (le_refl 0)).reaches hne ((hall id).1 hin) rfl
  have hbelow : ∀ c ∈ candidates, c < g.nodes.length := fun c hc => by
    rcases Relation.ReflTransGen.cases_tail ((hall c).1 hc) with rfl | ⟨b, -, hlink⟩
    · exact hcur
    · exact (hg.sound.links hlink).lt
  have hsmall := hg.small
  have hlen : candidates.length ≤ m0 := by
    have := length_le_of_nodup (List.nodup_cons.2 ⟨hnotin, searchLayer_nodup hfound⟩) fun a ha => by
      rcases List.mem_cons.1 ha with rfl | ha
      · exact hid
      · exact hbelow a ha
    rw [List.length_cons] at this
    omega
  have hshort : ∀ c ∈ candidates, ∀ old, g.linksOf c 0 = some old → old.length < m0 := by
    intro c hc old hold
    obtain ⟨hself, hnodup, -⟩ := hg.neat c old hold
    have hcid : c ≠ id := fun he => hnotin (he ▸ hc)
    have hnew := hg.unlinked 0 (le_refl 0) c old hold
    have hnodup : (c :: id :: old).Nodup := by
      refine List.nodup_cons.2 ⟨fun hmem => ?_, List.nodup_cons.2 ⟨hnew, hnodup⟩⟩
      rcases List.mem_cons.1 hmem with he | hmem
      · exact hcid he
      · exact hself hmem
    have := length_le_of_nodup hnodup fun a ha => by
      rcases List.mem_cons.1 ha with rfl | ha
      · exact hbelow _ hc
      rcases List.mem_cons.1 ha with rfl | ha
      · exact hid
      · exact (hg.sound.links ⟨old, hold, ha⟩).lt
    rw [List.length_cons, List.length_cons] at this
    omega
  obtain ⟨hkeep, hlinked⟩ := connect_short hconnect (searchLayer_nodup hfound) hlen hnotin hshort
  have hsize := (connect_relinked hconnect).length
  intro a b ha hb hab
  rw [hsize] at ha hb
  by_cases haid : a = id
  · subst haid
    exact (hlinked b (hmem b hb (Ne.symm hab))).1
  by_cases hbid : b = id
  · subst hbid
    exact (hlinked a (hmem a ha haid)).2
  · exact hkeep a b haid (hg.meshed a b ha hb haid hbid hab)

/-- An upper layer leaves the bottom one as it is. -/
theorem Graph.Joins.layer {cur cur' n : ℕ} (hg : g.Joins dim id (n + 1)) (hq : q.length = dim)
    (hcur : g.OnLayer (n + 1) cur) (hne : cur ≠ id)
    (h : insertLayer lim M dim id q (g, cur) (n + 1) = .ok (g', cur')) :
    g'.Joins dim id n ∧ g'.OnLayer n cur' ∧ cur' ≠ id := by
  obtain ⟨g₁, c, hrun, hsound, hsame, hon⟩ :=
    @insertLayer_runs F lim M dim g q (n + 1) hg.sound hq id cur
    (hg.node _ (le_refl _)) hcur
  obtain ⟨rfl, rfl⟩ := Prod.mk.inj (Except.ok.inj (h.symm.trans hrun))
  obtain ⟨candidates, hfound, h⟩ := of_bind_ok h
  obtain ⟨g₂, hconnect, h⟩ := of_bind_ok h
  obtain ⟨cur₂, hstep, h⟩ := of_bind_ok h
  obtain ⟨rfl, rfl⟩ := Prod.mk.inj (Except.ok.inj h)
  have hother := fun c l (hl : l ≤ n) => connect_other hconnect c l (by omega)
  have hsize := hsame.size
  refine ⟨⟨hsound, fun l hl => (hsame.layer _ _).2 (hg.node l (by omega)),
    fun l hl c links hlinks => ?_,
    fun c links hlinks => ?_, hsize ▸ hg.small, fun a b ha hb haid hbid hab => ?_⟩,
    hon.mono (by omega), ?_⟩
  · rw [hother c l hl] at hlinks
    exact hg.unlinked l (by omega) c links hlinks
  · rw [hother c 0 (Nat.zero_le n)] at hlinks
    exact hg.neat c links hlinks
  · rw [hsize] at ha hb
    obtain ⟨links, hlinks, hmem⟩ := hg.meshed a b ha hb haid hbid hab
    exact ⟨links, (hother a 0 (Nat.zero_le n)).trans hlinks, hmem⟩
  · rcases of_step hstep with rfl | hmem
    · exact hne
    · exact (hg.unlinked _ (le_refl _)).reaches hne (searchLayer_reached hfound _ hmem)

/-- The layers of the new node. -/
theorem Graph.Joins.layers {n cur : ℕ} {r : Graph F × ℕ} (hg : g.Joins dim id n) (hq : q.length = dim)
    (hcur : g.OnLayer n cur) (hne : cur ≠ id)
    (h : (List.range (n + 1)).reverse.foldlM (insertLayer lim M dim id q) (g, cur) = .ok r) :
    r.1.Meshed := by
  induction n generalizing g cur with
  | zero =>
    obtain ⟨⟨g', cur'⟩, hfirst, hrest⟩ := of_bind_ok h
    obtain rfl := Except.ok.inj hrest
    exact hg.bottom hcur.lt hne hfirst
  | succ n ih =>
    rw [List.range_succ, List.reverse_append, List.reverse_singleton, List.singleton_append,
      List.foldlM_cons] at h
    obtain ⟨⟨g', cur'⟩, hfirst, hrest⟩ := of_bind_ok h
    obtain ⟨hg', hcur', hne'⟩ := hg.layer hq hcur hne hfirst
    exact ih hg' hcur' hne' hrest

/-- The layers above the new node lead to a node of its highest layer. -/
theorem descend_onLayer {cur cur' : ℕ} (hg : g.Sound dim) (hq : q.length = dim)
    (h : g.OnLayer g.maxLevel cur)
    (hrun : (List.range' (level + 1) (g.maxLevel - level)).reverse.foldlM
      (descendLayer lim M dim g q) cur = .ok cur') : g.OnLayer (min level g.maxLevel) cur' := by
  by_cases hle : level ≤ g.maxLevel
  · rw [min_eq_left hle]
    obtain ⟨c, hc, hon⟩ := @descend_runs F lim M dim g q hg hq level (g.maxLevel - level) cur
      (by rwa [Nat.add_sub_cancel' hle])
    obtain rfl := Except.ok.inj (hrun.symm.trans hc)
    exact hon
  · rw [Nat.sub_eq_zero_of_le (by omega)] at hrun
    obtain rfl := Except.ok.inj hrun
    rwa [min_eq_right (by omega)]

/-- The layers above the new node lead to another one. -/
theorem descend_ne {ls : List ℕ} {cur cur' : ℕ} (hnew : ∀ l, g.Unlinked id l) (hne : cur ≠ id)
    (h : ls.foldlM (descendLayer lim M dim g q) cur = .ok cur') : cur' ≠ id := by
  refine of_foldlM (fun c => c ≠ id) h hne fun c c' hc l _ he => ?_
  obtain ⟨found, hfound, hstep⟩ := of_bind_ok he
  rcases of_step hstep with rfl | hmem
  · exact hc
  · exact (hnew l).reaches hc (searchLayer_reached hfound _ hmem)

section Push

variable {node : Node F}

theorem linksOf_push_old (node : Node F) {c : ℕ} (l : ℕ) (hc : c ≠ g.nodes.length) :
    (g.push node).linksOf c l = g.linksOf c l := by
  rw [linksOf_push, if_neg hc]

theorem linksOf_push_new (hlinks : ∀ links ∈ node.links, links = []) {l : ℕ} {links : List ℕ}
    (hl : (g.push node).linksOf g.nodes.length l = some links) : links = [] := by
  rw [linksOf_push, if_pos rfl] at hl
  exact hlinks links (List.mem_of_getElem? hl)

theorem push_unlinked (hg : g.WellFormed) (hlinks : ∀ links ∈ node.links, links = []) (l : ℕ) :
    (g.push node).Unlinked g.nodes.length l := by
  intro c links hl hmem
  by_cases hc : c = g.nodes.length
  · subst hc
    rw [linksOf_push_new hlinks hl] at hmem
    cases hmem
  · rw [linksOf_push_old node l hc] at hl
    exact absurd (hg.link c l links hl _ hmem).2.lt (lt_irrefl _)

/-- A node that has no links yet joins a bottom layer on which all others are linked. -/
theorem Graph.Joins.push (hs : g.Sound dim) (hg : g.WellFormed) (hmesh : g.Meshed)
    (hsmall : g.nodes.length ≤ m0) (hvec : node.vec.length = dim)
    (hlinks : ∀ links ∈ node.links, links = []) {entry : ℕ} (hentry : g.entryPoint = some entry) {n : ℕ}
    (hn : n < node.links.length) : (g.push node).Joins dim g.nodes.length n := by
  have hsize : (g.push node).nodes.length = g.nodes.length + 1 := by
    rw [Graph.push, List.length_append, List.length_singleton]
  refine ⟨?_, fun l hl => ⟨node, List.getElem?_concat_length, by omega⟩,
    fun l _ => push_unlinked hg hlinks l, fun c links hl => ?_, by omega,
    fun a b ha hb haid hbid hab => ?_⟩
  · rw [Graph.push, hentry]
    exact hs.push (hsmall.trans_lt (by decide)) hvec hlinks ((hs.entry entry hentry).append _ _ _)
  · by_cases hc : c = g.nodes.length
    · subst hc
      rw [linksOf_push_new hlinks hl]
      exact ⟨List.not_mem_nil, List.nodup_nil, Nat.zero_le _⟩
    · rw [linksOf_push_old node 0 hc] at hl
      exact hg.neat c 0 links hl
  · rw [hsize] at ha hb
    obtain ⟨links, hl, hmem⟩ := hmesh a b (by omega) (by omega) hab
    exact ⟨links, (linksOf_push_old node 0 haid).trans hl, hmem⟩

end Push

/-- A new node on an index that stays small. -/
theorem insert_meshed (hs : g.Sound dim) (hg : g.WellFormed) (hmesh : g.Meshed)
    (hsmall : g.nodes.length ≤ m0) {label : Bytes} {vec : List Double} (hvec : vec.length = dim)
    (h : insert lim M dim g label vec = .ok (g', id)) : g'.Meshed := by
  have hid : u32 g.nodes.length = g.nodes.length := Nat.mod_eq_of_lt (hsmall.trans_lt (by decide))
  obtain ⟨_, -, h⟩ := of_bind_ok h
  obtain ⟨v, hv, h⟩ := of_bind_ok h
  obtain ⟨v', hv', hdim⟩ := @prepare_runs F M dim vec hvec
  obtain rfl := Except.ok.inj (hv.symm.trans hv')
  cases hentry : g.entryPoint with
  | none =>
    simp only [hentry] at h
    obtain ⟨rfl, -⟩ := Prod.mk.inj (Except.ok.inj h)
    intro a b ha hb hab
    rw [hs.start hentry] at ha hb
    simp at ha hb
    omega
  | some entry =>
    have hnil : ∀ links ∈ (newNode M g label v).links, links = [] := fun links hl =>
      List.eq_of_mem_replicate hl
    have hpush : g.push (newNode M g label v) =
        ⟨g.nodes ++ [newNode M g label v], some entry, g.maxLevel⟩ := by
      rw [Graph.push, hentry]
    have hjoins : (g.push (newNode M g label v)).Joins dim g.nodes.length
        (min (M.level g.nodes.length) g.maxLevel) :=
      .push hs hg hmesh hsmall hdim hnil hentry (by rw [newNode, List.length_replicate]; omega)
    have hnew := fun l => push_unlinked hg hnil l
    rw [hpush] at hjoins hnew
    simp only [hentry, hid] at h
    obtain ⟨node, hnode, h⟩ := of_bind_ok h
    obtain ⟨cur, hcur, h⟩ := of_bind_ok h
    obtain ⟨⟨g₁, cur₁⟩, hloop, h⟩ := of_bind_ok h
    obtain ⟨rfl, rfl⟩ := Prod.mk.inj (Except.ok.inj h)
    have hentered := (hs.entry entry hentry).append [newNode M g label v] (some entry) g.maxLevel
    have hq : node.vec.length = dim := hjoins.sound.vec node (List.mem_of_getElem? (of_readAt hnode))
    have hon := descend_onLayer hjoins.sound hq hentered hcur
    have hne : cur ≠ g.nodes.length := descend_ne hnew (hs.entry entry hentry).lt.ne hcur
    have hmeshed := hjoins.layers hq hon hne hloop
    split_ifs <;> exact hmeshed

theorem meshed_set {c : ℕ} {old new : Node F} (hmesh : g.Meshed) (hold : g.nodes[c]? = some old)
    (hlinks : new.links = old.links) : Graph.Meshed { g with nodes := g.nodes.set c new } := by
  intro a b ha hb hab
  rw [List.length_set] at ha hb
  obtain ⟨links, hl, hmem⟩ := hmesh a b ha hb hab
  exact ⟨links, (linksOf_set hold hlinks a 0).trans hl, hmem⟩

end Mesh

/-- Where the search of the bottom layer starts. -/
def Graph.Enters (lim : Limits) (M : Metric F) (dim : ℕ) (g : Graph F) (q : List F) (start : ℕ) :
    Prop :=
  ∃ e, g.entryPoint = some e ∧
    (List.range' 1 g.maxLevel).reverse.foldlM (descendLayer lim M dim g q) e = .ok start

end Hnsw

section Runs

variable {lim : Limits} {M : Metric F} {x x' : HnswIndex (Graph F)}

/-- The bottom layer links all nodes while there are few. -/
def HnswIndex.Meshed (x : HnswIndex (Graph F)) : Prop := x.nodes ≤ m0 + 1 → x.graph.Meshed

theorem HnswOp.run_meshed (hx : x.Tidy dim) (op : HnswOp dim) (h : x.Meshed)
    (hrun : op.run lim M x = .ok x') : x'.Meshed := by
  intro hsmall
  cases op with
  | add label vec =>
    obtain ⟨id, graph, hl, hgraph, rfl⟩ | ⟨id, graph, hl, hgraph, rfl⟩ := HnswOp.run_add vec hrun
    · obtain ⟨old, v, hold, -, rfl⟩ := replace_ok hgraph
      exact meshed_set (h hsmall) hold rfl
    · have hfew : x.nodes ≤ m0 := Nat.le_of_succ_le_succ hsmall
      exact insert_meshed hx.sound.graph hx.wellFormed (h (by omega)) (hx.sound.nodes ▸ hfew)
        (vec.2.trans hx.dim.symm) hgraph
  | remove label =>
    obtain ⟨-, rfl⟩ | ⟨id, graph, hl, hgraph, rfl⟩ := HnswOp.run_remove hrun
    · exact h hsmall
    · obtain ⟨old, hold, rfl⟩ := tombstone_ok hgraph
      exact meshed_set (h hsmall) hold rfl

theorem HnswIndex.runAll_meshed (hx : x.Tidy dim) (h : x.Meshed) (ops : List (HnswOp dim))
    (hfit : HnswIndex.FitsAll lim M ops x) (hrun : HnswIndex.runAll lim M ops x = .ok x') :
    x'.Meshed := by
  induction ops generalizing x with
  | nil => exact Except.ok.inj hrun ▸ h
  | cons op ops ih =>
    rw [HnswIndex.runAll, List.foldlM_cons] at hrun
    obtain ⟨x₁, hfirst, hrest⟩ := of_bind_ok hrun
    obtain ⟨x₂, hrun₂, hsound⟩ := HnswOp.run_runs hx op hfit.1
    obtain rfl := Except.ok.inj (hfirst.symm.trans hrun₂)
    exact ih (HnswOp.run_tidy hx op hfit.1 hfirst hsound) (HnswOp.run_meshed hx op h hfirst)
      (hfit.2 x₁ hfirst) hrest

/-- A call adds one node at most. -/
theorem HnswIndex.runAll_nodes (ops : List (HnswOp dim))
    (hrun : HnswIndex.runAll lim M ops x = .ok x') :
    x'.nodes ≤ x.nodes + ops.length := by
  induction ops generalizing x with
  | nil => exact (Except.ok.inj hrun ▸ le_refl _)
  | cons op ops ih =>
    rw [HnswIndex.runAll, List.foldlM_cons] at hrun
    obtain ⟨x₁, hfirst, hrest⟩ := of_bind_ok hrun
    have hone : x₁.nodes ≤ x.nodes + 1 := by
      cases op with
      | add label vec =>
        obtain ⟨_, _, -, -, rfl⟩ | ⟨_, _, -, -, rfl⟩ := HnswOp.run_add vec hfirst
        · exact Nat.le_succ _
        · exact le_refl _
      | remove label =>
        obtain ⟨-, rfl⟩ | ⟨_, _, -, -, rfl⟩ := HnswOp.run_remove hfirst
        · exact Nat.le_succ _
        · exact Nat.le_succ _
    have := ih hrest
    rw [List.length_cons]
    omega

end Runs

section Search

variable {lim : Limits} {M : Metric F} {x : HnswIndex (Graph F)} {s : LatestVectors dim}
  {query : {v : List Double // v.length = dim}}

/-- A node that is not deleted stands for its label. -/
theorem HnswIndex.Presents.alive_eq (h : x.Presents M s) {id : ℕ} (halive : x.graph.alive id = true)
    (query : {v : List Double // v.length = dim}) : ∃ node vec, x.graph.nodes[id]? = some node ∧
      x.labels.lookup node.label = some id ∧ s node.label = some vec ∧
      away M dim (prepared M query) node = far M query vec ∧
      shown M dim x.graph (prepared M query) id = (node.label, M.score (far M query vec)) := by
  obtain ⟨node, hnode, hdeleted⟩ := (Option.any_eq_true _ _).1 halive
  have hdeleted : node.deleted = false := by simpa using hdeleted
  obtain ⟨vec, hs, haway, hshown⟩ := h.shown_eq hnode hdeleted query
  exact ⟨node, vec, hnode, h.alive id node hnode hdeleted, hs, haway, hshown⟩

variable [LinearOrder F]

/-- What an exact search shows, of the labels among which it searches: the nearest, and all of
them where they are fewer than it may show. -/
structure NearestLaw (M : Metric F) (s : LatestVectors dim)
    (query : {v : List Double // v.length = dim}) (k : ℕ) (P : Bytes → Prop)
    (out : List (Bytes × Double)) : Prop extends SearchLaw M s query k out where
  inside : ∀ r ∈ out, P r.1
  complete : ∀ label vec, s label = some vec → P label → label ∉ out.map Prod.fst →
    out.length = k ∧ ∀ r ∈ out, ∀ v, s r.1 = some v → far M query v ≤ far M query vec

/-- With room for every node, a search shows the nearest of what links lead to. -/
theorem search_nearest (hM : M.Ordered) (hg : x.graph.Sound dim) (h : x.Presents M s) {k ef start : ℕ}
    (hk : 0 < k) (hroom : x.graph.nodes.length ≤ max ef k) {out : List (Bytes × Double)}
    (hstart : x.graph.Enters lim M dim (prepared M query) start)
    (hsearch : Hnsw.search lim M dim x.graph query.1 k ef = .ok out) :
    NearestLaw M s query k
      (fun label => ∃ id, x.labels.lookup label = some id ∧ x.graph.Reaches 0 start id) out := by
  have hlaw := search_law hM h query hsearch
  unfold Hnsw.search at hsearch
  obtain ⟨e, hentry, hdescend⟩ := hstart
  simp only [hentry, if_neg hk.ne'] at hsearch
  obtain ⟨q, hq, hsearch⟩ := of_bind_ok hsearch
  obtain rfl := prepare_ok hq
  obtain ⟨cur, hcur, hsearch⟩ := of_bind_ok hsearch
  obtain rfl := Except.ok.inj (hdescend.symm.trans hcur)
  obtain ⟨found, hfound, hsearch⟩ := of_bind_ok hsearch
  have hreach := fun c => searchLayer_exhaustive hg hroom hfound c
  obtain ⟨st, hst, hdrain⟩ := searchLayer_ok hfound
  obtain ⟨items, hperm, rfl, hsorted⟩ := @drain_sorted F _ M hM _ _ [] _ hdrain List.Pairwise.nil (by simp)
  rw [List.append_nil] at hperm
  have hout := collect_eq hsearch
  rw [List.nil_append, List.length_nil, Nat.sub_zero, List.filter_map] at hout
  -- the results that are not deleted, the nearest first
  set kept := items.filter (x.graph.alive ∘ Prod.snd) with hkept
  have hmem : ∀ c, c ∈ kept ↔ c ∈ items ∧ x.graph.alive c.2 = true := fun c => List.mem_filter
  rw [← List.map_take, List.map_map] at hout
  have hfar : ∀ c ∈ kept, ∃ node vec, x.graph.nodes[c.2]? = some node ∧
      x.labels.lookup node.label = some c.2 ∧ s node.label = some vec ∧ c.1 = far M query vec ∧
      shown M dim x.graph (prepared M query) c.2 = (node.label, M.score (far M query vec)) := by
    intro c hc
    obtain ⟨hitem, halive⟩ := (hmem c).1 hc
    obtain ⟨node, vec, hnode, hl, hs, haway, hshown⟩ := h.alive_eq halive query
    obtain ⟨node', hnode', hdist⟩ := hst.distance c (hperm.subset hitem)
    obtain rfl := Option.some.inj (hnode.symm.trans hnode')
    exact ⟨node, vec, hnode, hl, hs, hdist.trans haway, hshown⟩
  refine ⟨hlaw, fun r hr => ?_, fun label vec hs hin hnot => ?_⟩
  · rw [hout] at hr
    obtain ⟨c, hc, rfl⟩ := List.mem_map.1 hr
    have hc := List.mem_of_mem_take hc
    obtain ⟨node, vec, -, hl, -, -, hshown⟩ := hfar c hc
    rw [Function.comp_apply, hshown]
    exact ⟨c.2, hl, (hreach c.2).1 (List.mem_map_of_mem ((hmem c).1 hc).1)⟩
  · obtain ⟨id, hl, hid⟩ := hin
    obtain ⟨id', node, hl', hnode, hlabel, hdeleted, -⟩ := h.known label vec hs
    obtain rfl := Option.some.inj (hl.symm.trans hl')
    have halive : x.graph.alive id = true := by simp [Graph.alive, hnode, hdeleted]
    obtain ⟨b, hb, rfl⟩ := List.mem_map.1 ((hreach id).2 hid)
    have hb : b ∈ kept := (hmem b).2 ⟨hb, halive⟩
    obtain ⟨node', vec', hnode', -, hs', hdist, hshown⟩ := hfar b hb
    obtain rfl := Option.some.inj (hnode.symm.trans hnode')
    subst hlabel
    obtain rfl := Option.some.inj (hs.symm.trans hs')
    have hlate : b ∈ kept.drop k := by
      rw [← List.take_append_drop k kept, List.mem_append] at hb
      refine hb.resolve_left fun htaken => hnot ?_
      rw [hout, List.map_map]
      exact List.mem_map.2 ⟨b, htaken, by rw [Function.comp_apply, Function.comp_apply, hshown]⟩
    have hlong : k < kept.length := by
      have := List.length_pos_of_mem hlate
      rw [List.length_drop] at this
      omega
    refine ⟨by rw [hout, List.length_map, List.length_take, min_eq_left hlong.le], fun r hr v hv => ?_⟩
    rw [hout] at hr
    obtain ⟨a, ha, rfl⟩ := List.mem_map.1 hr
    obtain ⟨node₁, vec₁, -, -, hs₁, hdist₁, hshown₁⟩ := hfar a (List.mem_of_mem_take ha)
    rw [Function.comp_apply, hshown₁] at hv
    obtain rfl := Option.some.inj (hs₁.symm.trans hv)
    have hpair : kept.Pairwise fun a b => a.1 ≤ b.1 := hsorted.sublist List.filter_sublist
    rw [← List.take_append_drop k kept, List.pairwise_append] at hpair
    rw [← hdist, ← hdist₁]
    exact hpair.2.2 a ha b hlate

/-- Exact search. In every run whose steps fit, a search that has room for as many results as the
index has nodes shows the nearest of the labels that links lead to from where it starts. While
there are no more than `m0 + 1` nodes these are all labels. -/
theorem search_is_exact (hM : M.Ordered) (ops : List (HnswOp dim))
    (hfit : HnswIndex.FitsAll lim M ops (.fresh F dim)) :
    ∃ x, HnswIndex.runAll lim M ops (.fresh F dim) = .ok x ∧
      ∀ (query : {v : List Double // v.length = dim}) (k ef : ℕ), 0 < k → x.nodes ≤ max ef k →
        ∃ out, Hnsw.search lim M dim x.graph query.1 k ef = .ok out ∧
          (∀ start, x.graph.Enters lim M dim (prepared M query) start →
            NearestLaw M (latestAll ops) query k
              (fun label => ∃ id, x.labels.lookup label = some id ∧ x.graph.Reaches 0 start id) out) ∧
          (x.nodes ≤ m0 + 1 → NearestLaw M (latestAll ops) query k (fun _ => True) out) := by
  obtain ⟨x, hrun, hx, hp⟩ :=
    HnswIndex.runAll_presents (M := M) HnswIndex.tidy_fresh presents_fresh ops hfit
  have hmeshed : x.Meshed := HnswIndex.runAll_meshed HnswIndex.tidy_fresh
    (fun _ a b ha => absurd ha (Nat.not_lt_zero a)) ops hfit hrun
  have hsound : x.graph.Sound dim := hx.dim ▸ hx.sound.graph
  refine ⟨x, hrun, fun query k ef hk hroom => ?_⟩
  rw [hx.sound.nodes] at hroom
  obtain ⟨out, hout⟩ := hx.search_runs query k ef
  have hnearest : ∀ start, x.graph.Enters lim M dim (prepared M query) start →
      NearestLaw M (latestAll ops) query k
        (fun label => ∃ id, x.labels.lookup label = some id ∧ x.graph.Reaches 0 start id) out :=
    fun start hstart => search_nearest hM hsound hp hk hroom hstart hout
  refine ⟨out, hout, hnearest, fun hsmall => ⟨search_law hM hp query hout, fun _ _ => trivial,
    fun label vec hs _ hnot => ?_⟩⟩
  obtain ⟨id, node, hl, hnode, -⟩ := hp.known label vec hs
  have hid : id < x.graph.nodes.length := (List.getElem?_eq_some_iff.1 hnode).1
  cases hentry : x.graph.entryPoint with
  | none =>
    rw [hsound.start hentry] at hid
    cases hid
  | some e =>
    obtain ⟨start, hstart, hon⟩ := @descend_runs F lim M dim x.graph (prepared M query) hsound
      (length_prepared query) 0 x.graph.maxLevel e (by rw [Nat.zero_add]; exact hsound.entry e hentry)
    rw [Nat.zero_add] at hstart
    refine (hnearest start ⟨e, hentry, hstart⟩).complete label vec hs ⟨id, hl, ?_⟩ hnot
    by_cases he : start = id
    · rw [he]
    · exact .single (hmeshed hsmall start id hon.lt hid he)

end Search

/-- Vectors of one component, apart by the difference of its bits. -/
def gap : Metric ℕ :=
  .ofOrder (fun _ d => d.bits.toNat) (fun a b => a.headD 0 - b.headD 0 + (b.headD 0 - a.headD 0))
    (fun _ => .zero) fun _ => 0

/-- The nearest of two labels. -/
theorem search_is_exact_two : ∃ x, HnswIndex.runAll Checked.wide gap
      [.add (ascii "a") ⟨[⟨5⟩], rfl⟩, .add (ascii "b") ⟨[⟨8⟩], rfl⟩] (.fresh ℕ 1) = .ok x ∧
    ∃ out, Hnsw.search Checked.wide gap 1 x.graph [⟨6⟩] 1 36 = .ok out ∧
    out.map Prod.fst = [ascii "a"] := by
  obtain ⟨x, hrun, hsearch⟩ := @search_is_exact ℕ 1 Checked.wide gap _ (Metric.ofOrder_ordered ..)
    [.add (ascii "a") ⟨[⟨5⟩], rfl⟩, .add (ascii "b") ⟨[⟨8⟩], rfl⟩] (fitsAll_of_short _ (by decide))
  have hnodes := HnswIndex.runAll_nodes _ hrun
  obtain ⟨out, hout, -, hlaw⟩ := hsearch ⟨[⟨6⟩], rfl⟩ 1 36 Nat.one_pos (hnodes.trans (by decide))
  have hlaw := hlaw (hnodes.trans (by decide))
  refine ⟨x, hrun, out, hout, ?_⟩
  set s := latestAll [.add (ascii "a") ⟨[⟨5⟩], rfl⟩, .add (ascii "b") ⟨[⟨8⟩], rfl⟩] with hs
  have hsome : ∀ label, s label = if label = ascii "b" then some ⟨[⟨8⟩], rfl⟩
      else if label = ascii "a" then some ⟨[⟨5⟩], rfl⟩ else none := fun label => by
    simp [hs, latestAll, HnswOp.latest, Function.update_apply]
  have hfew := hlaw.few
  have hall := hlaw.complete (ascii "a") ⟨[⟨5⟩], rfl⟩ (by rw [hsome]; decide) trivial
  by_cases hin : ascii "a" ∈ out.map Prod.fst
  · obtain ⟨r, rfl⟩ | hnil : (∃ r, out = [r]) ∨ out = [] := by
      cases out with
      | nil => exact .inr rfl
      | cons r rest => exact .inl ⟨r, by rw [List.eq_nil_of_length_eq_zero (Nat.le_zero.1 (Nat.le_of_succ_le_succ hfew))]⟩
    · rw [List.map_singleton, List.mem_singleton] at hin
      rw [List.map_singleton, hin]
    · rw [hnil] at hin
      cases hin
  · obtain ⟨hone, hfar⟩ := hall hin
    obtain ⟨r, rfl⟩ := List.length_eq_one_iff.1 hone
    obtain ⟨v, hv, -⟩ := hlaw.scored r List.mem_cons_self
    have hle := hfar r List.mem_cons_self v hv
    rw [hsome] at hv
    split_ifs at hv with hb ha
    · obtain rfl := Option.some.inj hv
      exact absurd hle (by decide)
    · exact absurd (List.mem_singleton.2 ha.symm) hin

end BlazeKV
