import BlazeKV.Proofs.HnswOrder
import BlazeKV.Proofs.HnswRuns
import BlazeKV.Proofs.NoFaults
import BlazeKV.Proofs.Replies

/-! The graph is well formed as long as the identifiers last. They have 32 bits, and nothing asks whether there is one
left: the node after the last one gets the identifier of the first. -/

namespace BlazeKV

open Lib Hnsw

variable {F : Type} {lim : Limits} {M : Metric F} {x x' : HnswIndex (Graph F)}

/-- Call `i` of a crowd. -/
def crowdOp (i : ℕ) : HnswOp 1 := .add (decimal i) ⟨[.zero], rfl⟩

/-- The numbers below `n` as labels. -/
def crowd (n : ℕ) : List (HnswOp 1) := (List.range n).map crowdOp

/-- An index after a crowd in which every node has one layer. -/
structure Crowded (n : ℕ) (x : HnswIndex (Graph F)) : Prop where
  bodies : x.graph.nodes.map (fun node => (node.label, node.deleted, node.links.length)) =
    (List.range n).map fun i => (decimal i, false, 1)
  labels : x.labels = ((List.range n).map fun i => (decimal i, i)).reverse
  entry : x.graph.entryPoint = if n = 0 then none else some 0
  maxLevel : x.graph.maxLevel = 0

theorem Crowded.length {n : ℕ} (h : Crowded n x) : x.graph.nodes.length = n := by
  simpa using congrArg List.length h.bodies

theorem Crowded.node {n i : ℕ} (h : Crowded n x) (hi : i < n) {node : Hnsw.Node F} (hnode : x.graph.nodes[i]? = some node) :
    node.label = decimal i ∧ node.deleted = false ∧ node.links.length = 1 := by
  have hbody := congrArg (fun l => l[i]?) h.bodies
  rw [List.getElem?_map, List.getElem?_map, hnode, List.getElem?_range hi] at hbody
  simpa using hbody

theorem Crowded.unknown {n : ℕ} (h : Crowded n x) : x.labels.lookup (decimal n) = none := by
  rw [h.labels, List.lookup_eq_none_iff]
  intro e he
  obtain ⟨i, hi, rfl⟩ := List.mem_map.1 (List.mem_reverse.1 he)
  have hlt := List.mem_range.1 hi
  rw [bne_iff_ne]
  intro hlabel
  have := decimal_injective hlabel
  omega

theorem runAll_append {dim : ℕ} (ops : List (HnswOp dim)) (op : HnswOp dim) :
    HnswIndex.runAll lim M (ops ++ [op]) x = (HnswIndex.runAll lim M ops x >>= fun x => op.run lim M x) := by
  rw [HnswIndex.runAll, List.foldlM_append, HnswIndex.runAll]
  refine congrArg _ (funext fun x => ?_)
  exact bind_pure _

/-- One more node, with an identifier of its own or a wrapped one. -/
theorem Crowded.add {n : ℕ} (h : Crowded n x) (hrun : (crowdOp n).run lim M x = .ok x') :
    ∃ v g₁, (x.graph.push (newNode M x.graph (decimal n) v)).Relinked g₁ ∧
      x'.labels = (decimal n, u32 n) :: x.labels ∧ x'.graph = if x.graph.entryPoint = none ∨ 0 < (M.level n : ℕ) then
        { g₁ with entryPoint := some (u32 n), maxLevel := M.level n } else g₁ := by
  obtain ⟨id, graph, hknown, -, -⟩ | ⟨id, graph, -, hinsert, rfl⟩ := HnswOp.run_add _ hrun
  · rw [h.unknown] at hknown
    cases hknown
  · obtain ⟨rfl, v, g₁, -, hrelinked, -, hgraph⟩ := insert_ok hinsert
    rw [h.length, h.maxLevel] at hgraph
    exact ⟨v, g₁, hrelinked, by rw [h.length], hgraph⟩

theorem crowd_succ (n : ℕ) : crowd (n + 1) = crowd n ++ [crowdOp n] := by
  rw [crowd, List.range_succ, List.map_append]
  rfl

theorem crowd_runs {n : ℕ} (hn : n ≤ 2 ^ 32) (hlevel : ∀ i < n, (M.level i : ℕ) = 0) :
    ∃ x, HnswIndex.runAll lim M (crowd n) (.fresh F 1) = .ok x ∧ x.Tidy 1 ∧ Crowded n x := by
  induction n with
  | zero => exact ⟨.fresh F 1, rfl, HnswIndex.tidy_fresh, rfl, rfl, rfl, rfl⟩
  | succ n ih =>
    obtain ⟨x, hrun, hx, hc⟩ := ih (by omega) fun i hi => hlevel i (by omega)
    have hfit : (crowdOp n).Fits x := fun _ => by rw [hx.sound.nodes, hc.length]; omega
    obtain ⟨x', hrun', hs⟩ := HnswOp.run_runs hx (crowdOp n) hfit
    refine ⟨x', by rw [crowd_succ, runAll_append, hrun]; exact hrun', HnswOp.run_tidy hx (crowdOp n) hfit hrun' hs, ?_⟩
    obtain ⟨v, g₁, hrelinked, hlabels, hgraph⟩ := hc.add hrun'
    rw [show u32 n = n from Nat.mod_eq_of_lt (by omega)] at hlabels hgraph
    have hflat := hlevel n (by omega)
    have hbodies : x'.graph.nodes = g₁.nodes := by
      rw [hgraph]
      split_ifs <;> rfl
    refine ⟨?_, ?_, ?_, ?_⟩
    · have hpushed := congrArg (List.map fun b : Bytes × List F × Bool × ℕ => (b.1, b.2.2)) hrelinked.bodies
      rw [List.map_map, List.map_map] at hpushed
      rw [hbodies]
      refine hpushed.trans ?_
      have hnew : newNode M x.graph (decimal n) v = ⟨decimal n, v, [[]], false⟩ := by
        rw [newNode, hc.length, hflat]
        rfl
      rw [hnew, Graph.push, List.map_append, List.range_succ, List.map_append, ← hc.bodies]
      rfl
    · rw [hlabels, hc.labels, List.range_succ, List.map_append, List.reverse_append]
      rfl
    · have hentry := hc.entry
      rw [hgraph, hflat, if_neg (Nat.succ_ne_zero n)]
      by_cases h0 : n = 0
      · rw [if_pos h0] at hentry
        rw [if_pos (.inl hentry), h0]
      · rw [if_neg h0] at hentry
        rw [if_neg (by simp [hentry]), hrelinked.entryPoint]
        exact hentry
    · rw [hgraph]
      split_ifs
      · exact hflat
      · exact hrelinked.maxLevel.trans hc.maxLevel

/-- The node after the last identifier goes in under the first one. -/
theorem Crowded.wraps (h : Crowded (2 ^ 32) x) (hlevel : 0 < (M.level (2 ^ 32) : ℕ)) (hrun : (crowdOp (2 ^ 32)).run lim M x = .ok x') :
    ¬x'.graph.WellFormed := by
  obtain ⟨v, g₁, hrelinked, -, hgraph⟩ := h.add hrun
  rw [if_pos (.inr hlevel), show u32 (2 ^ 32) = 0 from rfl] at hgraph
  intro hwf
  rw [hgraph] at hwf
  obtain ⟨node, hnode, hlen⟩ := hwf.entry 0 rfl
  obtain ⟨old, hold, hbody⟩ := hrelinked.node hnode
  have hlt : 0 < x.graph.nodes.length := by
    rw [h.length]
    exact Nat.two_pow_pos 32
  have hlayers := (h.node (Nat.two_pow_pos 32) ((List.getElem?_append_left hlt).symm.trans hold)).2.2
  have hsame : old.links.length = node.links.length := congrArg (fun b => b.2.2.2) hbody
  dsimp only at hlen
  omega

section Runs

variable {dim : ℕ}

/-- A run that cannot use up the identifiers. -/
theorem fitsAll_of_short (ops : List (HnswOp dim)) (h : x.nodes + ops.length ≤ 2 ^ 32) : HnswIndex.FitsAll lim M ops x := by
  induction ops generalizing x with
  | nil => trivial
  | cons op ops ih =>
    rw [List.length_cons] at h
    refine ⟨?_, fun x' hrun => ih ?_⟩
    · cases op with
      | add label vec => exact fun _ => by omega
      | remove label => trivial
    · cases op with
      | add label vec =>
        obtain ⟨id, graph, -, -, rfl⟩ | ⟨id, graph, -, -, rfl⟩ := HnswOp.run_add vec hrun
        · dsimp only
          omega
        · dsimp only
          omega
      | remove label =>
        obtain ⟨-, rfl⟩ | ⟨id, graph, -, -, rfl⟩ := HnswOp.run_remove hrun
        · omega
        · dsimp only
          omega

/-- In every run whose steps fit, the graph is well formed, and neither the updates nor a search touch anything out of
range. -/
theorem graph_wellFormed (ops : List (HnswOp dim)) (hfit : HnswIndex.FitsAll lim M ops (.fresh F dim)) :
    ∃ x, HnswIndex.runAll lim M ops (.fresh F dim) = .ok x ∧ x.graph.WellFormed ∧
      ∀ (query : {v : List Double // v.length = dim}) (k ef : ℕ), ∃ out, Hnsw.search lim M dim x.graph query.1 k ef = .ok out := by
  obtain ⟨x, hrun, hx⟩ := HnswIndex.runAll_tidy HnswIndex.tidy_fresh ops hfit
  exact ⟨x, hrun, hx.wellFormed, hx.search_runs⟩

end Runs

/-- All distances are the same, and the node after the last identifier gets level 5. -/
def steep : Metric ℕ := .ofOrder (fun _ _ => 0) (fun _ _ => 0) (fun _ => .zero) fun n => if n = 2 ^ 32 then 5 else 0

/-- A label that is added, removed and added again. -/
theorem graph_wellFormed_again : ∃ x, HnswIndex.runAll Checked.wide steep
    [crowdOp 0, crowdOp 1, .remove (decimal 0), crowdOp 0] (.fresh ℕ 1) = .ok x ∧ x.graph.WellFormed := by
  obtain ⟨x, hrun, hx, -⟩ := @graph_wellFormed ℕ Checked.wide steep 1 [crowdOp 0, crowdOp 1, .remove (decimal 0), crowdOp 0]
    (fitsAll_of_short _ (by decide))
  exact ⟨x, hrun, hx⟩

/-- The run of one label more than there are identifiers, where the last node gets level 5. -/
theorem graph_misshapen : ¬∃ x, HnswIndex.runAll Checked.wide steep (crowd (2 ^ 32 + 1)) (.fresh ℕ 1) = .ok x ∧
    x.graph.WellFormed := by
  rintro ⟨x', hrun, hwf⟩
  have hlevel : ∀ i, steep.level i = if i = 2 ^ 32 then 5 else 0 := fun _ => rfl
  obtain ⟨x, hcrowd, -, hx⟩ := @crowd_runs ℕ Checked.wide steep (2 ^ 32) le_rfl fun i hi => by
    rw [hlevel, if_neg hi.ne]
    rfl
  rw [crowd_succ, runAll_append, hcrowd] at hrun
  exact hx.wraps (by rw [hlevel, if_pos rfl]; decide) hrun hwf

end BlazeKV
