import BlazeKV.Proofs.HnswResults

/-! Distances in a linear order. A heap of pairs compares the distances first and then the nodes, so that its top is
settled. -/

namespace BlazeKV

open Lib Hnsw

variable {F : Type} [LinearOrder F]

/-- What the heaps and `std::sort` do where distances are compared by a linear order. -/
structure Metric.Ordered (M : Metric F) : Prop where
  lt : ∀ a b, M.lt a b = decide (a < b)
  nearest : ∀ (heap : List (F × ℕ)) (c t : F × ℕ), c ∈ heap → heap[M.nearest heap % heap.length]? = some t → toLex t ≤ toLex c
  farthest : ∀ (heap : List (F × ℕ)) (c t : F × ℕ), c ∈ heap → heap[M.farthest heap % heap.length]? = some t → toLex c ≤ toLex t
  sort : ∀ l, (M.sort l).Pairwise fun a b => a.1 ≤ b.1

/-- Heaps that look for their top, and a stable sort. -/
def Metric.ofOrder (prepare : List Double → Double → F) (distance : List F → List F → F) (score : F → Double)
    (level : ℕ → Fin 65) : Metric F where
  prepare := prepare
  distance := distance
  lt a b := a < b
  score := score
  level := level
  nearest heap := heap.findIdx fun t => heap.all fun c => toLex t ≤ toLex c
  farthest heap := heap.findIdx fun t => heap.all fun c => toLex c ≤ toLex t
  sort l := l.mergeSort fun a b => a.1 ≤ b.1
  sort_perm l := List.mergeSort_perm l _

/-- The element that a heap looks for is there, whichever way it compares. -/
theorem findIdx_top {α : Type} {heap : List α} {t : α} (r : α → α → Bool) (hr : ∃ t ∈ heap, ∀ c ∈ heap, r t c)
    (ht : heap[(heap.findIdx fun t => heap.all (r t)) % heap.length]? = some t) : ∀ c ∈ heap, r t c := by
  obtain ⟨top, hmem, htop⟩ := hr
  have hlt : (heap.findIdx fun t => heap.all (r t)) < heap.length :=
    List.findIdx_lt_length_of_exists ⟨top, hmem, List.all_eq_true.2 htop⟩
  rw [Nat.mod_eq_of_lt hlt] at ht
  obtain ⟨_, rfl⟩ := List.getElem?_eq_some_iff.1 ht
  exact List.all_eq_true.1 (@List.findIdx_getElem _ (fun t => heap.all (r t)) heap hlt)

theorem Metric.ofOrder_ordered (prepare : List Double → Double → F) (distance : List F → List F → F) (score : F → Double)
    (level : ℕ → Fin 65) : (Metric.ofOrder prepare distance score level).Ordered where
  lt _ _ := rfl
  nearest heap c t hc ht := by
    obtain ⟨top, hmem, htop⟩ := heap.toFinset.exists_min_image toLex ⟨c, List.mem_toFinset.2 hc⟩
    have hall := findIdx_top (fun t c => decide (toLex t ≤ toLex c))
      ⟨top, List.mem_toFinset.1 hmem, fun c hc => decide_eq_true (htop c (List.mem_toFinset.2 hc))⟩ ht
    exact of_decide_eq_true (hall c hc)
  farthest heap c t hc ht := by
    obtain ⟨top, hmem, htop⟩ := heap.toFinset.exists_max_image toLex ⟨c, List.mem_toFinset.2 hc⟩
    have hall := findIdx_top (fun t c => decide (toLex c ≤ toLex t))
      ⟨top, List.mem_toFinset.1 hmem, fun c hc => decide_eq_true (htop c (List.mem_toFinset.2 hc))⟩ ht
    exact of_decide_eq_true (hall c hc)
  sort l := by
    have hsorted := @List.pairwise_mergeSort _ (fun a b : F × ℕ => decide (a.1 ≤ b.1))
      (fun a b c hab hbc => by simpa using le_trans (of_decide_eq_true hab) (of_decide_eq_true hbc))
      (fun a b => by simpa using le_total a.1 b.1) l
    exact hsorted.imp fun h => of_decide_eq_true h

/-- The farthest result is taken first, so that the nearest one comes to the front. -/
theorem drain_sorted {M : Metric F} (hM : M.Ordered) {fuel : ℕ} {results acc : List (F × ℕ)} {out : List ℕ}
    (h : drain M fuel results (acc.map Prod.snd) = .ok out) (hacc : acc.Pairwise fun a b => a.1 ≤ b.1)
    (hle : ∀ a ∈ results, ∀ b ∈ acc, a.1 ≤ b.1) :
    ∃ items : List (F × ℕ), items.Perm (results ++ acc) ∧ out = items.map Prod.snd ∧ items.Pairwise fun a b => a.1 ≤ b.1 := by
  induction fuel generalizing results acc with
  | zero =>
    obtain ⟨_, hnil, h⟩ := of_bind_ok h
    obtain rfl := of_require hnil
    exact ⟨acc, .refl _, (Except.ok.inj h).symm, hacc⟩
  | succ fuel ih =>
    unfold drain at h
    split_ifs at h with hnil
    · obtain rfl := hnil
      exact ⟨acc, .refl _, (Except.ok.inj h).symm, hacc⟩
    · obtain ⟨c, hc, h⟩ := of_bind_ok h
      have htop := of_readAt hc
      have hmax : ∀ a ∈ results, a.1 ≤ c.1 := fun a ha => by
        have := hM.farthest results a c ha htop
        rw [Prod.Lex.le_iff] at this
        exact this.elim le_of_lt fun h => h.1.le
      obtain ⟨hlt, rfl⟩ := List.getElem?_eq_some_iff.1 htop
      obtain ⟨items, hperm, hout, hsorted⟩ := @ih (pop M.farthest results) (_ :: acc) h
        (List.pairwise_cons.2 ⟨fun b hb => hle _ (List.getElem_mem hlt) b hb, hacc⟩) (fun a ha b hb => by
          have ha := (pop_sublist _ _).subset ha
          rcases List.mem_cons.1 hb with rfl | hb
          · exact hmax a ha
          · exact hle a ha b hb)
      refine ⟨items, hperm.trans (List.perm_middle.trans ?_), hout, hsorted⟩
      exact (List.getElem_cons_eraseIdx_perm hlt).append_right acc

end BlazeKV
