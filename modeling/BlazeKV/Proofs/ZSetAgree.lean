import BlazeKV.Proofs.SkipRun
import BlazeKV.Spec.Object

/-! The two structures of a sorted set. `set` and `remove` keep the dictionary and
the skip list together as long as the stored scores are numbers. -/

namespace BlazeKV

namespace SkipList

/-- The pairs along the lowest level. -/
def entries (sl : SkipList) : List (Bytes × Double) := (sl.chain 0).map fun x => content (sl.node x)

variable {sl : SkipList} {xs : List (Bytes × Double)}

theorem Represents.entries_eq (h : Represents sl xs) : sl.entries = xs := by
  obtain ⟨⟨L, hR, rfl⟩, -, -⟩ := h
  rw [entries, hR.chain_zero, List.map_map]
  refine List.ext_getElem (by simp) fun q h1 h2 => ?_
  rw [List.getElem_map, ← hR.content_eq h2, elemAt_succ (by simpa using h2)]
  rfl

/-- Keys are distinct in a sorted list, so `eraseP` removes every pair with the key. -/
theorem mem_eraseP_sortKey (hs : xs.Pairwise fun a b => sortKey a < sortKey b)
    {p x : Bytes × Double} :
    p ∈ xs.eraseP (fun p => sortKey p = sortKey x) ↔ p ∈ xs ∧ sortKey p ≠ sortKey x := by
  induction xs with
  | nil => simp
  | cons y ys ih =>
    obtain ⟨hy, hys⟩ := List.pairwise_cons.1 hs
    by_cases h : sortKey y = sortKey x
    · rw [List.eraseP_cons_of_pos (by simpa using h), List.mem_cons]
      constructor
      · intro hp
        exact ⟨.inr hp, fun he => (hy p hp).ne (h.trans he.symm)⟩
      · rintro ⟨rfl | hp, hne⟩
        · exact absurd h hne
        · exact hp
    · rw [List.eraseP_cons_of_neg (by simpa using h), List.mem_cons, List.mem_cons, ih hys]
      constructor
      · rintro (rfl | ⟨hp, hne⟩)
        · exact ⟨.inl rfl, h⟩
        · exact ⟨.inr hp, hne⟩
      · rintro ⟨rfl | hp, hne⟩
        · exact .inl rfl
        · exact .inr ⟨hp, hne⟩

end SkipList

open SkipList in
/-- The dictionary and the skip list hold the same pairs, each member once. -/
def ZSet.Agree (z : ZSet) : Prop :=
  (z.sl.entries.map Prod.fst).Nodup ∧ ∀ m s, z.dict.find m = some s ↔ (m, s) ∈ z.sl.entries

/-- The skip list stands for a sorted list without NaN that is the dictionary. -/
def ZSet.Coherent (z : ZSet) : Prop :=
  ∃ xs, SkipList.Represents z.sl xs ∧ ∀ m s, z.dict.find m = some s ↔ (m, s) ∈ xs

namespace ZSet

variable {z : ZSet} {levels : Levels} {member : Bytes} {score : Double}

theorem Coherent.agree (h : z.Coherent) : z.Agree := by
  obtain ⟨xs, hR, hd⟩ := h
  refine ⟨?_, fun m s => by rw [hR.entries_eq, hd]⟩
  rw [hR.entries_eq, List.Nodup, List.pairwise_map]
  refine hR.sorted.imp_of_mem fun {a b} ha hb hlt he => hlt.ne ?_
  have h1 := (hd a.1 a.2).2 ha
  have h2 := (hd b.1 b.2).2 hb
  rw [← he, h1] at h2
  rw [Prod.ext he (Option.some.inj h2)]

theorem coherent_empty : empty.Coherent :=
  ⟨[], SkipList.represents_new, fun m s => by simp [empty]⟩

/-- Inserting the pair of an absent member. -/
theorem Coherent.insertNew {d : Dict Double} {sl : SkipList} {xs : List (Bytes × Double)}
    (hR : SkipList.Represents sl xs) (habs : ∀ p ∈ xs, p.1 ≠ member) (hscore : score.isNaN = false)
    (hd : ∀ m s, d.find m = some s ↔ if m = member then s = score else (m, s) ∈ xs) :
    Coherent ⟨d, slInsert sl levels member score⟩ := by
  obtain ⟨sl', he, hR'⟩ := hR.insert_spec ((levels sl.next : ℕ) + 1) hscore habs
    (Nat.succ_pos _) (levels sl.next).isLt
  have hsl : slInsert sl levels member score = sl' := by rw [slInsert, he, Option.getD_some]
  refine ⟨_, hsl ▸ hR', fun m s => ?_⟩
  rw [List.mem_orderedInsert, hd, Prod.mk.injEq]
  split_ifs with hm
  · subst hm
    exact ⟨fun h => .inl ⟨rfl, h⟩, fun h => h.elim And.right fun h => absurd rfl (habs _ h)⟩
  · exact ⟨.inr, fun h => h.elim (fun h => absurd h.1 hm) id⟩

/-- Erasing the pair of a member takes the member out of the list. -/
theorem erase_pair {xs : List (Bytes × Double)} {cur : Double}
    (hR : SkipList.Represents z.sl xs) (hd : ∀ m s, z.dict.find m = some s ↔ (m, s) ∈ xs)
    (hcur : z.dict.find member = some cur) :
    ∃ ys, SkipList.Represents (slErase z.sl member cur) ys ∧
      ∀ p, p ∈ ys ↔ p ∈ xs ∧ p.1 ≠ member := by
  have hmem := (hd member cur).1 hcur
  obtain ⟨sl', he, hR'⟩ := hR.erase_spec member (hR.number _ hmem)
  have hsl : slErase z.sl member cur = sl' := by rw [slErase, he, Option.map_some, Option.getD_some]
  refine ⟨_, hsl ▸ hR', fun p => ?_⟩
  rw [SkipList.mem_eraseP_sortKey hR.sorted]
  refine and_congr_right fun hp => not_congr ⟨fun h => ?_, fun h => ?_⟩
  · exact congrArg (fun k => (ofLex k).2) h
  · have := (hd p.1 p.2).2 hp
    rw [h, hcur] at this
    have hpair : p = (member, cur) := Prod.ext h (Option.some.inj this).symm
    rw [hpair]

theorem Coherent.set (h : z.Coherent) (hscore : score.isNaN = false) :
    (z.set levels member score).1.Coherent := by
  obtain ⟨xs, hR, hd⟩ := h
  unfold ZSet.set
  cases hcur : z.dict.find member with
  | none =>
    refine Coherent.insertNew hR (fun p hp he => ?_) hscore fun m s => ?_
    · have := (hd p.1 p.2).2 hp
      rw [he, hcur] at this
      exact absurd this (by simp)
    · rw [Dict.find_insert]
      split_ifs
      · rw [Option.some.injEq, eq_comm]
      · exact hd m s
  | some cur =>
    dsimp only
    split_ifs
    · exact ⟨xs, hR, hd⟩
    · obtain ⟨ys, hR', hys⟩ := erase_pair hR hd hcur
      refine Coherent.insertNew hR' (fun p hp => ((hys p).1 hp).2) hscore fun m s => ?_
      rw [Dict.find_write, hcur]
      simp only [Option.isSome_some, and_true]
      split_ifs with hm
      · rw [Option.some.injEq, eq_comm]
      · rw [hd, hys]
        exact ⟨fun h => ⟨h, hm⟩, And.left⟩

theorem Coherent.remove (h : z.Coherent) : (z.remove member).1.Coherent := by
  obtain ⟨xs, hR, hd⟩ := h
  unfold ZSet.remove
  cases hcur : z.dict.find member with
  | none => exact ⟨xs, hR, hd⟩
  | some cur =>
    obtain ⟨ys, hR', hys⟩ := erase_pair hR hd hcur
    refine ⟨ys, hR', fun m s => ?_⟩
    rw [Dict.find_erase, hys, ← hd]
    split_ifs with hm
    · simp [hm]
    · simp [hm]

end ZSet

end BlazeKV
