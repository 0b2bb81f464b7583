import Mathlib.Data.List.Basic
import Mathlib.Logic.Function.Basic
import Mathlib.Tactic

/-! Arrays without gaps, with a map from keys to positions. An element is removed by moving the
last one into its place. -/

namespace BlazeKV.Lib

variable {α κ : Type}

section Arrays

variable {l : List α} {i j : ℕ} {x p d : α}

theorem getElem?_snoc : (l ++ [x])[j]? = some p ↔ l[j]? = some p ∨ j = l.length ∧ x = p := by
  rcases Nat.lt_trichotomy j l.length with h | h | h
  · rw [List.getElem?_append_left h]
    exact ⟨.inl, fun hp => hp.resolve_right fun h' => h.ne h'.1⟩
  · subst h
    rw [List.getElem?_append_right le_rfl, Nat.sub_self]
    simp
  · rw [List.getElem?_append_right h.le, List.getElem?_eq_none (by simp; omega),
      List.getElem?_eq_none h.le]
    simp [h.ne']

theorem getElem?_dropLast' : l.dropLast[j]? = some p ↔ j < l.length - 1 ∧ l[j]? = some p := by
  rw [List.getElem?_dropLast]
  split_ifs with h <;> simp [h]

/-- Element `i` gives way to the last one. -/
theorem getElem?_swap_remove (hi : i < l.length) : ((l.set i x).dropLast)[j]? = some p ↔
    j < l.length - 1 ∧ if j = i then x = p else l[j]? = some p := by
  rw [getElem?_dropLast', List.length_set, List.getElem?_set]
  by_cases h : i = j
  · subst h
    simp [hi]
  · simp [h, Ne.symm h]

theorem getD_set (hi : i < l.length) : (l.set i x).getD j d = if j = i then x else l.getD j d := by
  simp only [List.getD_eq_getElem?_getD, List.getElem?_set]
  by_cases h : i = j
  · subst h; simp [hi]
  · simp [h, Ne.symm h]

theorem getElem?_getD (hi : i < l.length) (d : α) : l[i]? = some (l.getD i d) := by
  rw [List.getD_eq_getElem?_getD, List.getElem?_eq_getElem hi, Option.getD_some]

end Arrays

/-- The map leads each key to the position of its element, and to nothing else. -/
def Indexed (key : α → κ) (index : κ → Option ℕ) (l : List α) : Prop :=
  ∀ k i, index k = some i ↔ ∃ p, l[i]? = some p ∧ key p = k

section Indexed

variable {key : α → κ} {index : κ → Option ℕ} {l : List α} {i j : ℕ} {k : κ} {p q x : α}

theorem Indexed.of_at (h : Indexed key index l) (hi : l[i]? = some p) : index (key p) = some i :=
  (h _ i).2 ⟨p, hi, rfl⟩

theorem Indexed.lt (h : Indexed key index l) (hk : index k = some i) : i < l.length := by
  obtain ⟨p, hp, -⟩ := (h k i).1 hk
  exact (List.getElem?_eq_some_iff.1 hp).1

theorem Indexed.key_at (h : Indexed key index l) (hk : index k = some i) (hp : l[i]? = some p) :
    key p = k := by
  obtain ⟨q, hq, rfl⟩ := (h k i).1 hk
  rw [hp] at hq
  rw [Option.some.inj hq]

/-- A key has one position. -/
theorem Indexed.unique (h : Indexed key index l) (hi : l[i]? = some p) (hj : l[j]? = some q)
    (he : key p = key q) :
    i = j := by
  have := h.of_at hi
  rw [he, h.of_at hj] at this
  exact (Option.some.inj this).symm

variable [DecidableEq κ]

theorem Indexed.push (h : Indexed key index l) (hnew : index (key x) = none) :
    Indexed key (Function.update index (key x) (some l.length)) (l ++ [x]) := by
  intro k j
  simp only [getElem?_snoc, Function.update_apply]
  split_ifs with hk
  · subst hk
    constructor
    · intro hj
      exact ⟨x, .inr ⟨(Option.some.inj hj).symm, rfl⟩, rfl⟩
    · rintro ⟨p, hp | ⟨rfl, -⟩, hkey⟩
      · rw [← hkey, h.of_at hp] at hnew
        cases hnew
      · rfl
  · rw [h k j]
    constructor
    · rintro ⟨p, hp, hkey⟩
      exact ⟨p, .inl hp, hkey⟩
    · rintro ⟨p, hp | ⟨-, rfl⟩, hkey⟩
      · exact ⟨p, hp, hkey⟩
      · exact absurd hkey.symm hk

omit [DecidableEq κ] in
/-- An element changes and keeps its key. -/
theorem Indexed.set (h : Indexed key index l) (hk : index (key x) = some i) :
    Indexed key index (l.set i x) := by
  intro k j
  rw [h k j, List.getElem?_set]
  have hi := h.lt hk
  by_cases hij : i = j
  · subst hij
    have hkey := h.key_at hk (List.getElem?_eq_getElem hi)
    simp [hi, hkey]
  · simp [hij]

theorem Indexed.pop (h : Indexed key index l) (hk : index k = some (l.length - 1)) :
    Indexed key (Function.update index k none) l.dropLast := by
  intro k' j
  simp only [getElem?_dropLast', Function.update_apply]
  split_ifs with he
  · subst he
    refine iff_of_false (by simp) ?_
    rintro ⟨p, ⟨hj, hp⟩, rfl⟩
    rw [h.of_at hp, Option.some.injEq] at hk
    omega
  · rw [h k' j]
    constructor
    · rintro ⟨p, hp, rfl⟩
      have hlt := (List.getElem?_eq_some_iff.1 hp).1
      have hne : j ≠ l.length - 1 := by
        rintro rfl
        exact he (h.key_at hk hp)
      exact ⟨p, ⟨by omega, hp⟩, rfl⟩
    · rintro ⟨p, ⟨-, hp⟩, hkey⟩
      exact ⟨p, hp, hkey⟩

/-- The last element moves to the place of the removed one. -/
theorem Indexed.swap_remove (h : Indexed key index l) (hk : index k = some i) (hne : i ≠ l.length - 1)
    (hlast : l[l.length - 1]? = some x) :
    Indexed key (Function.update (Function.update index (key x) (some i)) k none)
    (l.set i x).dropLast := by
  have hi := h.lt hk
  have hx := h.of_at hlast
  have hkx : key x ≠ k := by
    intro he
    rw [he, hk, Option.some.injEq] at hx
    exact hne hx
  intro k' j
  simp only [getElem?_swap_remove hi, Function.update_apply]
  by_cases he : k' = k
  · subst he
    rw [if_pos rfl]
    refine iff_of_false (by simp) ?_
    rintro ⟨p, ⟨-, hp⟩, hkey⟩
    split_ifs at hp with hji
    · exact absurd (hp ▸ hkey) hkx
    · rw [← hkey, h.of_at hp] at hk
      exact absurd (Option.some.inj hk) hji
  rw [if_neg he]
  by_cases hex : k' = key x
  · subst hex
    rw [if_pos rfl]
    constructor
    · intro hj
      obtain rfl := Option.some.inj hj
      exact ⟨x, ⟨by omega, by rw [if_pos rfl]⟩, rfl⟩
    · rintro ⟨p, ⟨hj, hp⟩, hkey⟩
      split_ifs at hp with hji
      · rw [hji]
      · rw [← hkey, h.of_at hp, Option.some.injEq] at hx
        omega
  · rw [if_neg hex, h k' j]
    constructor
    · rintro ⟨p, hp, rfl⟩
      have hlt := (List.getElem?_eq_some_iff.1 hp).1
      have hji : j ≠ i := by
        rintro rfl
        exact he (h.key_at hk hp)
      have hjl : j ≠ l.length - 1 := by
        rintro rfl
        rw [hp] at hlast
        exact hex (by rw [Option.some.inj hlast])
      exact ⟨p, ⟨by omega, by rwa [if_neg hji]⟩, rfl⟩
    · rintro ⟨p, ⟨-, hp⟩, hkey⟩
      split_ifs at hp with hji
      · exact absurd (hp ▸ hkey).symm hex
      · exact ⟨p, hp, hkey⟩

end Indexed

end BlazeKV.Lib
