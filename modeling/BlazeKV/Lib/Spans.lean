import Mathlib.Data.List.Basic
import Mathlib.Tactic

/-! Views into a buffer, by where they start and how long they are. -/

namespace BlazeKV.Lib

structure Span where
  start : ℕ
  size : ℕ
  deriving DecidableEq

namespace Span

def stop (s : Span) : ℕ := s.start + s.size

/-- What the view shows of a buffer. -/
def of {α : Type} (s : Span) (xs : List α) : List α := (xs.drop s.start).take s.size

/-- Views without a common place. -/
def Apart (s t : Span) : Prop := s.stop ≤ t.start ∨ t.stop ≤ s.start

def Within (s t : Span) : Prop := t.start ≤ s.start ∧ s.stop ≤ t.stop

instance : DecidableRel Apart := fun s t => inferInstanceAs (Decidable (s.stop ≤ t.start ∨ t.stop ≤ s.start))

theorem Apart.symm {s t : Span} (h : Apart s t) : Apart t s := Or.symm h

theorem Apart.mono {s s' t t' : Span} (h : Apart s' t') (hs : s.Within s') (ht : t.Within t') : Apart s t := by
  rcases h with h | h
  · exact .inl (hs.2.trans (h.trans ht.1))
  · exact .inr (ht.2.trans (h.trans hs.1))

/-- Views that are apart do not take up more than there is. -/
theorem sum_size_le {n : ℕ} {spans : List Span} (h : spans.Pairwise Apart) (hn : ∀ s ∈ spans, s.stop ≤ n) :
    (spans.map size).sum ≤ n := by
  have hnodup : (spans.flatMap fun s => List.range' s.start s.size).Nodup := by
    refine List.nodup_flatMap.2 ⟨fun s _ => List.nodup_range', h.imp fun {s t} hst i hi hj => ?_⟩
    rw [List.mem_range'_1] at hi hj
    unfold Apart stop at hst
    omega
  have hsub : (spans.flatMap fun s => List.range' s.start s.size) ⊆ List.range n := by
    intro i hi
    obtain ⟨s, hs, hi⟩ := List.mem_flatMap.1 hi
    rw [List.mem_range'_1] at hi
    have hle := hn s hs
    unfold stop at hle
    exact List.mem_range.2 (by omega)
  have hle := (List.subperm_of_subset hnodup hsub).length_le
  rw [List.length_flatMap, List.length_range] at hle
  simpa using hle

end Span

/-- Views inside the first `hi` elements, each behind the ones before it. -/
structure InRow (hi : ℕ) (spans : List Span) : Prop where
  behind : spans.Pairwise fun s t => s.stop ≤ t.start
  inside : ∀ s ∈ spans, s.stop ≤ hi

section Spans

variable {hi hi' : ℕ} {spans : List Span}

theorem InRow.nil : InRow hi [] := ⟨.nil, fun _ h => absurd h List.not_mem_nil⟩

theorem InRow.mono (h : InRow hi spans) (hle : hi ≤ hi') : InRow hi' spans :=
  ⟨h.behind, fun s hs => (h.inside s hs).trans hle⟩

theorem InRow.snoc (h : InRow hi spans) {s : Span} (hstart : hi ≤ s.start) (hstop : s.stop ≤ hi') :
    InRow hi' (spans ++ [s]) := by
  have hle : hi ≤ hi' := hstart.trans ((Nat.le_add_right _ _).trans hstop)
  constructor
  · refine List.pairwise_append.2 ⟨h.behind, List.pairwise_singleton _ _, fun t ht u hu => ?_⟩
    rw [List.mem_singleton.1 hu]
    exact (h.inside t ht).trans hstart
  · intro t ht
    rcases List.mem_append.1 ht with ht | ht
    · exact (h.inside t ht).trans hle
    · rw [List.mem_singleton.1 ht]
      exact hstop

end Spans

/-! Places that views cover, and values with the places that they were computed from. -/

section Covering

/-- Every place from `lo` to below `hi` is in one of the views. -/
def Covering (spans : List Span) (lo hi : ℕ) : Prop :=
  ∀ i, lo ≤ i → i < hi → ∃ s ∈ spans, s.start ≤ i ∧ i < s.stop

variable {spans spans' : List Span} {lo mid hi : ℕ}

theorem Covering.of_mem {s : Span} (h : s ∈ spans) : Covering spans s.start s.stop := fun _ h1 h2 => ⟨s, h, h1, h2⟩

theorem Covering.mono (h : Covering spans lo hi) (hsub : ∀ s ∈ spans, s ∈ spans') : Covering spans' lo hi := by
  intro i h1 h2
  obtain ⟨s, hs, hi⟩ := h i h1 h2
  exact ⟨s, hsub s hs, hi⟩

theorem Covering.join (h : Covering spans lo mid) {mid' : ℕ} (h' : Covering spans mid' hi) (hle : mid' ≤ mid) :
    Covering spans lo hi := by
  intro i h1 h2
  rcases Nat.lt_or_ge i mid with hi | hi
  · exact h i h1 hi
  · exact h' i (hle.trans hi) h2

end Covering

/-- A value with the views whose contents went into it. -/
structure Fetched (α : Type) where
  value : α
  sources : List Span

namespace Fetched

variable {α β γ : Type}

/-- A value that nothing was read for. -/
def const (a : α) : Fetched α := ⟨a, []⟩

def map (f : α → β) (x : Fetched α) : Fetched β := ⟨f x.value, x.sources⟩

def map₂ (f : α → β → γ) (x : Fetched α) (y : Fetched β) : Fetched γ := ⟨f x.value y.value, x.sources ++ y.sources⟩

@[simp] theorem const_value (a : α) : (const a).value = a := rfl
@[simp] theorem const_sources (a : α) : (const a).sources = [] := rfl
@[simp] theorem map_value (f : α → β) (x : Fetched α) : (x.map f).value = f x.value := rfl
@[simp] theorem map_sources (f : α → β) (x : Fetched α) : (x.map f).sources = x.sources := rfl
@[simp] theorem map₂_value (f : α → β → γ) (x : Fetched α) (y : Fetched β) :
    (map₂ f x y).value = f x.value y.value := rfl
@[simp] theorem map₂_sources (f : α → β → γ) (x : Fetched α) (y : Fetched β) :
    (map₂ f x y).sources = x.sources ++ y.sources := rfl

end Fetched

/-! The words of a line, for its views: what stands between separators and is not empty. -/

section Words

variable {α : Type} {p : α → Bool}

theorem words_sep {x : α} (hx : p x) (xs : List α) :
    ((x :: xs).splitOnP p).filter (· ≠ []) = (xs.splitOnP p).filter (· ≠ []) := by
  rw [List.splitOnP_cons_eq_if_modifyHead, if_pos hx]
  rfl

theorem words_word {w : List α} (hne : w ≠ []) (hw : ∀ x ∈ w, p x = false) {xs : List α}
    (hxs : ∀ x, xs.head? = some x → p x) :
    ((w ++ xs).splitOnP p).filter (· ≠ []) = w :: (xs.splitOnP p).filter (· ≠ []) := by
  cases xs with
  | nil =>
    rw [List.append_nil, List.splitOnP_eq_singleton hw]
    simp [hne]
  | cons x xs =>
    rw [List.splitOnP_append_cons_of_forall_mem hw x (hxs x rfl), words_sep (hxs x rfl), List.filter_cons,
      if_pos (decide_eq_true hne)]

theorem words_dropWhile (xs : List α) :
    (xs.splitOnP p).filter (· ≠ []) = ((xs.dropWhile p).splitOnP p).filter (· ≠ []) := by
  induction xs with
  | nil => rfl
  | cons x xs ih =>
    rw [List.dropWhile_cons]
    split_ifs with hx
    · exact (words_sep hx xs).trans ih
    · rfl

/-- The word in front, where nothing separates it from the start. -/
theorem words_takeWhile {xs : List α} (h : xs.takeWhile (!p ·) ≠ []) : (xs.splitOnP p).filter (· ≠ []) =
    xs.takeWhile (!p ·) :: ((xs.dropWhile (!p ·)).splitOnP p).filter (· ≠ []) := by
  have hw : ∀ x ∈ xs.takeWhile (!p ·), p x = false := fun x hx => by
    simpa using (List.all_eq_true.1 List.all_takeWhile) x hx
  have hrest : ∀ x, (xs.dropWhile (!p ·)).head? = some x → p x := fun x hx => by
    have := List.head?_dropWhile_not (!p ·) xs
    rw [hx] at this
    simpa using this
  have := words_word h hw hrest
  rwa [List.takeWhile_append_dropWhile] at this

theorem drop_takeWhile (q : α → Bool) (xs : List α) : xs.drop (xs.takeWhile q).length = xs.dropWhile q := by
  have : (xs.takeWhile q ++ xs.dropWhile q).drop (xs.takeWhile q).length = xs.dropWhile q := List.drop_left
  rwa [List.takeWhile_append_dropWhile] at this

end Words

end BlazeKV.Lib
