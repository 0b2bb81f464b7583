import Mathlib.Data.List.Infix

/-! Patterns of stars and single characters, and the search that goes back to its latest star only.
A later star takes in whatever an earlier one could still skip, so that nothing is lost. -/

namespace BlazeKV.Lib

inductive Wildcard (α : Type)
  | star
  | one (p : α → Bool)

namespace Wildcard

variable {α : Type}

def accepts : List (Wildcard α) → List α → Bool
  | [], w => w.isEmpty
  | star :: ts, w => w.tails.any (accepts ts)
  | one _ :: _, [] => false
  | one p :: ts, c :: w => p c && accepts ts w

def isStar : Wildcard α → Bool
  | star => true
  | one _ => false

variable {ts mid : List (Wildcard α)} {w t : List α}

theorem accepts_star : accepts (star :: ts) w ↔ ∃ t, t <:+ w ∧ accepts ts t := by
  simp [accepts, List.any_eq_true]

theorem accepts_one {p : α → Bool} {c : α} : accepts (one p :: ts) (c :: w) ↔ p c ∧ accepts ts w := by
  simp [accepts]

/-- What a star leaves for the rest is the same before a longer text. -/
theorem accepts_longer (h : t <:+ w) (ht : accepts (star :: ts) t) : accepts (star :: ts) w := by
  obtain ⟨u, hu, ha⟩ := accepts_star.1 ht
  exact accepts_star.2 ⟨u, hu.trans h, ha⟩

/-- Only stars accept the empty text. -/
theorem accepts_nil : accepts ts ([] : List α) = ts.all isStar := by
  induction ts with
  | nil => rfl
  | cons a ts ih =>
    cases a with
    | star => simpa [accepts, isStar] using ih
    | one p => rfl

/-- Single characters take as many characters as they are. -/
theorem accepts_singles (hmid : ∀ a ∈ mid, a.isStar = false) (h : accepts (mid ++ ts) w) :
    mid.length ≤ w.length ∧ accepts ts (w.drop mid.length) := by
  induction mid generalizing w with
  | nil => exact ⟨Nat.zero_le _, h⟩
  | cons a mid ih =>
    cases a with
    | star => exact absurd (hmid star List.mem_cons_self) (by simp [isStar])
    | one p =>
      cases w with
      | nil => simp [accepts] at h
      | cons c w =>
        obtain ⟨hle, ha⟩ := ih (fun a ha => hmid a (List.mem_cons_of_mem _ ha)) (accepts_one.1 h).2
        exact ⟨Nat.succ_le_succ hle, ha⟩

/-- A text with a star in its pattern can be longer: the star also takes what the rest took before. -/
theorem accepts_append [Inhabited α] (h : accepts ts w) (hstar : ∃ a ∈ ts, a.isStar) : ∃ u, u ≠ [] ∧ accepts ts (w ++ u) := by
  induction ts generalizing w with
  | nil => simp at hstar
  | cons a ts ih =>
    cases a with
    | star =>
      obtain ⟨t, ht, ha⟩ := accepts_star.1 h
      cases t with
      | nil => exact ⟨[default], by simp, accepts_star.2 ⟨[], List.nil_suffix, ha⟩⟩
      | cons c t => exact ⟨c :: t, by simp, accepts_star.2 ⟨c :: t, List.suffix_append _ _, ha⟩⟩
    | one p =>
      cases w with
      | nil => simp [accepts] at h
      | cons c w =>
        obtain ⟨hp, ha⟩ := accepts_one.1 h
        have hrest : ∃ a ∈ ts, a.isStar := by simpa [isStar] using hstar
        obtain ⟨u, hu, hau⟩ := ih ha hrest
        exact ⟨u, hu, accepts_one.2 ⟨hp, hau⟩⟩

/-- Without a star the lengths agree. -/
theorem length_of_accepts (hts : ∀ a ∈ ts, a.isStar = false) (h : accepts ts w) : w.length = ts.length := by
  rw [← List.append_nil ts] at h
  obtain ⟨hle, hrest⟩ := accepts_singles hts h
  have hnil : w.drop ts.length = [] := by simpa [accepts] using hrest
  have := List.drop_eq_nil_iff.1 hnil
  omega

/-- The pattern and the text that are left, and those after the latest star when it was met or last
gone back to. -/
structure Search (α : Type) where
  rest : List (Wildcard α)
  text : List α
  back : Option (List (Wildcard α) × List α)

namespace Search

/-- The latest star takes one character more. -/
def retry (st : Search α) : Option (Search α) :=
  st.back.map fun b => ⟨b.1, b.2.tail, some (b.1, b.2.tail)⟩

/-- A round while there is text; `none` when nothing is left to try. -/
def step (st : Search α) : Option (Search α) :=
  match st.rest, st.text with
  | star :: ts, w => some ⟨ts, w, some (ts, w)⟩
  | one p :: ts, c :: w => if p c then some ⟨ts, w, st.back⟩ else st.retry
  | _, _ => st.retry

theorem step_one (p : α → Bool) (ts : List (Wildcard α)) (c : α) (w : List α) (back : Option (List (Wildcard α) × List α)) :
    step ⟨one p :: ts, c :: w, back⟩ = if p c then some ⟨ts, w, back⟩ else retry ⟨one p :: ts, c :: w, back⟩ := rfl

theorem step_done (w : List α) (back : Option (List (Wildcard α) × List α)) :
    step ⟨[], w, back⟩ = retry ⟨[], w, back⟩ := rfl

/-- What the search has still to find. -/
def Answer (st : Search α) : Prop :=
  accepts st.rest st.text ∨ ∃ b ∈ st.back, ∃ t, t <:+ b.2.tail ∧ accepts b.1 t

/-- Since the latest star only single characters were passed. -/
def Linear (st : Search α) : Prop :=
  ∀ b ∈ st.back, ∃ mid, (∀ a ∈ mid, a.isStar = false) ∧ b.1 = mid ++ st.rest ∧ mid.length ≤ b.2.length ∧
    st.text = b.2.drop mid.length

variable {st st' : Search α}

theorem retry_spec (h : st.retry = some st') (hfail : accepts st.rest st.text = false) :
    st'.Linear ∧ (st.Answer ↔ st'.Answer) := by
  obtain ⟨b, hb, rfl⟩ := Option.map_eq_some_iff.1 h
  refine ⟨fun b' hb' => ?_, ?_⟩
  · obtain rfl := Option.some.inj hb'
    exact ⟨[], by simp, rfl, Nat.zero_le _, rfl⟩
  · have hold : st.Answer ↔ ∃ t, t <:+ b.2.tail ∧ accepts b.1 t := by
      simp only [Answer, hfail, Bool.false_eq_true, false_or, hb, Option.mem_some_iff, exists_eq_left']
    rw [hold]
    simp only [Answer, Option.mem_some_iff, exists_eq_left']
    constructor
    · rintro ⟨t, ht, ha⟩
      cases htail : b.2.tail with
      | nil =>
        rw [htail, List.suffix_nil] at ht
        exact .inl (ht ▸ ha)
      | cons c w =>
        rw [htail] at ht
        rcases List.suffix_cons_iff.1 ht with rfl | ht
        · exact .inl ha
        · exact .inr ⟨t, ht, ha⟩
    · rintro (ha | ⟨t, ht, ha⟩)
      · exact ⟨b.2.tail, List.suffix_refl _, ha⟩
      · exact ⟨t, ht.trans (List.tail_suffix _), ha⟩

theorem retry_none (h : st.retry = none) (hfail : accepts st.rest st.text = false) : ¬st.Answer := by
  have hb : st.back = none := Option.map_eq_none_iff.1 h
  simp [Answer, hfail, hb]

/-- Nothing that an earlier star could still skip is lost at a later one. -/
theorem star_answer {ts : List (Wildcard α)} {w : List α} {back : Option (List (Wildcard α) × List α)}
    (h : Linear ⟨star :: ts, w, back⟩) : Answer ⟨star :: ts, w, back⟩ ↔ Answer ⟨ts, w, some (ts, w)⟩ := by
  have hnew : Answer ⟨ts, w, some (ts, w)⟩ ↔ accepts (star :: ts) w := by
    simp only [Answer, Option.mem_some_iff, exists_eq_left']
    rw [accepts_star]
    constructor
    · rintro (ha | ⟨t, ht, ha⟩)
      · exact ⟨w, List.suffix_refl _, ha⟩
      · exact ⟨t, ht.trans (List.tail_suffix _), ha⟩
    · rintro ⟨t, ht, ha⟩
      cases w with
      | nil => exact .inl (List.suffix_nil.1 ht ▸ ha)
      | cons c w =>
        rcases List.suffix_cons_iff.1 ht with rfl | ht
        · exact .inl ha
        · exact .inr ⟨t, ht, ha⟩
  rw [hnew]
  refine ⟨?_, .inl⟩
  rintro (ha | ⟨b, hb, t, ht, ha⟩)
  · exact ha
  · obtain ⟨mid, hmid, hrest, -, htext⟩ := h b hb
    dsimp only at hrest htext
    rw [hrest] at ha
    obtain ⟨-, ha⟩ := accepts_singles hmid ha
    -- the older star could leave only later positions for this one
    have hsuffix : t.drop mid.length <:+ w := by
      rw [htext, List.suffix_iff_eq_drop.1 (ht.trans (List.tail_suffix b.2)), List.drop_drop]
      exact List.drop_suffix_drop_left _ (Nat.le_add_left _ _)
    exact accepts_longer hsuffix ha

theorem step_spec (h : st.Linear) (htext : st.text ≠ []) (hstep : st.step = some st') : st'.Linear ∧ (st.Answer ↔ st'.Answer) := by
  obtain ⟨rest, text, back⟩ := st
  cases rest with
  | nil =>
    cases text with
    | nil => exact absurd rfl htext
    | cons c w => exact retry_spec hstep rfl
  | cons a ts =>
    cases a with
    | star =>
      obtain rfl := Option.some.inj hstep
      refine ⟨fun b hb => ?_, star_answer h⟩
      obtain rfl := Option.some.inj hb
      exact ⟨[], by simp, rfl, Nat.zero_le _, rfl⟩
    | one p =>
      cases text with
      | nil => exact retry_spec hstep rfl
      | cons c w =>
        cases hp : p c with
        | false => exact retry_spec (by simpa [step, hp] using hstep) (by simp [accepts, hp])
        | true =>
          obtain rfl : (⟨ts, w, back⟩ : Search α) = st' := by simpa [step, hp] using hstep
          refine ⟨fun b hb => ?_, ?_⟩
          · obtain ⟨mid, hmid, hrest, hle, htext⟩ := h b hb
            dsimp only at hrest htext
            have hlt : mid.length < b.2.length := by
              have := congrArg List.length htext
              rw [List.length_cons, List.length_drop] at this
              omega
            refine ⟨mid ++ [one p], ?_, by simp [hrest], by rwa [List.length_append], ?_⟩
            · intro a ha
              rcases List.mem_append.1 ha with ha | ha
              · exact hmid a ha
              · obtain rfl := List.mem_singleton.1 ha
                rfl
            · rw [List.length_append, List.length_singleton, ← List.drop_drop, ← htext]
              rfl
          · simp [Answer, accepts, hp]

theorem step_none (htext : st.text ≠ []) (hstep : st.step = none) : ¬st.Answer := by
  obtain ⟨rest, text, back⟩ := st
  obtain ⟨c, w, rfl⟩ := List.exists_cons_of_ne_nil htext
  cases rest with
  | nil => exact retry_none hstep rfl
  | cons a ts =>
    cases a with
    | star => exact absurd hstep (by simp [step])
    | one p =>
      cases hp : p c with
      | false => exact retry_none (by simpa [step, hp] using hstep) (by simp [accepts, hp])
      | true => exact absurd hstep (by simp [step, hp])

/-- At the end of the text only stars may be left. -/
theorem answer_end (h : st.Linear) (htext : st.text = []) : st.Answer ↔ st.rest.all isStar := by
  obtain ⟨rest, text, back⟩ := st
  obtain rfl : text = [] := htext
  rw [← @accepts_nil α]
  refine ⟨?_, .inl⟩
  rintro (ha | ⟨b, hb, t, ht, ha⟩)
  · exact ha
  · obtain ⟨mid, hmid, hrest, hle, hend⟩ := h b hb
    rw [hrest] at ha
    obtain ⟨hlong, ha⟩ := accepts_singles hmid ha
    have hnil : t.drop mid.length = [] := List.drop_eq_nil_of_le (by
      have hlen := congrArg List.length hend
      rw [List.length_nil, List.length_drop] at hlen
      have := ht.length_le
      rw [List.length_tail] at this
      omega)
    exact hnil ▸ ha

theorem linear_start (ts : List (Wildcard α)) (w : List α) : Linear ⟨ts, w, none⟩ :=
  fun b hb => absurd hb (by simp)

theorem answer_start (ts : List (Wildcard α)) (w : List α) : Answer ⟨ts, w, none⟩ ↔ accepts ts w := by
  simp [Answer]

end Search

end Wildcard

end BlazeKV.Lib
