import Mathlib.Data.Nat.Bitwise
import Mathlib.Data.List.Basic
import Mathlib.Tactic

/-! Walking the set bits of a mask, lowest first: the loop
`while (m) { use(ctz(m)); m &= m - 1; }`. -/

namespace BlazeKV.Lib

/-- Index of the lowest set bit below `width`, or `width` when there is none. -/
def lowBit (width m : ℕ) : ℕ := ((List.range width).find? m.testBit).getD width

/-- The bits visited by the loop, at most `fuel` of them. -/
def setBits (width : ℕ) : ℕ → ℕ → List ℕ
  | 0, _ => []
  | fuel + 1, m => if m = 0 then [] else lowBit width m :: setBits width fuel (m &&& (m - 1))

/-- Clearing the lowest set bit leaves every other bit. -/
theorem testBit_and_pred (m i c : ℕ) (hc : m.testBit c = true)
    (hlow : ∀ j < c, m.testBit j = false) :
    (m &&& (m - 1)).testBit i = (m.testBit i && decide (i ≠ c)) := by
  rw [Nat.testBit_and]
  induction c generalizing m i with
  | zero =>
    have h1 : m % 2 = 1 := by simpa [Nat.testBit_zero] using hc
    cases i with
    | zero =>
      have : (m - 1) % 2 = 0 := by omega
      simp [Nat.testBit_zero, this]
    | succ i =>
      have : (m - 1) / 2 = m / 2 := by omega
      rw [Nat.testBit_succ, Nat.testBit_succ, this]
      simp
  | succ c ih =>
    have h0 : m % 2 = 0 := by simpa [Nat.testBit_zero] using hlow 0 (by omega)
    have hpos : m ≠ 0 := by rintro rfl; simp at hc
    cases i with
    | zero => simp [Nat.testBit_zero, h0]
    | succ i =>
      have hpred : (m - 1) / 2 = m / 2 - 1 := by omega
      have := ih (m / 2) i (by rwa [← Nat.testBit_succ])
        (fun j hj => by rw [← Nat.testBit_succ]; exact hlow (j + 1) (by omega))
      rw [Nat.testBit_succ, Nat.testBit_succ, hpred, this]
      simp

theorem lowBit_spec {width m : ℕ} (hm : m ≠ 0) (hw : m < 2 ^ width) :
    m.testBit (lowBit width m) = true ∧ lowBit width m < width ∧
      ∀ j < lowBit width m, m.testBit j = false := by
  obtain ⟨i, hi⟩ := Nat.exists_testBit_of_ne_zero hm
  have hiw : i < width := by
    by_contra h
    have hlt := lt_of_lt_of_le hw (Nat.pow_le_pow_right (by omega) (not_lt.1 h))
    rw [Nat.testBit_lt_two_pow hlt] at hi
    cases hi
  cases hf : (List.range width).find? m.testBit with
  | none => exact absurd hi (List.find?_eq_none.1 hf i (List.mem_range.2 hiw))
  | some c =>
    have hc := List.find?_range_eq_some.1 hf
    simp only [lowBit, hf, Option.getD_some]
    exact ⟨hc.1, by simpa using hc.2.1, fun j hj => by simpa using hc.2.2 j hj⟩

/-- The walk visits exactly the set bits. The fuel has to cover the bits from
the lowest one up, which shrink by one at every round. -/
theorem mem_setBits {width fuel m : ℕ} (hw : m < 2 ^ width) (hf : fuel ≤ width)
    (hlow : ∀ i, m.testBit i = true → width - fuel ≤ i) (l : ℕ) :
    l ∈ setBits width fuel m ↔ m.testBit l = true := by
  induction fuel generalizing m with
  | zero =>
    simp only [setBits, List.not_mem_nil, false_iff, Bool.not_eq_true]
    by_contra h
    have hl : m.testBit l = true := by simpa using h
    have := hlow l hl
    rw [Nat.testBit_lt_two_pow (lt_of_lt_of_le hw (Nat.pow_le_pow_right (by omega) (by omega)))] at hl
    cases hl
  | succ fuel ih =>
    by_cases hm : m = 0
    · simp [setBits, hm]
    obtain ⟨hbit, hlt, hbelow⟩ := lowBit_spec hm hw
    have hclear := fun i => testBit_and_pred m i _ hbit hbelow
    have hstep := ih (m := m &&& (m - 1)) (lt_of_le_of_lt Nat.and_le_left hw) (by omega) (by
      intro i hi
      rw [hclear i, Bool.and_eq_true, decide_eq_true_eq] at hi
      have hge : lowBit width m ≤ i := by
        by_contra h
        rw [hbelow i (not_le.1 h)] at hi
        cases hi.1
      have := hlow _ hbit
      omega)
    simp only [setBits, hm, if_false, List.mem_cons, hstep, hclear, Bool.and_eq_true,
      decide_eq_true_eq]
    constructor
    · rintro (rfl | h)
      · exact hbit
      · exact h.1
    · intro h
      by_cases hl : l = lowBit width m
      · exact Or.inl hl
      · exact Or.inr ⟨h, hl⟩

/-- The mask with bit `i < n` set exactly when `p i`, built lane by lane. -/
def maskOf (p : ℕ → Bool) (n : ℕ) : ℕ :=
  (List.range n).foldl (fun m i => if p i then m ||| (1 <<< i) else m) 0

theorem maskOf_succ (p : ℕ → Bool) (n : ℕ) :
    maskOf p (n + 1) = if p n then maskOf p n ||| (1 <<< n) else maskOf p n := by
  simp [maskOf, List.range_succ, List.foldl_append]

theorem testBit_maskOf (p : ℕ → Bool) (n i : ℕ) :
    (maskOf p n).testBit i = (decide (i < n) && p i) := by
  induction n with
  | zero => simp [maskOf]
  | succ n ih =>
    rw [maskOf_succ]
    by_cases hi : i = n
    · subst hi
      by_cases hp : p i <;> simp [hp, ih]
    · have hlt : (i < n + 1) = (i < n) := by simp only [eq_iff_iff]; omega
      by_cases hp : p n
      · simp [hp, ih, Nat.one_shiftLeft, Nat.testBit_two_pow_of_ne (Ne.symm hi), hlt]
      · simp [hp, ih, hlt]

theorem maskOf_lt (p : ℕ → Bool) (n : ℕ) : maskOf p n < 2 ^ n := by
  apply Nat.lt_pow_two_of_testBit
  intro i hi
  rw [testBit_maskOf]
  simp only [show ¬ i < n by omega, decide_false, Bool.false_and]

theorem mem_setBits_maskOf (p : ℕ → Bool) {n : ℕ} (l : ℕ) :
    l ∈ setBits n n (maskOf p n) ↔ l < n ∧ p l = true := by
  rw [mem_setBits (maskOf_lt p n) le_rfl (fun i _ => by omega), testBit_maskOf,
    Bool.and_eq_true, decide_eq_true_eq]

theorem maskOf_eq_zero_iff (p : ℕ → Bool) (n : ℕ) : maskOf p n = 0 ↔ ∀ i < n, p i = false := by
  constructor
  · intro h i hi
    have := testBit_maskOf p n i
    rw [h] at this
    simpa [hi] using this.symm
  · intro h
    apply Nat.eq_of_testBit_eq
    intro i
    rw [testBit_maskOf, Nat.zero_testBit]
    by_cases hi : i < n <;> simp [hi]
    exact h i hi

/-! Masks with a field of `2 ^ s` equal bits for each lane. -/

section Lanes

variable {p : ℕ → Bool} {s n : ℕ}

theorem shiftRight_lt {i : ℕ} (h : i < n * 2 ^ s) : i >>> s < n := by
  rw [Nat.shiftRight_eq_div_pow]
  exact (Nat.div_lt_iff_lt_mul (by positivity)).2 h

theorem mul_pow_shiftRight (l : ℕ) : (l * 2 ^ s) >>> s = l := by
  rw [Nat.shiftRight_eq_div_pow, Nat.mul_div_cancel _ (by positivity)]

/-- The walk visits the lanes of a mask, each of them as often as it has bits. -/
theorem mem_lanes_maskOf (l : ℕ) :
    l ∈ (setBits (n * 2 ^ s) (n * 2 ^ s) (maskOf (fun i => p (i >>> s)) (n * 2 ^ s))).map (· >>> s) ↔
      l < n ∧ p l = true := by
  simp only [List.mem_map, mem_setBits_maskOf]
  constructor
  · rintro ⟨i, ⟨hi, hp⟩, rfl⟩
    exact ⟨shiftRight_lt hi, hp⟩
  · rintro ⟨hl, hp⟩
    have hlt : l * 2 ^ s < n * 2 ^ s := Nat.mul_lt_mul_of_pos_right hl (by positivity)
    exact ⟨l * 2 ^ s, ⟨hlt, by rwa [mul_pow_shiftRight]⟩, mul_pow_shiftRight l⟩

theorem lanes_eq_zero_iff : maskOf (fun i => p (i >>> s)) (n * 2 ^ s) = 0 ↔ ∀ l < n, p l = false := by
  rw [maskOf_eq_zero_iff]
  constructor
  · intro h l hl
    have := h (l * 2 ^ s) (Nat.mul_lt_mul_of_pos_right hl (by positivity))
    rwa [mul_pow_shiftRight] at this
  · exact fun h i hi => h _ (shiftRight_lt hi)

/-- The lowest bit is in the first lane. -/
theorem lowBit_lane (h : maskOf (fun i => p (i >>> s)) (n * 2 ^ s) ≠ 0) :
    lowBit (n * 2 ^ s) (maskOf (fun i => p (i >>> s)) (n * 2 ^ s)) >>> s < n ∧
    p (lowBit (n * 2 ^ s) (maskOf (fun i => p (i >>> s)) (n * 2 ^ s)) >>> s) = true ∧
    ∀ l < lowBit (n * 2 ^ s) (maskOf (fun i => p (i >>> s)) (n * 2 ^ s)) >>> s, p l = false := by
  obtain ⟨hbit, hlt, hlow⟩ := lowBit_spec h (maskOf_lt _ _)
  rw [testBit_maskOf, Bool.and_eq_true] at hbit
  refine ⟨shiftRight_lt hlt, hbit.2, fun l hl => ?_⟩
  have hle : l * 2 ^ s < lowBit (n * 2 ^ s) (maskOf (fun i => p (i >>> s)) (n * 2 ^ s)) := by
    rw [Nat.shiftRight_eq_div_pow] at hl
    exact (Nat.mul_lt_mul_of_pos_right hl (by positivity)).trans_le (Nat.div_mul_le_self _ _)
  have := hlow _ hle
  rw [testBit_maskOf, mul_pow_shiftRight] at this
  simpa [hle.trans hlt] using this

end Lanes

/-! The walk goes upwards, so that a search over the lanes finds the lowest of them. -/

section Order

variable {width m m' : ℕ}

theorem lowBit_le (width m : ℕ) : lowBit width m ≤ width := by
  unfold lowBit
  cases hf : (List.range width).find? m.testBit with
  | none => exact le_rfl
  | some c => exact (List.mem_range.1 (List.mem_of_find?_eq_some hf)).le

theorem lowBit_le_bit {i : ℕ} (hi : m.testBit i = true) (hw : i < width) : lowBit width m ≤ i := by
  unfold lowBit
  cases hf : (List.range width).find? m.testBit with
  | none => exact absurd hi (List.find?_eq_none.1 hf i (List.mem_range.2 hw))
  | some c =>
    by_contra hlt
    have := (List.find?_range_eq_some.1 hf).2.2 i (not_le.1 hlt)
    simp [hi] at this

/-- Fewer bits, a higher lowest one. -/
theorem lowBit_mono (h : ∀ i, m'.testBit i = true → m.testBit i = true) : lowBit width m ≤ lowBit width m' := by
  cases hf : (List.range width).find? m'.testBit with
  | none =>
    have hc : lowBit width m' = width := by rw [lowBit, hf, Option.getD_none]
    rw [hc]
    exact lowBit_le width m
  | some c =>
    have hc : lowBit width m' = c := by rw [lowBit, hf, Option.getD_some]
    rw [hc]
    exact lowBit_le_bit (h c (List.find?_some hf)) (List.mem_range.1 (List.mem_of_find?_eq_some hf))

/-- Clearing a bit leaves none that was not there. -/
theorem lowBit_le_clear (width m : ℕ) : lowBit width m ≤ lowBit width (m &&& (m - 1)) :=
  lowBit_mono fun i hi => by
    rw [Nat.testBit_and, Bool.and_eq_true] at hi
    exact hi.1

theorem lowBit_le_setBits {fuel l : ℕ} (h : l ∈ setBits width fuel m) : lowBit width m ≤ l := by
  induction fuel generalizing m with
  | zero => cases h
  | succ fuel ih =>
    unfold setBits at h
    split_ifs at h with hm
    · cases h
    rcases List.mem_cons.1 h with rfl | h
    · exact le_rfl
    · exact (lowBit_le_clear width m).trans (ih h)

theorem setBits_sorted (width fuel m : ℕ) : (setBits width fuel m).Pairwise (· ≤ ·) := by
  induction fuel generalizing m with
  | zero => exact .nil
  | succ fuel ih =>
    unfold setBits
    split_ifs with hm
    · exact .nil
    exact List.pairwise_cons.2 ⟨fun l hl => (lowBit_le_clear width m).trans (lowBit_le_setBits hl), ih _⟩

theorem lanes_sorted (width s m : ℕ) : ((setBits width width m).map (· >>> s)).Pairwise (· ≤ ·) :=
  List.pairwise_map.2 ((setBits_sorted width width m).imp fun h => by
    simp only [Nat.shiftRight_eq_div_pow]
    exact Nat.div_le_div_right h)

/-- In a sorted list the first hit is the least one. -/
theorem find?_eq_some_iff_least {l : List ℕ} (h : l.Pairwise (· ≤ ·)) {p : ℕ → Bool} {a : ℕ} :
    l.find? p = some a ↔ a ∈ l ∧ p a = true ∧ ∀ b ∈ l, p b = true → a ≤ b := by
  induction l with
  | nil => simp
  | cons x l ih =>
    obtain ⟨hx, hl⟩ := List.pairwise_cons.1 h
    rw [List.find?_cons]
    cases hp : p x with
    | true =>
      simp only [Option.some.injEq]
      constructor
      · rintro rfl
        exact ⟨List.mem_cons_self, hp, fun b hb _ => (List.mem_cons.1 hb).elim (·.symm.le) (hx b)⟩
      · rintro ⟨ha, -, hle⟩
        rcases List.mem_cons.1 ha with rfl | ha
        · rfl
        · exact le_antisymm (hx a ha) (hle x List.mem_cons_self hp)
    | false =>
      simp only [ih hl, List.mem_cons]
      constructor
      · rintro ⟨ha, hpa, hle⟩
        refine ⟨.inr ha, hpa, ?_⟩
        rintro b (rfl | hb) hpb
        · rw [hp] at hpb
          cases hpb
        · exact hle b hb hpb
      · rintro ⟨rfl | ha, hpa, hle⟩
        · rw [hp] at hpa
          cases hpa
        · exact ⟨ha, hpa, fun b hb => hle b (.inr hb)⟩

/-- Sorted lists of the same elements, whatever their repetitions, find the same one. -/
theorem find?_congr_mem {l l' : List ℕ} (h : l.Pairwise (· ≤ ·)) (h' : l'.Pairwise (· ≤ ·))
    (hmem : ∀ a, a ∈ l ↔ a ∈ l') (p : ℕ → Bool) : l.find? p = l'.find? p :=
  Option.ext fun a => by
    simp only [find?_eq_some_iff_least h, find?_eq_some_iff_least h', hmem]

end Order

end BlazeKV.Lib
