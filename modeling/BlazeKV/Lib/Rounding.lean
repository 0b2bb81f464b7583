import Mathlib.Data.Nat.Log
import Mathlib.Tactic
import BlazeKV.Lib.Binary64

/-! The rounding to binary64 gives back a value from every quotient near it: seventeen decimal
digits are near enough. -/

namespace BlazeKV.Lib

/-- A quotient that is less than one half away from an integer goes to it. -/
theorem nearest_eq {n D M : ℕ} (hlow : 2 * (M * D) < 2 * n + D) (hhigh : 2 * n < 2 * (M * D) + D) :
    (if D < 2 * (n % D) ∨ (2 * (n % D) = D ∧ n / D % 2 = 1) then n / D + 1 else n / D) = M := by
  rcases le_or_gt (M * D) n with hle | hlt
  · have hmul := Nat.add_one_mul M D
    have hq : n / D = M := Nat.div_eq_of_lt_le hle (by omega)
    have hr : n % D = n - M * D := by rw [Nat.mod_eq_sub_div_mul, hq]
    rw [hr, hq, if_neg]
    omega
  · obtain ⟨m, rfl⟩ : ∃ m, M = m + 1 := Nat.exists_eq_succ_of_ne_zero fun h => by simp [h] at hlt
    have hmul := Nat.add_one_mul m D
    have hq : n / D = m := Nat.div_eq_of_lt_le (by omega) (by omega)
    have hr : n % D = n - m * D := by rw [Nat.mod_eq_sub_div_mul, hq]
    rw [hr, hq, if_pos]
    omega

/-- The nearest integer is at most one half away. -/
theorem nearest_near (n : ℕ) {D : ℕ} (hD : 0 < D) {q : ℕ}
    (hq : (if D < 2 * (n % D) ∨ (2 * (n % D) = D ∧ n / D % 2 = 1) then n / D + 1 else n / D) = q) :
    2 * (q * D) ≤ 2 * n + D ∧ 2 * n ≤ 2 * (q * D) + D := by
  have hdiv := Nat.div_add_mod n D
  have hmod := Nat.mod_lt n hD
  rw [mul_comm] at hdiv
  have hmul := Nat.add_one_mul (n / D) D
  split_ifs at hq with hup <;> subst hq <;> omega

namespace Binary64

variable {n d n' d' M k m : ℕ}

/-- Exponent and significand of a magnitude. -/
theorem units_split (m : ℕ) : ∃ k M, m = k * 2 ^ 52 + M ∧ units m = M * 2 ^ k ∧ M < 2 ^ 53 ∧
    (k = 0 ∨ 2 ^ 52 ≤ M) := by
  by_cases h : m < 2 ^ 52
  · exact ⟨0, m, by omega, by rw [units, if_pos h, pow_zero, mul_one], by omega, .inl rfl⟩
  · refine ⟨m / 2 ^ 52 - 1, 2 ^ 52 + m % 2 ^ 52, by omega, by rw [units, if_neg h], ?_, ?_⟩
    · omega
    · exact .inr (Nat.le_add_right _ _)

/-- The exponent that the rounding picks. -/
theorem ulp_eq (hd : 0 < d) (hlow : k = 0 ∨ 2 ^ 52 * (d * 2 ^ k) ≤ n) (hhigh : n < 2 ^ 53 * (d * 2 ^ k)) :
    Nat.log2 (n / d) - 52 = k := by
  have hlt : n / d < 2 ^ (53 + k) := by
    rw [Nat.div_lt_iff_lt_mul hd, pow_add, mul_assoc, mul_comm (2 ^ k)]
    exact hhigh
  rcases hlow with rfl | hlow
  · by_cases h0 : n / d = 0
    · simp [h0]
    · have := (Nat.log2_lt h0).2 hlt
      omega
  · have hle : 2 ^ (52 + k) ≤ n / d := by
      rw [Nat.le_div_iff_mul_le hd, pow_add, mul_assoc, mul_comm (2 ^ k)]
      exact hlow
    have h0 : n / d ≠ 0 := by
      have := Nat.two_pow_pos (52 + k)
      omega
    have h1 := (Nat.log2_lt h0).2 hlt
    have h2 := (Nat.le_log2 h0).2 hle
    omega

/-- A quotient that differs from a value by less than `2 ^ -54` of it rounds to it. At a power of
two the values below are twice as dense, which the relative bound allows for. -/
theorem roundQuot_near (hlow : 2 ^ 54 * (units m * d) < 2 ^ 54 * n + units m * d)
    (hhigh : 2 ^ 54 * n < 2 ^ 54 * (units m * d) + units m * d) : roundQuot n d = min m infMag := by
  have hd : 0 < d := by
    apply Nat.pos_of_ne_zero
    rintro rfl
    omega
  obtain ⟨k, M, rfl, hu, hM, hk⟩ := units_split m
  rw [hu, mul_assoc, mul_comm (2 ^ k)] at hlow hhigh
  have hP : M * (d * 2 ^ k) ≤ (2 ^ 53 - 1) * (d * 2 ^ k) := Nat.mul_le_mul_right _ (by omega)
  unfold roundQuot
  dsimp only
  by_cases hcase : k = 0 ∨ 2 ^ 52 * (d * 2 ^ k) ≤ n
  · rw [ulp_eq hd hcase (by omega), nearest_eq (M := M) (by omega) (by omega)]
  · obtain ⟨hk0, hn⟩ := not_or.1 hcase
    have hM2 : 2 ^ 52 ≤ M := hk.resolve_left hk0
    have hMeq : M = 2 ^ 52 := by
      by_contra hne
      have : (2 ^ 52 + 1) * (d * 2 ^ k) ≤ M * (d * 2 ^ k) := Nat.mul_le_mul_right _ (by omega)
      omega
    obtain ⟨j, rfl⟩ := Nat.exists_eq_succ_of_ne_zero hk0
    have hE : d * 2 ^ (j + 1) = 2 * (d * 2 ^ j) := by ring
    rw [Nat.succ_eq_add_one, hE, hMeq] at hlow hhigh
    rw [Nat.succ_eq_add_one, hE] at hn
    rw [ulp_eq (k := j) hd (.inr (by omega)) (by omega),
      nearest_eq (M := 2 ^ 53) (by omega) (by omega), hMeq,
      show (j + 1) * 2 ^ 52 + 2 ^ 52 = j * 2 ^ 52 + 2 ^ 53 by omega]

/-- Only the quotient counts. -/
theorem roundQuot_mul {c : ℕ} (hc : 0 < c) : roundQuot (n * c) (d * c) = roundQuot n d := by
  have hcomm : ∀ s, d * c * 2 ^ s = d * 2 ^ s * c := fun s => by ring
  have hup : ∀ s : ℕ,
      (d * 2 ^ s * c < 2 * (n % (d * 2 ^ s) * c) ∨ 2 * (n % (d * 2 ^ s) * c) = d * 2 ^ s * c ∧
        n / (d * 2 ^ s) % 2 = 1) ↔
      (d * 2 ^ s < 2 * (n % (d * 2 ^ s)) ∨ 2 * (n % (d * 2 ^ s)) = d * 2 ^ s ∧
        n / (d * 2 ^ s) % 2 = 1) := by
    intro s
    rw [← mul_assoc 2, Nat.mul_lt_mul_right hc, Nat.mul_left_inj hc.ne']
  simp only [roundQuot, hcomm, Nat.mul_div_mul_right _ _ hc, Nat.mul_mod_mul_right, hup]

theorem units_zero : units 0 = 0 := if_pos (Nat.two_pow_pos 52)

theorem units_two_mul (hm : m < 2 ^ 52) : units (2 * m) = 2 * units m := by
  have hr : units m = m := if_pos hm
  rw [hr]
  unfold units
  split_ifs with h
  · rfl
  · have h1 : 2 * m / 2 ^ 52 = 1 := by omega
    have h2 : 2 * m % 2 ^ 52 = 2 * m - 2 ^ 52 := by omega
    rw [h1, h2]
    omega

theorem units_add (hm : 2 ^ 52 ≤ m) : units (m + 2 ^ 52) = 2 * units m := by
  have hdiv : (m + 2 ^ 52) / 2 ^ 52 - 1 = m / 2 ^ 52 - 1 + 1 := by omega
  have hmod : (m + 2 ^ 52) % 2 ^ 52 = m % 2 ^ 52 := by omega
  simp only [units, hdiv, hmod, if_neg (Nat.not_lt.2 hm), if_neg (show ¬m + 2 ^ 52 < 2 ^ 52 by omega)]
  ring

theorem units_pos (hm : 0 < m) : 0 < units m := by
  unfold units
  split_ifs
  · exact hm
  · exact Nat.mul_pos (by omega) (Nat.two_pow_pos _)

theorem isNaN_make (neg : Bool) (hm : m ≤ infMag) : (make neg m).isNaN = false := by
  rw [isNaN, mag_make neg (lt_of_le_of_lt hm (by decide))]
  exact decide_eq_false (Nat.not_lt.2 hm)

/-- A sum that is no number is the default one. -/
theorem add_eq_nan {x y : Binary64} (h : (x.add y).isNaN = true) : x.add y = nan := by
  unfold add at h ⊢
  dsimp only at h ⊢
  split_ifs at h ⊢ with hnan hx hxy hy h0
  · rfl
  · rfl
  · simp [h] at hnan
  · simp [h] at hnan
  · rw [isNaN_make _ (Nat.zero_le _)] at h
    exact absurd h Bool.false_ne_true
  · rw [isNaN_make _ (roundQuot_le _ _)] at h
    exact absurd h Bool.false_ne_true

end Binary64

end BlazeKV.Lib
