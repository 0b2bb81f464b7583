import BlazeKV.Lib.Rounding
import BlazeKV.Proofs.Decimal

/-! The seventeen digits of the `%.17g` conversion: they are seventeen, and their value differs
from the number by half a unit of the last digit at most. -/

namespace BlazeKV

theorem decimalAux_length (fuel n : ℕ) (acc : Bytes) (h : n < fuel) :
    ∃ L, (decimalAux fuel n acc).length = L + 1 + acc.length ∧ n < 10 ^ (L + 1) ∧ (0 < n → 10 ^ L ≤ n) := by
  induction fuel generalizing n acc with
  | zero => omega
  | succ fuel ih =>
    rw [decimalAux]
    split_ifs with hn
    · exact ⟨0, by simp [Nat.add_comm], by simpa using hn, fun h0 => h0⟩
    · obtain ⟨L, hlen, hlt, hle⟩ := ih (n / 10) (digit (n % 10) :: acc) (by omega)
      refine ⟨L + 1, by simp [hlen]; omega, ?_, fun _ => ?_⟩
      · rw [pow_succ]
        omega
      · have := hle (by omega)
        rw [pow_succ]
        omega

theorem decimal_length (n : ℕ) :
    ∃ L, (decimal n).length = L + 1 ∧ n < 10 ^ (L + 1) ∧ (0 < n → 10 ^ L ≤ n) :=
  decimalAux_length (n + 1) n [] (Nat.lt_succ_self n)

theorem decimal_length_eq {n L : ℕ} (hlow : 10 ^ L ≤ n) (hhigh : n < 10 ^ (L + 1)) :
    (decimal n).length = L + 1 := by
  obtain ⟨K, hlen, hlt, hle⟩ := decimal_length n
  have hK := hle (lt_of_lt_of_le (Nat.pow_pos (by decide)) hlow)
  have h1 : L < K + 1 := (Nat.pow_lt_pow_iff_right (by decide)).1 (lt_of_le_of_lt hlow hlt)
  have h2 : K < L + 1 := (Nat.pow_lt_pow_iff_right (by decide)).1 (lt_of_le_of_lt hK hhigh)
  omega

/-- The exponent of the first digit of `u / den`. -/
def leading (u den : ℕ) : ℤ :=
  if u < den then -((decimal ((den + u - 1) / u - 1)).length : ℤ) else (decimal (u / den)).length - 1

/-- Numerator and denominator of `u / den` in units of the seventeenth digit. -/
theorem leading_spec {u den : ℕ} (hu : 0 < u) (hden : 0 < den) {x : ℤ} (hx : leading u den = x) :
    10 ^ 16 * (den * 10 ^ (x - 16).toNat) ≤ u * 10 ^ (16 - x).toNat ∧
      u * 10 ^ (16 - x).toNat < 10 ^ 17 * (den * 10 ^ (x - 16).toNat) := by
  unfold leading at hx
  split_ifs at hx with hlt
  · obtain ⟨L, hlen, hup, hlow⟩ := decimal_length ((den + u - 1) / u - 1)
    have hq : 2 ≤ (den + u - 1) / u := by
      rw [Nat.le_div_iff_mul_le hu]
      omega
    have hceil : den ≤ (den + u - 1) / u * u := by
      have h1 := Nat.div_add_mod (den + u - 1) u
      have h2 := Nat.mod_lt (den + u - 1) hu
      rw [mul_comm] at h1
      omega
    have hfloor : ((den + u - 1) / u - 1) * u < den := by
      have h1 := Nat.div_mul_le_self (den + u - 1) u
      rw [Nat.sub_one_mul]
      omega
    have h1 : den ≤ 10 ^ (L + 1) * u :=
      le_trans hceil (Nat.mul_le_mul_right u (by omega))
    have h2 : 10 ^ L * u < den :=
      lt_of_le_of_lt (Nat.mul_le_mul_right u (hlow (by omega))) hfloor
    have hx1 : (x - 16).toNat = 0 := by omega
    have hx2 : (16 - x).toNat = L + 17 := by omega
    have hB : u * 10 ^ (L + 17) = 10 ^ 17 * (10 ^ L * u) := by ring
    rw [pow_succ] at h1
    rw [hx1, hx2, hB, pow_zero, mul_one]
    constructor
    · linarith
    · exact Nat.mul_lt_mul_of_pos_left h2 (by decide)
  · obtain ⟨L, hlen, hup, hlow⟩ := decimal_length (u / den)
    have hq : 0 < u / den := Nat.div_pos (Nat.not_lt.1 hlt) hden
    have h1 : 10 ^ L * den ≤ u := (Nat.le_div_iff_mul_le hden).1 (hlow hq)
    have h2 : u < 10 ^ (L + 1) * den := (Nat.div_lt_iff_lt_mul hden).1 hup
    rcases le_total L 16 with hL | hL
    · have hx1 : (x - 16).toNat = 0 := by omega
      obtain ⟨k, hk⟩ := Nat.exists_eq_add_of_le hL
      have hx2 : (16 - x).toNat = k := by omega
      have h10 : 10 ^ k * (10 ^ L * den) = 10 ^ 16 * den := by rw [hk]; ring
      have hpos : 0 < 10 ^ k := Nat.pow_pos (by decide)
      rw [hx1, hx2, pow_zero, mul_one, mul_comm u]
      constructor
      · calc 10 ^ 16 * den = 10 ^ k * (10 ^ L * den) := h10.symm
          _ ≤ 10 ^ k * u := Nat.mul_le_mul_left _ h1
      · calc 10 ^ k * u < 10 ^ k * (10 ^ (L + 1) * den) := Nat.mul_lt_mul_of_pos_left h2 hpos
          _ = 10 * (10 ^ k * (10 ^ L * den)) := by ring
          _ = 10 ^ 17 * den := by rw [h10]; ring
    · obtain ⟨k, rfl⟩ := Nat.exists_eq_add_of_le hL
      have hx1 : (x - 16).toNat = k := by omega
      have hx2 : (16 - x).toNat = 0 := by omega
      rw [hx1, hx2, pow_zero, mul_one]
      constructor
      · calc 10 ^ 16 * (den * 10 ^ k) = 10 ^ (16 + k) * den := by ring
          _ ≤ u := h1
      · calc u < 10 ^ (16 + k + 1) * den := h2
          _ = 10 ^ 17 * (den * 10 ^ k) := by ring

/-- `d * 10 ^ (x - 16)` differs from `u / den` by at most half of the seventeenth digit's unit. -/
def Near (u den d : ℕ) (x : ℤ) : Prop :=
  2 * 10 ^ 16 * (d * (den * 10 ^ (x - 16).toNat)) ≤ (2 * 10 ^ 16 + 1) * (u * 10 ^ (16 - x).toNat) ∧
    (2 * 10 ^ 16) * (u * 10 ^ (16 - x).toNat) ≤
      2 * 10 ^ 16 * (d * (den * 10 ^ (x - 16).toNat)) + u * 10 ^ (16 - x).toNat

/-- A carry into an eighteenth digit moves the point. -/
theorem Near.carry {u den : ℕ} {x : ℤ} (h : Near u den (10 ^ 17) x) : Near u den (10 ^ 16) (x + 1) := by
  unfold Near at h ⊢
  rcases le_or_gt 16 x with hx | hx
  · have h1 : (x + 1 - 16).toNat = (x - 16).toNat + 1 := by omega
    have h2 : (16 - (x + 1)).toNat = (16 - x).toNat := by omega
    have h3 : 10 ^ 16 * (den * 10 ^ ((x - 16).toNat + 1)) = 10 ^ 17 * (den * 10 ^ (x - 16).toNat) := by
      ring
    rw [h1, h2, h3]
    exact h
  · have h1 : (x + 1 - 16).toNat = (x - 16).toNat := by omega
    have h2 : (16 - x).toNat = (16 - (x + 1)).toNat + 1 := by omega
    have h3 : u * 10 ^ ((16 - (x + 1)).toNat + 1) = 10 * (u * 10 ^ (16 - (x + 1)).toNat) := by ring
    rw [h2, h3] at h
    rw [h1]
    omega

theorem significant_eq {u d : ℕ} {x : ℤ} (hx : leading u (2 ^ 1074) = x)
    (hd : roundHalfEven (u * 10 ^ (16 - x).toNat) (2 ^ 1074 * 10 ^ (x - 16).toNat) = d) :
    significant u = if d = 10 ^ 17 then (10 ^ 16, x + 1) else (d, x) := by
  subst hx hd
  rfl

/-- The digits before a carry, at the exponent of the first one. -/
theorem digits_spec {u den d : ℕ} {x : ℤ} (hu : 0 < u) (hden : 0 < den) (hx : leading u den = x)
    (hd : roundHalfEven (u * 10 ^ (16 - x).toNat) (den * 10 ^ (x - 16).toNat) = d) :
    10 ^ 16 ≤ d ∧ d ≤ 10 ^ 17 ∧ Near u den d x := by
  obtain ⟨hlow, hhigh⟩ := leading_spec hu hden hx
  have hD : 0 < den * 10 ^ (x - 16).toNat := Nat.mul_pos hden (Nat.pow_pos (by decide))
  obtain ⟨hup, hdown⟩ := Lib.nearest_near _ hD hd
  unfold Near
  generalize u * 10 ^ (16 - x).toNat = N at *
  generalize den * 10 ^ (x - 16).toNat = D at *
  refine ⟨?_, ?_, by omega, by omega⟩
  · by_contra hlt
    have : d * D ≤ (10 ^ 16 - 1) * D := Nat.mul_le_mul_right D (by omega)
    omega
  · by_contra hgt
    have : (10 ^ 17 + 1) * D ≤ d * D := Nat.mul_le_mul_right D (by omega)
    omega

/-- Seventeen digits, and near. -/
theorem significant_spec {u : ℕ} (hu : 0 < u) :
    10 ^ 16 ≤ (significant u).1 ∧ (significant u).1 < 10 ^ 17 ∧
      Near u (2 ^ 1074) (significant u).1 (significant u).2 := by
  have hden := Nat.two_pow_pos 1074
  generalize hx : leading u (2 ^ 1074) = x
  generalize hd : roundHalfEven (u * 10 ^ (16 - x).toNat) (2 ^ 1074 * 10 ^ (x - 16).toNat) = d
  obtain ⟨hlow, hhigh, hnear⟩ := digits_spec hu hden hx hd
  rw [significant_eq hx hd]
  split_ifs with hcarry
  · rw [hcarry] at hnear
    exact ⟨le_rfl, Nat.pow_lt_pow_right (by decide) (by decide), hnear.carry⟩
  · exact ⟨hlow, lt_of_le_of_ne hhigh hcarry, hnear⟩

end BlazeKV
