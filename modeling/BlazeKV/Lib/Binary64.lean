import Mathlib.Data.Nat.Log
import Mathlib.Tactic

/-! The IEEE 754 binary64 format on its bit pattern: comparison by sign and
magnitude, and addition rounded to nearest even. A finite value is an integer
number of units of `2 ^ -1074`, so that sums are exact before the rounding. -/

namespace BlazeKV.Lib

structure Binary64 where
  bits : UInt64
  deriving DecidableEq, Inhabited

namespace Binary64

def negative (x : Binary64) : Bool := 2 ^ 63 ≤ x.bits.toNat

/-- Exponent and fraction fields together; monotone in the absolute value. -/
def mag (x : Binary64) : ℕ := x.bits.toNat % 2 ^ 63

def infMag : ℕ := 0x7FF0000000000000

def isNaN (x : Binary64) : Bool := infMag < x.mag
def isInf (x : Binary64) : Bool := x.mag = infMag

/-- Signed magnitude: the two zeros have the same key. -/
def key (x : Binary64) : ℤ := if x.negative then -(x.mag : ℤ) else x.mag

def lt (x y : Binary64) : Bool := !x.isNaN && !y.isNaN && decide (x.key < y.key)
def le (x y : Binary64) : Bool := !x.isNaN && !y.isNaN && decide (x.key ≤ y.key)
def eq (x y : Binary64) : Bool := !x.isNaN && !y.isNaN && decide (x.key = y.key)

def make (neg : Bool) (m : ℕ) : Binary64 := ⟨UInt64.ofNat ((if neg then 2 ^ 63 else 0) + m)⟩

def zero : Binary64 := make false 0
def inf : Binary64 := make false infMag
def negInf : Binary64 := make true infMag
def nan : Binary64 := make false 0x7FF8000000000000

/-- The value of a finite magnitude in units of `2 ^ -1074`. -/
def units (m : ℕ) : ℕ := if m < 2 ^ 52 then m else (2 ^ 52 + m % 2 ^ 52) * 2 ^ (m / 2 ^ 52 - 1)

def signedUnits (x : Binary64) : ℤ := if x.negative then -(units x.mag : ℤ) else units x.mag

/-- The magnitude nearest to `n / d` units, ties to even; infinity past the range. -/
def roundQuot (n d : ℕ) : ℕ :=
  let s := Nat.log2 (n / d) - 52
  let q := n / (d * 2 ^ s)
  let r := n % (d * 2 ^ s)
  let up := d * 2 ^ s < 2 * r ∨ (2 * r = d * 2 ^ s ∧ q % 2 = 1)
  min (s * 2 ^ 52 + (if up then q + 1 else q)) infMag

/-- The default NaN stands for every NaN result. -/
def add (x y : Binary64) : Binary64 :=
  if x.isNaN || y.isNaN then nan
  else if x.isInf then (if y.isInf && x.negative != y.negative then nan else x)
  else if y.isInf then y
  else
    let s := x.signedUnits + y.signedUnits
    if s = 0 then make (x.negative && y.negative) 0
    else make (decide (s < 0)) (roundQuot s.natAbs 1)

theorem mag_make (neg : Bool) {m : ℕ} (h : m < 2 ^ 63) : (make neg m).mag = m := by
  have : (make neg m).bits.toNat = (if neg then 2 ^ 63 else 0) + m := by
    rw [make, UInt64.toNat_ofNat']
    apply Nat.mod_eq_of_lt
    split_ifs <;> omega
  rw [mag, this]
  split_ifs <;> omega

theorem roundQuot_le (n d : ℕ) : roundQuot n d ≤ infMag := Nat.min_le_right _ _

/-- A sum is NaN exactly for a NaN operand or for opposite infinities. -/
theorem isNaN_add (x y : Binary64) : (x.add y).isNaN = true ↔
    x.isNaN = true ∨ y.isNaN = true ∨
      (x.isInf = true ∧ y.isInf = true ∧ x.negative ≠ y.negative) := by
  have hnan : nan.isNaN = true := by decide
  have hfin : ∀ neg m, m ≤ infMag → (make neg m).isNaN = false := by
    intro neg m hm
    rw [isNaN, mag_make neg (lt_of_le_of_lt hm (by decide))]
    simpa using hm
  by_cases hx : x.isNaN = true
  · simp [add, hx, hnan]
  by_cases hy : y.isNaN = true
  · simp [add, hy, hnan]
  simp only [add, hx, hy, Bool.or_self, Bool.false_eq_true, if_false, false_or]
  by_cases hxi : x.isInf = true
  · by_cases hyi : y.isInf = true
    · by_cases hs : x.negative = y.negative
      · simp [hxi, hyi, hs, hx]
      · simp [hxi, hyi, hs, hnan]
    · simp [hxi, hyi, hx]
  by_cases hyi : y.isInf = true
  · simp [hxi, hyi, hy]
  simp only [hxi, hyi, Bool.false_eq_true, if_false, false_and, iff_false, Bool.not_eq_true]
  split_ifs
  · exact hfin _ _ (Nat.zero_le _)
  · exact hfin _ _ (roundQuot_le _ _)

/-! Order facts of numbers, through `key`. -/

theorem lt_iff {x y : Binary64} (hx : x.isNaN = false) (hy : y.isNaN = false) :
    x.lt y = true ↔ x.key < y.key := by simp [lt, hx, hy]

theorem le_iff {x y : Binary64} (hx : x.isNaN = false) (hy : y.isNaN = false) :
    x.le y = true ↔ x.key ≤ y.key := by simp [le, hx, hy]

theorem eq_iff {x y : Binary64} (hx : x.isNaN = false) (hy : y.isNaN = false) :
    x.eq y = true ↔ x.key = y.key := by simp [eq, hx, hy]

@[simp] theorem isNaN_zero : zero.isNaN = false := by decide

/-- `0.1 + 0.2`, and the carry into the infinite magnitude. -/
example : (add ⟨0x3FB999999999999A⟩ ⟨0x3FC999999999999A⟩).bits = 0x3FD3333333333334 ∧
    (add ⟨0x7FEFFFFFFFFFFFFF⟩ ⟨0x7FEFFFFFFFFFFFFF⟩) = inf ∧ add inf negInf = nan := by decide +kernel

end Binary64

end BlazeKV.Lib
