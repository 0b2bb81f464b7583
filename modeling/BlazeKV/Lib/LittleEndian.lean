import Mathlib.Data.Nat.Bitwise
import Mathlib.Tactic

/-! Little-endian words: the number that bytes spell, and the bytes of a number. -/

namespace BlazeKV.Lib

/-- The first `n` bytes of `f` as a number. -/
def word (f : ℕ → UInt8) : ℕ → ℕ
  | 0 => 0
  | n + 1 => word f n + (f n).toNat * 256 ^ n

/-- Byte `i` of `v`. -/
def byteOf (v i : ℕ) : UInt8 := UInt8.ofNat (v / 256 ^ i)

variable {f g : ℕ → UInt8}

theorem word_congr {n : ℕ} (h : ∀ i < n, f i = g i) : word f n = word g n := by
  induction n with
  | zero => rfl
  | succ n ih => rw [word, word, ih fun i hi => h i (by omega), h n (Nat.lt_succ_self n)]

theorem word_lt (f : ℕ → UInt8) (n : ℕ) : word f n < 256 ^ n := by
  induction n with
  | zero => exact Nat.zero_lt_one
  | succ n ih =>
    have hb : (f n).toNat + 1 ≤ 256 := (f n).toNat_lt
    calc word f n + (f n).toNat * 256 ^ n
        < 256 ^ n + (f n).toNat * 256 ^ n := Nat.add_lt_add_right ih _
      _ = ((f n).toNat + 1) * 256 ^ n := by ring
      _ ≤ 256 * 256 ^ n := Nat.mul_le_mul_right _ hb
      _ = 256 ^ (n + 1) := (pow_succ' 256 n).symm

/-- The bytes of a number spell it. -/
theorem word_byteOf (v n : ℕ) : word (byteOf v) n = v % 256 ^ n := by
  induction n with
  | zero => rw [word, pow_zero, Nat.mod_one]
  | succ n ih =>
    rw [word, ih, byteOf, UInt8.toNat_ofNat', pow_succ 256 n, Nat.mod_mul, Nat.mul_comm (256 ^ n)]

/-- Bit by bit: the word shows the bits of its bytes in order. -/
theorem testBit_word (f : ℕ → UInt8) (n i : ℕ) :
    (word f n).testBit i = (decide (i < 8 * n) && (f (i / 8)).toNat.testBit (i % 8)) := by
  induction n with
  | zero => simp [word]
  | succ n ih =>
    have h256 : (256 : ℕ) ^ n = 2 ^ (8 * n) := by
      rw [pow_mul]
      rfl
    have hlt : word f n < 2 ^ (8 * n) := h256 ▸ word_lt f n
    rw [word, h256, Nat.add_comm, Nat.mul_comm, Nat.testBit_two_pow_mul_add _ hlt, ih]
    by_cases hi : i < 8 * n
    · simp [hi, show i < 8 * (n + 1) by omega]
    rw [if_neg hi]
    by_cases hi' : i < 8 * (n + 1)
    · rw [show i / 8 = n by omega, show i % 8 = i - 8 * n by omega]
      simp [hi']
    · have hbyte : (f n).toNat < 2 ^ (i - 8 * n) :=
        (f n).toNat_lt.trans_le (Nat.pow_le_pow_right (by decide) (show 8 ≤ i - 8 * n by omega))
      simp [hi', Nat.testBit_lt_two_pow hbyte]

end BlazeKV.Lib
