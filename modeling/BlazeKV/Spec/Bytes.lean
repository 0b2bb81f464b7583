import Mathlib.Order.Lex
import Mathlib.Data.List.Lex
import Mathlib.Tactic

/-! `common.hpp`: byte strings. `std::string` compares as unsigned bytes, in
lexicographic order. -/

namespace BlazeKV

instance uint8Order : LinearOrder UInt8 where
  le_refl := UInt8.le_refl
  le_trans _ _ _ := UInt8.le_trans
  le_antisymm _ _ := UInt8.le_antisymm
  le_total := UInt8.le_total
  lt_iff_le_not_ge _ _ := Std.LawfulOrderLT.lt_iff _ _
  toDecidableLE := inferInstance

abbrev Bytes := List UInt8

instance bytesLawfulBEq : LawfulBEq Bytes := inferInstance

/-- The bytes of a source literal. -/
def ascii (s : String) : Bytes := s.toList.map fun c => UInt8.ofNat c.toNat

/-- `std::tolower` in the C locale. -/
def toLower (c : UInt8) : UInt8 := if 65 ≤ c.toNat ∧ c.toNat ≤ 90 then c + 32 else c

def lowercase (s : Bytes) : Bytes := s.map toLower

/-- Unsigned arithmetic of the source's fixed widths. -/
def u32 (n : ℕ) : ℕ := n % 2 ^ 32
def u64 (n : ℕ) : ℕ := n % 2 ^ 64

/-- `a - b` on `uint32_t`. -/
def sub32 (a b : ℕ) : ℕ := u32 (a + (2 ^ 32 - u32 b))

/-- `a - b` on `uint64_t`. -/
def sub64 (a b : ℕ) : ℕ := u64 (a + (2 ^ 64 - u64 b))

theorem u32_of_lt {n : ℕ} (h : n < 2 ^ 32) : u32 n = n := Nat.mod_eq_of_lt h

theorem u64_of_lt {n : ℕ} (h : n < 2 ^ 64) : u64 n = n := Nat.mod_eq_of_lt h

theorem u32_add_u32 (a b : ℕ) : u32 (a + u32 b) = u32 (a + b) := Nat.add_mod_mod _ _ _

theorem u32_u32_add (a b : ℕ) : u32 (u32 a + b) = u32 (a + b) := Nat.mod_add_mod _ _ _

theorem sub32_u32 {a b : ℕ} (h : b ≤ a) : sub32 (u32 a) (u32 b) = u32 (a - b) := by
  simp only [sub32, u32]
  omega

theorem sub64_of_le {a b : ℕ} (h : b ≤ a) (ha : a < 2 ^ 64) : sub64 a b = a - b := by
  simp only [sub64, u64]
  omega

example : lowercase (ascii "PsEtEx") = ascii "psetex" := by decide

end BlazeKV
