import BlazeKV.Lib.LittleEndian
import BlazeKV.Spec.SwissTable

/-! The group primitives of `swiss_table.hpp` with SSE2 and with NEON. Each
intrinsic is a function of its documented meaning on byte lanes, lane 0 first. -/

namespace BlazeKV

open Lib

/-- The sixteen byte lanes of a 128-bit register, or the eight of a 64-bit one. -/
abbrev Register := ℕ → UInt8

/-- What a compare leaves: all bits of a lane, or none. -/
def compared (p : ℕ → Bool) : Register := fun l => if p l then 0xFF else 0

/-! SSE2. A group load leaves the bytes of the group in the lanes. -/

namespace Sse2

def set1 (b : UInt8) : Register := fun _ => b
def cmpeq (a b : Register) : Register := compared fun l => a l = b l

/-- `_mm_movemask_epi8`: the high bits of the lanes. -/
def movemask (a : Register) : ℕ := maskOf (fun l => (a l).toNat.testBit 7) 16

def matchBits (g : Register) (needle : UInt8) : ℕ := movemask (cmpeq (set1 needle) g)
def matchEmpty (g : Register) : Bool := movemask (cmpeq (set1 kEmpty) g) ≠ 0
def matchEmptyOrDeleted (g : Register) : ℕ := movemask g

theorem movemask_compared (p : ℕ → Bool) : movemask (compared p) = maskOf p 16 := by
  unfold movemask compared
  congr 1
  funext l
  cases p l <;> rfl

end Sse2

/-! NEON has no movemask: `neon_mask` keeps four bits of each lane. -/

namespace Neon

def dup (b : UInt8) : Register := fun _ => b
def ceq (a b : Register) : Register := compared fun l => a l = b l
def cge (a b : Register) : Register := compared fun l => b l ≤ a l

/-- `vreinterpretq_u16_u8`: lanes in pairs, the lower one below. -/
def asU16 (a : Register) : ℕ → ℕ := fun j => (a (2 * j)).toNat + 256 * (a (2 * j + 1)).toNat

/-- `vshrn_n_u16`: a shift, and the low byte of what is left. -/
def shrn (a : ℕ → ℕ) (n : ℕ) : Register := fun j => UInt8.ofNat (a j >>> n)

/-- `vreinterpret_u64_u8` and its one lane. -/
def asU64 (a : Register) : ℕ := word a 8

def neonMask (cmp : Register) : ℕ := asU64 (shrn (asU16 cmp) 4)

def matchBits (g : Register) (needle : UInt8) : ℕ := neonMask (ceq g (dup needle))
def matchEmpty (g : Register) : Bool := neonMask (ceq g (dup kEmpty)) ≠ 0
def matchEmptyOrDeleted (g : Register) : ℕ := neonMask (cge g (dup kEmpty))

/-- A byte of the mask: the low half is one lane, the high half the next. -/
theorem shrn_compared (p : ℕ → Bool) (j : ℕ) : shrn (asU16 (compared p)) 4 j =
    (if p (2 * j) then 0x0F else 0) + if p (2 * j + 1) then 0xF0 else 0 := by
  unfold shrn asU16 compared
  cases p (2 * j) <;> cases p (2 * j + 1) <;> rfl

theorem neonMask_compared (p : ℕ → Bool) :
    neonMask (compared p) = maskOf (fun i => p (i >>> 2)) (16 * 2 ^ 2) := by
  refine Nat.eq_of_testBit_eq fun i => ?_
  rw [neonMask, asU64, testBit_word, testBit_maskOf, shrn_compared, Nat.shiftRight_eq_div_pow]
  -- The lane of a bit is the one of its half byte.
  rcases Nat.lt_or_ge (i % 8) 4 with hlow | hhigh
  · have hlane : i / 2 ^ 2 = 2 * (i / 8) := by omega
    have hbit : ∀ r < 4, ∀ b c : Bool, ((if b then 0x0F else 0) +
      if c then 0xF0 else 0 : UInt8).toNat.testBit r = b := by
      decide
    rw [hlane, hbit _ hlow]
    rfl
  · have hlane : i / 2 ^ 2 = 2 * (i / 8) + 1 := by omega
    have hbit : ∀ r < 8, 4 ≤ r → ∀ b c : Bool,
        ((if b then 0x0F else 0) + if c then 0xF0 else 0 : UInt8).toNat.testBit r = c := by
      decide
    rw [hlane, hbit _ (Nat.mod_lt i (by decide)) hhigh]
    rfl

end Neon

/-- The high bit of a control byte. -/
theorem testBit_seven (c : UInt8) : c.toNat.testBit 7 = !isFull c := by
  have hlt : c.toNat < 256 := c.toNat_lt
  rw [Nat.testBit_eq_decide_div_mod_eq, isFull, ← decide_not, decide_eq_decide]
  omega

theorem kEmpty_le_iff (c : UInt8) : kEmpty ≤ c ↔ isFull c = false := by
  rw [UInt8.le_iff_toNat_le, isFull, decide_eq_false_iff_not, not_lt]
  rfl

namespace GroupOps

/-- The build with SSE2. -/
def sse2 : GroupOps where
  width := 16
  shift := 0
  matchBits := Sse2.matchBits
  matchEmpty := Sse2.matchEmpty
  matchEmptyOrDeleted := Sse2.matchEmptyOrDeleted
  mem_lanes g needle l := by
    rw [Sse2.matchBits, Sse2.cmpeq, Sse2.movemask_compared]
    refine (mem_lanes_maskOf (p := fun l => Sse2.set1 needle l = g l) (s := 0) (n := 16) l).trans ?_
    rw [decide_eq_true_eq, Sse2.set1, eq_comm (a := needle)]
    rfl
  matchEmpty_iff g := by
    rw [Sse2.matchEmpty, Sse2.cmpeq, Sse2.movemask_compared, decide_eq_true_eq, ne_eq,
      maskOf_eq_zero_iff]
    simp [Sse2.set1, kGroup, eq_comm (a := kEmpty)]
  free_eq_zero_iff g := by
    simp [Sse2.matchEmptyOrDeleted, Sse2.movemask, maskOf_eq_zero_iff, testBit_seven, kGroup]
  first_free g h := by
    simp only [Sse2.matchEmptyOrDeleted, Sse2.movemask, testBit_seven] at h ⊢
    obtain ⟨hlt, hfree, hlow⟩ := lowBit_lane (p := fun l => !isFull (g l)) (s := 0) (n := 16) h
    exact ⟨hlt, by simpa using hfree, fun l hl => by simpa using hlow l hl⟩

/-- The build with NEON. -/
def neon : GroupOps where
  width := 64
  shift := 2
  matchBits := Neon.matchBits
  matchEmpty := Neon.matchEmpty
  matchEmptyOrDeleted := Neon.matchEmptyOrDeleted
  mem_lanes g needle l := by
    rw [Neon.matchBits, Neon.ceq, Neon.neonMask_compared]
    refine (mem_lanes_maskOf (p := fun l => g l = Neon.dup needle l) (s := 2) (n := 16) l).trans ?_
    rw [decide_eq_true_eq, Neon.dup]
    rfl
  matchEmpty_iff g := by
    rw [Neon.matchEmpty, Neon.ceq, Neon.neonMask_compared, decide_eq_true_eq, ne_eq,
      lanes_eq_zero_iff (p := fun l => g l = Neon.dup kEmpty l)]
    simp only [not_forall, Bool.not_eq_false, decide_eq_true_eq, exists_prop]
    rfl
  free_eq_zero_iff g := by
    rw [Neon.matchEmptyOrDeleted, Neon.cge, Neon.neonMask_compared,
      lanes_eq_zero_iff (p := fun l => Neon.dup kEmpty l ≤ g l)]
    simp [Neon.dup, kEmpty_le_iff, kGroup]
  first_free g h := by
    simp only [Neon.matchEmptyOrDeleted, Neon.cge, Neon.neonMask_compared, Neon.dup,
      kEmpty_le_iff] at h ⊢
    obtain ⟨hlt, hfree, hlow⟩ := lowBit_lane (p := fun l => isFull (g l) = false) (s := 2) (n := 16) h
    exact ⟨hlt, by simpa using hfree, fun l hl => by simpa using hlow l hl⟩

end GroupOps

end BlazeKV
