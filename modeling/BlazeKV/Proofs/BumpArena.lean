import BlazeKV.Lib.Machine
import BlazeKV.Spec.Arena

/-! Runs of the bump arena with the ranges that it has returned since the last reset. Offsets are
rounded, not addresses, so a range is aligned only as far as its block is. -/

namespace BlazeKV.BumpArena

open Lib

/-! Rounding by a mask. -/

theorem land_mask {x k : ℕ} (hk : k < 64) (hx : x < 2 ^ 64) :
    x &&& (2 ^ 64 - 1 - (2 ^ k - 1)) = x / 2 ^ k * 2 ^ k := by
  have hmask : 2 ^ 64 - 1 - (2 ^ k - 1) = 2 ^ 64 - (2 ^ k - 1 + 1) := by omega
  have hpow : 2 ^ k - 1 < 2 ^ 64 := (Nat.sub_le _ _).trans_lt (Nat.pow_lt_pow_right Nat.one_lt_two hk)
  refine Nat.eq_of_testBit_eq fun i => ?_
  rw [Nat.testBit_land, hmask, Nat.testBit_two_pow_sub_succ hpow, Nat.testBit_two_pow_sub_one,
    Nat.testBit_mul_two_pow, Nat.testBit_div_two_pow]
  by_cases hik : k ≤ i
  · rw [Nat.sub_add_cancel hik]
    by_cases hi : i < 64
    · simp [hi, hik]
    · rw [Nat.testBit_lt_two_pow (hx.trans_le (Nat.pow_le_pow_right Nat.two_pos (not_lt.1 hi)))]
      simp
  · simp [hik, not_le.1 hik]

section Rounding

variable {offset k : ℕ}

theorem roundUp_eq (hk : k < 64) (h : offset + 2 ^ k ≤ 2 ^ 64) :
    roundUp offset (2 ^ k) = (offset + 2 ^ k - 1) / 2 ^ k * 2 ^ k := by
  have hpos := Nat.two_pow_pos k
  rw [roundUp, u64_of_lt (by omega), land_mask hk (by omega)]

theorem le_roundUp (hk : k < 64) (h : offset + 2 ^ k ≤ 2 ^ 64) : offset ≤ roundUp offset (2 ^ k) := by
  have hdiv := Nat.div_add_mod (offset + 2 ^ k - 1) (2 ^ k)
  have hmod := Nat.mod_lt (offset + 2 ^ k - 1) (Nat.two_pow_pos k)
  rw [roundUp_eq hk h, Nat.mul_comm]
  omega

theorem roundUp_le (hk : k < 64) (h : offset + 2 ^ k ≤ 2 ^ 64) :
    roundUp offset (2 ^ k) ≤ offset + 2 ^ k - 1 :=
  (roundUp_eq hk h).trans_le (Nat.div_mul_le_self _ _)

theorem dvd_roundUp (hk : k < 64) (h : offset + 2 ^ k ≤ 2 ^ 64) : 2 ^ k ∣ roundUp offset (2 ^ k) :=
  roundUp_eq hk h ▸ Nat.dvd_mul_left _ _

theorem roundUp_zero (hk : k < 64) : roundUp 0 (2 ^ k) = 0 := by
  have hpos := Nat.two_pow_pos k
  have hle := Nat.pow_le_pow_right Nat.two_pos hk.le
  rw [roundUp_eq hk (by omega), Nat.div_eq_of_lt (by omega), Nat.zero_mul]

end Rounding

/-- A range that has been returned. -/
structure Grant where
  span : Span
  align : ℕ

/-- An arena, and what it has returned since the last reset. -/
structure Scratch where
  arena : BumpArena
  granted : List Grant

inductive Call where
  | allocate (bytes align fresh : ℕ)
  | reset

/-- The block in use does not serve the request. -/
def Grows (a : BumpArena) (bytes align : ℕ) : Prop :=
  a.cur = none ∨ u64 (roundUp a.offset align + bytes) > a.current.size

instance (a : BumpArena) (bytes align : ℕ) : Decidable (a.Grows bytes align) :=
  inferInstanceAs (Decidable (a.cur = none ∨ u64 (roundUp a.offset align + bytes) > a.current.size))

/-- The block that `grow` adds. -/
def added (a : BumpArena) (bytes align fresh : ℕ) : Span := ⟨fresh, max a.blockSize (bytes + align)⟩

/-- The block that serves a request. -/
def serving (a : BumpArena) (bytes align fresh : ℕ) : Span :=
  if a.Grows bytes align then a.added bytes align fresh else a.current

namespace Scratch

def start (blockSize : ℕ) : Scratch := ⟨empty blockSize, []⟩

/-- A call, with the address that `allocate` returns. -/
def step (s : Scratch) : Call → Scratch × Option ℕ
  | .allocate bytes align fresh =>
    let r := s.arena.allocate bytes align fresh
    (⟨r.1, s.granted ++ [⟨⟨r.2, bytes⟩, align⟩]⟩, some r.2)
  | .reset => (⟨s.arena.reset, []⟩, none)

/-- Alignments are powers of two, nothing wraps, and new blocks are fresh. -/
def Valid (s : Scratch) : Call → Prop
  | .allocate bytes align fresh => (∃ k < 64, align = 2 ^ k) ∧ s.arena.offset + align + bytes < 2 ^ 64 ∧
    (s.arena.Grows bytes align → NewRegion s.arena.blocks (s.arena.added bytes align fresh))
  | .reset => True

/-- No stricter alignment is requested than that of the block that serves the request. -/
def Met (s : Scratch) : Call → Prop
  | .allocate bytes align fresh => align ≤ 16 ∨ align ∣ (s.arena.serving bytes align fresh).start
  | .reset => True

/-- What callers rely on. -/
structure Sound (s : Scratch) : Prop where
  aligned : ∀ g ∈ s.granted, g.align ∣ g.span.start
  inside : ∀ g ∈ s.granted, ∃ b ∈ s.arena.blocks, g.span.Within b
  apart : s.granted.Pairwise fun g g' => g.span.Apart g'.span

end Scratch

structure Inv (s : Scratch) : Prop where
  blocks : s.arena.blocks.Pairwise Span.Apart
  aligned : ∀ b ∈ s.arena.blocks, 16 ∣ b.start
  cur : ∀ i, s.arena.cur = some i → i < s.arena.blocks.length
  inside : ∀ g ∈ s.granted, ∃ i b, s.arena.blocks[i]? = some b ∧ g.span.Within b ∧
    (s.arena.cur = some i → g.span.stop ≤ b.start + s.arena.offset)
  apart : s.granted.Pairwise fun g g' => g.span.Apart g'.span

section Steps

variable {s : Scratch} {a : BumpArena} {bytes align fresh k off : ℕ} {b : Span}

theorem grow_blocks (a : BumpArena) (bytes align fresh : ℕ) :
    (a.grow (bytes + align) fresh).blocks = a.blocks ++ [a.added bytes align fresh] := by
  rw [grow, added, max_def]
  split_ifs <;> first | rfl | omega

theorem grow_current (a : BumpArena) (bytes align fresh : ℕ) :
    (a.grow (bytes + align) fresh).current = a.added bytes align fresh := by
  rw [current, grow_blocks]
  simp [grow]

/-- What `allocate` does to the arena once it has a block. -/
def place (a : BumpArena) (off bytes : ℕ) : BumpArena := { a with offset := off + bytes }

/-- The arena, with a new block where one is needed. -/
def ready (a : BumpArena) (bytes align fresh : ℕ) : BumpArena :=
  if a.Grows bytes align then a.grow (bytes + align) fresh else a

theorem ready_current : (a.ready bytes align fresh).current = a.serving bytes align fresh := by
  unfold ready serving
  split_ifs
  · exact grow_current a bytes align fresh
  · rfl

/-- The range does not wrap, and fits in the block. -/
theorem ready_fits (fresh : ℕ) (hk : k < 64) (hwrap : a.offset + 2 ^ k + bytes < 2 ^ 64) :
    let a' := a.ready bytes (2 ^ k) fresh
    let off := roundUp a'.offset (2 ^ k)
    off + bytes < 2 ^ 64 ∧ a'.offset ≤ off ∧ 2 ^ k ∣ off ∧ off + bytes ≤ a'.current.size ∧
    a'.cur ≠ none := by
  have hpos := Nat.two_pow_pos k
  dsimp only
  unfold ready
  split_ifs with hg
  · have hzero : roundUp (a.grow (bytes + 2 ^ k) fresh).offset (2 ^ k) = 0 := roundUp_zero hk
    rw [hzero, grow_current, Nat.zero_add]
    exact ⟨by omega, Nat.zero_le _, dvd_zero _, (Nat.le_add_right _ _).trans (le_max_right _ _),
      Option.some_ne_none _⟩
  · obtain ⟨hcur, hfits⟩ := not_or.1 hg
    have hle : roundUp a.offset (2 ^ k) ≤ a.offset + 2 ^ k - 1 := roundUp_le hk (by omega)
    rw [u64_of_lt (by omega)] at hfits
    exact ⟨by omega, le_roundUp hk (by omega), dvd_roundUp hk (by omega), not_lt.1 hfits, hcur⟩

theorem allocate_eq (hk : k < 64) (hwrap : a.offset + 2 ^ k + bytes < 2 ^ 64) :
    a.allocate bytes (2 ^ k) fresh =
    let a' := a.ready bytes (2 ^ k) fresh
    let off := roundUp a'.offset (2 ^ k)
    (a'.place off bytes, a'.current.start + off) := by
  have hready : (if a.cur = none ∨ u64 (roundUp a.offset (2 ^ k) + bytes) > a.current.size then
        (a.grow (bytes + 2 ^ k) fresh, roundUp (a.grow (bytes + 2 ^ k) fresh).offset (2 ^ k))
      else (a, roundUp a.offset (2 ^ k))) =
      (a.ready bytes (2 ^ k) fresh, roundUp (a.ready bytes (2 ^ k) fresh).offset (2 ^ k)) := by
    unfold ready
    by_cases hg : a.Grows bytes (2 ^ k)
    · rw [if_pos hg]
      exact if_pos hg
    · rw [if_neg hg]
      exact if_neg hg
  obtain ⟨hlt, -⟩ := ready_fits fresh hk hwrap
  unfold allocate
  dsimp only
  rw [u64_of_lt (show bytes + 2 ^ k < 2 ^ 64 by omega), hready]
  dsimp only
  rw [u64_of_lt hlt, place]

theorem inv_start (blockSize : ℕ) : Inv (Scratch.start blockSize) where
  blocks := .nil
  aligned _ hb := absurd hb List.not_mem_nil
  cur _ hi := nomatch hi
  inside _ hg := absurd hg List.not_mem_nil
  apart := .nil

theorem Inv.reset (hI : Inv s) : Inv ⟨s.arena.reset, []⟩ := by
  have hblocks : s.arena.reset.blocks = s.arena.blocks := by
    unfold BumpArena.reset
    split_ifs <;> rfl
  refine ⟨hblocks ▸ hI.blocks, hblocks ▸ hI.aligned, fun i hi => ?_, fun g hg =>
    absurd hg List.not_mem_nil, .nil⟩
  unfold BumpArena.reset at hi ⊢
  split_ifs at hi ⊢ with hne
  · obtain rfl : 0 = i := Option.some.inj hi
    exact List.length_pos_iff.2 hne
  · exact hI.cur i hi

/-- A new block is used from its start. -/
theorem Inv.grow (hI : Inv s) (hfresh : NewRegion s.arena.blocks (s.arena.added bytes align fresh)) :
    Inv ⟨s.arena.grow (bytes + align) fresh, s.granted⟩ where
  blocks := by
    rw [grow_blocks]
    exact List.pairwise_append.2 ⟨hI.blocks, List.pairwise_singleton _ _, fun b hb r hr =>
      (List.mem_singleton.1 hr ▸ (hfresh.apart b hb).symm)⟩
  aligned b hb := by
    rw [grow_blocks] at hb
    rcases List.mem_append.1 hb with hb | hb
    · exact hI.aligned b hb
    · exact List.mem_singleton.1 hb ▸ hfresh.aligned
  cur i hi := by
    obtain rfl : s.arena.blocks.length = i := Option.some.inj hi
    rw [grow_blocks, List.length_append]
    exact Nat.lt_succ_self _
  inside g hg := by
    obtain ⟨i, b, hb, hin, -⟩ := hI.inside g hg
    have hlt := (List.getElem?_eq_some_iff.1 hb).1
    refine ⟨i, b, ?_, hin, fun hi => ?_⟩
    · rw [grow_blocks, List.getElem?_append_left hlt, hb]
    · exact absurd (Option.some.inj hi) hlt.ne'
  apart := hI.apart

/-- Behind what has been returned of the current block there is room for the next range. -/
theorem Inv.place (hI : Inv s) (hcur : s.arena.cur ≠ none) (hoff : s.arena.offset ≤ off)
    (hfits : off + bytes ≤ s.arena.current.size) :
    Inv ⟨s.arena.place off bytes, s.granted ++ [⟨⟨s.arena.current.start + off, bytes⟩, align⟩]⟩ := by
  obtain ⟨i, hi⟩ := Option.ne_none_iff_exists'.1 hcur
  have hlt := hI.cur i hi
  have hat : s.arena.blocks[i]? = some s.arena.current := by
    rw [current, hi, Option.bind_some, List.getElem?_eq_getElem hlt, Option.getD_some]
  have hnew : Span.Within ⟨s.arena.current.start + off, bytes⟩ s.arena.current := by
    refine ⟨Nat.le_add_right _ _, ?_⟩
    show s.arena.current.start + off + bytes ≤ s.arena.current.start + s.arena.current.size
    omega
  refine ⟨hI.blocks, hI.aligned, hI.cur, fun g hg => ?_,
    List.pairwise_append.2 ⟨hI.apart, List.pairwise_singleton _ _, ?_⟩⟩
  · rcases List.mem_append.1 hg with hg | hg
    · obtain ⟨j, b, hb, hin, hstop⟩ := hI.inside g hg
      refine ⟨j, b, hb, hin, fun hj => (hstop hj).trans (Nat.add_le_add_left ?_ _)⟩
      exact hoff.trans (Nat.le_add_right _ _)
    · rw [List.mem_singleton.1 hg]
      exact ⟨i, s.arena.current, hat, hnew, fun _ => (Nat.add_assoc _ _ _).le⟩
  · intro g hg g' hg'
    rw [List.mem_singleton.1 hg']
    obtain ⟨j, b, hb, hin, hstop⟩ := hI.inside g hg
    rcases eq_or_ne j i with rfl | hne
    · obtain rfl : s.arena.current = b := Option.some.inj (hat.symm.trans hb)
      exact .inl ((hstop hi).trans (Nat.add_le_add_left hoff _))
    · have hapart : b.Apart s.arena.current := by
        obtain ⟨hjlt, rfl⟩ := List.getElem?_eq_some_iff.1 hb
        obtain ⟨_, hcurrent⟩ := List.getElem?_eq_some_iff.1 hat
        rw [← hcurrent]
        rcases Nat.lt_or_gt_of_ne hne with hji | hji
        · exact List.pairwise_iff_getElem.1 hI.blocks j i hjlt hlt hji
        · exact (List.pairwise_iff_getElem.1 hI.blocks i j hlt hjlt hji).symm
      exact hapart.mono hin hnew

theorem Inv.ready (hI : Inv s)
    (hfresh : s.arena.Grows bytes align → NewRegion s.arena.blocks (s.arena.added bytes align fresh)) :
    Inv ⟨s.arena.ready bytes align fresh, s.granted⟩ := by
  unfold BumpArena.ready
  split_ifs with hg
  · exact hI.grow (hfresh hg)
  · exact hI

theorem Inv.step (hI : Inv s) {c : Call} (hv : s.Valid c) : Inv (s.step c).1 := by
  cases c with
  | reset => exact hI.reset
  | allocate bytes align fresh =>
    obtain ⟨⟨k, hk, rfl⟩, hwrap, hfresh⟩ := hv
    obtain ⟨-, hoff, -, hfits, hcur⟩ := ready_fits fresh hk (by omega : s.arena.offset + 2 ^ k + bytes < 2 ^ 64)
    rw [Scratch.step, allocate_eq hk hwrap]
    exact (hI.ready hfresh).place hcur hoff hfits

/-- The block that serves a request is aligned for every type. -/
theorem Inv.serving_aligned (hI : Inv s) (hk : k < 64) (hwrap : s.arena.offset + 2 ^ k + bytes < 2 ^ 64)
    (hfresh : s.arena.Grows bytes (2 ^ k) →
      NewRegion s.arena.blocks (s.arena.added bytes (2 ^ k) fresh)) :
    16 ∣ (s.arena.serving bytes (2 ^ k) fresh).start := by
  have hI' := hI.ready hfresh
  obtain ⟨-, -, -, -, hcur⟩ := ready_fits fresh hk hwrap
  obtain ⟨i, hi⟩ := Option.ne_none_iff_exists'.1 hcur
  have hlt := hI'.cur i hi
  rw [← ready_current, current, hi, Option.bind_some, List.getElem?_eq_getElem hlt, Option.getD_some]
  exact hI'.aligned _ (List.getElem_mem hlt)

/-- What the step returns is aligned exactly when the block is, or no more is requested. -/
theorem Inv.aligned_iff (hI : Inv s) {c : Call} (hv : s.Valid c)
    (h : ∀ g ∈ s.granted, g.align ∣ g.span.start) :
    (∀ g ∈ (s.step c).1.granted, g.align ∣ g.span.start) ↔ s.Met c := by
  cases c with
  | reset => exact iff_of_true (fun g hg => absurd hg List.not_mem_nil) trivial
  | allocate bytes align fresh =>
    obtain ⟨⟨k, hk, rfl⟩, hwrap, hfresh⟩ := hv
    obtain ⟨-, -, hdvd, -⟩ := ready_fits fresh hk hwrap
    have hbase : 2 ^ k ≤ 16 → 2 ^ k ∣ (s.arena.serving bytes (2 ^ k) fresh).start := fun hle =>
      (pow_dvd_pow 2 ((Nat.pow_le_pow_iff_right Nat.one_lt_two (m := 4)).1 hle)).trans
      (hI.serving_aligned hk hwrap hfresh)
    rw [Scratch.step, allocate_eq hk hwrap, Scratch.Met]
    simp only [List.forall_mem_append, List.forall_mem_singleton, ready_current]
    rw [Nat.dvd_add_left hdvd]
    exact ⟨fun h' => .inr h'.2, fun h' => ⟨h, h'.elim hbase id⟩⟩

theorem Inv.sound_iff (hI : Inv s) : s.Sound ↔ ∀ g ∈ s.granted, g.align ∣ g.span.start := by
  refine ⟨Scratch.Sound.aligned, fun h => ⟨h, fun g hg => ?_, hI.apart⟩⟩
  obtain ⟨i, b, hb, hin, -⟩ := hI.inside g hg
  exact ⟨b, List.mem_of_getElem? hb, hin⟩

end Steps

section Runs

/-- Whatever is called, what has been returned is right at all times exactly when each request is
met by an aligned block. -/
theorem bump_sound_iff (blockSize : ℕ) {calls : List Call}
    (hv : RunOk Scratch.step Scratch.Valid (Scratch.start blockSize) calls) :
    Always Scratch.step Scratch.Sound (Scratch.start blockSize) calls ↔
      RunOk Scratch.step Scratch.Met (Scratch.start blockSize) calls := by
  have hstart := (inv_start blockSize).sound_iff.2 fun _ hg => absurd hg List.not_mem_nil
  refine always_iff (fun s c hI hv => hI.step hv) (fun s c hI hs hv => ?_) hv
    (inv_start blockSize) hstart
  exact (hI.step hv).sound_iff.trans (hI.aligned_iff hv hs.aligned)

theorem bump_sound_reset : Always Scratch.step Scratch.Sound (Scratch.start 64)
    [.allocate 10 16 (2 ^ 20), .allocate 100 64 (2 ^ 21), .reset, .allocate 5 1 0] := by
  have hv : RunOk Scratch.step Scratch.Valid (Scratch.start 64)
      [.allocate 10 16 (2 ^ 20), .allocate 100 64 (2 ^ 21), .reset, .allocate 5 1 0] :=
    ⟨⟨⟨4, by decide, rfl⟩, by decide, fun _ => ⟨by decide, by decide, by decide, by decide⟩⟩,
      ⟨⟨6, by decide, rfl⟩, by decide, fun _ => ⟨by decide, by decide, by decide, by decide⟩⟩, trivial,
      ⟨⟨0, by decide, rfl⟩, by decide, fun hg => absurd hg (by decide)⟩, trivial⟩
  refine (bump_sound_iff 64 hv).2 ⟨?_, ?_, trivial, ?_, trivial⟩
  · exact .inl (by decide)
  · exact .inr (by decide)
  · exact .inl (by decide)

/-- A block at a multiple of 16 serves a request for a multiple of 64. -/
theorem range_misaligned : ¬∀ (blockSize : ℕ) (calls : List Call),
    RunOk Scratch.step Scratch.Valid (Scratch.start blockSize) calls →
      Always Scratch.step Scratch.Sound (Scratch.start blockSize) calls := by
  intro h
  have hs := (h 65536 [.allocate 8 64 (2 ^ 20 + 16)] ⟨⟨⟨6, by decide, rfl⟩, by decide,
    fun _ => ⟨by decide, by decide, by decide, by decide⟩⟩, trivial⟩).2
  exact absurd (hs.aligned _ (List.mem_singleton_self _)) (by decide)

end Runs

end BlazeKV.BumpArena
