import BlazeKV.Lib.LittleEndian
import BlazeKV.Lib.Spans

/-! A memory of bytes with 64-bit pointers in it, and lists whose links stand at the start of their
nodes. -/

namespace BlazeKV.Lib

abbrev Ram := ℕ → UInt8

def load64 (m : Ram) (p : ℕ) : ℕ := word (fun i => m (p + i)) 8

def store64 (m : Ram) (p v : ℕ) : Ram := fun a => if p ≤ a ∧ a < p + 8 then byteOf v (a - p) else m a

variable {m m' : Ram} {p q v : ℕ} {ps : List ℕ}

theorem load64_store64 (m : Ram) (p : ℕ) (hv : v < 2 ^ 64) : load64 (store64 m p v) p = v := by
  have hbytes : ∀ i < 8, store64 m p v (p + i) = byteOf v i := by
    intro i hi
    rw [store64, if_pos (by omega), Nat.add_sub_cancel_left]
  rw [load64, word_congr hbytes, word_byteOf]
  exact Nat.mod_eq_of_lt hv

theorem store64_apart {a : ℕ} (h : Span.Apart ⟨a, 1⟩ ⟨p, 8⟩) : store64 m p v a = m a := by
  unfold Span.Apart Span.stop at h
  exact if_neg (by dsimp only at h; omega)

/-- Memories that are alike on a view. -/
def AgreeOn (m m' : Ram) (s : Span) : Prop := ∀ a, s.start ≤ a → a < s.stop → m' a = m a

theorem AgreeOn.mono {s t : Span} (h : AgreeOn m m' t) (hs : s.Within t) : AgreeOn m m' s :=
  fun a h1 h2 => h a (hs.1.trans h1) (h2.trans_le hs.2)

theorem agreeOn_store64 {s : Span} (h : Span.Apart s ⟨p, 8⟩) : AgreeOn m (store64 m p v) s :=
  fun _ h1 h2 => store64_apart (h.mono ⟨h1, h2⟩ ⟨le_rfl, le_rfl⟩)

theorem AgreeOn.load64 (h : AgreeOn m m' ⟨p, 8⟩) : load64 m' p = load64 m p :=
  word_congr fun i hi => h (p + i) (Nat.le_add_right _ _) (Nat.add_lt_add_left hi p)

/-- The nodes of the list that starts at `p`, null being zero. -/
def Chained (m : Ram) : ℕ → List ℕ → Prop
  | p, [] => p = 0
  | p, a :: as => p = a ∧ a ≠ 0 ∧ Chained m (load64 m a) as

theorem Chained.congr (h : Chained m p ps) (hm : ∀ a ∈ ps, AgreeOn m m' ⟨a, 8⟩) : Chained m' p ps := by
  induction ps generalizing p with
  | nil => exact h
  | cons a as ih =>
    obtain ⟨hp, ha, hnext⟩ := h
    refine ⟨hp, ha, ?_⟩
    rw [(hm a List.mem_cons_self).load64]
    exact ih hnext fun b hb => hm b (List.mem_cons_of_mem a hb)

theorem Chained.push (h : Chained m p ps) (hq : q ≠ 0) (hp : p < 2 ^ 64)
    (hps : ∀ a ∈ ps, Span.Apart ⟨a, 8⟩ ⟨q, 8⟩) :
    Chained (store64 m q p) q (q :: ps) := by
  refine ⟨rfl, hq, ?_⟩
  rw [load64_store64 m q hp]
  exact h.congr fun a ha => agreeOn_store64 (hps a ha)

theorem Chained.of_zero (h : Chained m 0 ps) : ps = [] := by
  cases ps with
  | nil => rfl
  | cons a as => exact absurd h.1.symm h.2.1

theorem Chained.pop (h : Chained m p ps) (hp : p ≠ 0) :
    ∃ as, ps = p :: as ∧ Chained m (Lib.load64 m p) as := by
  cases ps with
  | nil => exact absurd h hp
  | cons a as =>
    obtain ⟨rfl, -, hnext⟩ := h
    exact ⟨as, rfl, hnext⟩

theorem Chained.head_lt (h : Chained m p ps) (hps : ∀ a ∈ ps, a < 2 ^ 64) : p < 2 ^ 64 := by
  cases ps with
  | nil => exact h.symm ▸ Nat.two_pow_pos 64
  | cons a as => exact h.1 ▸ hps a List.mem_cons_self

/-- The nodes that the links lead to. -/
inductive OnList (m : Ram) : ℕ → ℕ → Prop where
  | head (p : ℕ) (hp : p ≠ 0) : OnList m p p
  | next (p q : ℕ) (hp : p ≠ 0) (h : OnList m (load64 m p) q) : OnList m p q

theorem Chained.mem (h : Chained m p ps) (hq : OnList m p q) : q ∈ ps := by
  induction hq generalizing ps with
  | head p hp =>
    obtain ⟨as, rfl, -⟩ := h.pop hp
    exact List.mem_cons_self
  | next p q hp _ ih =>
    obtain ⟨as, rfl, hnext⟩ := h.pop hp
    exact List.mem_cons_of_mem p (ih hnext)

end BlazeKV.Lib
