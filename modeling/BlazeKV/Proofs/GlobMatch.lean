import BlazeKV.Proofs.CheckedStrings
import BlazeKV.Spec.Checked.Generic

/-! `glob_match` reads inside the pattern and the string, and ends. -/

namespace BlazeKV.Checked

open Lib

variable {pat str : Bytes}

/-- A class is left at its end, or after as many rounds as the pattern has characters. -/
theorem globClass_eq (c : UInt8) (fuel q : ℕ) (matched : Bool) (h : pat.length - q ≤ fuel) :
    globClass pat c fuel q matched = .ok (Cmd.globClass pat c fuel q matched) := by
  induction fuel generalizing q matched with
  | zero =>
    rw [globClass, require_of (by omega)]
    rfl
  | succ fuel ih =>
    unfold globClass Cmd.globClass
    by_cases hq : q < pat.length
    · simp only [hq, if_true, charAt_of_lt hq, ok_bind, true_and]
      by_cases hend : pat.getD q 0 = 93
      · rw [if_pos hend, if_neg (not_not.2 hend)]
        rfl
      · rw [if_neg hend, if_pos hend]
        by_cases hq2 : q + 2 < pat.length
        · simp only [hq2, if_true, charAt_of_lt (show q + 1 < pat.length by omega), charAt_of_lt hq2, ok_bind, true_and]
          split_ifs
          · exact ih _ _ (by omega)
          · exact ih _ _ (by omega)
        · simp only [hq2, if_false, false_and]
          exact ih _ _ (by omega)
    · simp [hq]

theorem globNegate_eq (q : ℕ) : globNegate pat q =
    .ok (decide (q < pat.length ∧ (pat.getD q 0 = 94 ∨ pat.getD q 0 = 33))) := by
  unfold globNegate
  by_cases hq : q < pat.length
  · simp [hq, charAt_of_lt hq]
  · simp [hq]

theorem globEscaped_eq (p : ℕ) (sc : UInt8) : globEscaped pat p sc =
    .ok (decide (p + 1 < pat.length ∧ pat.getD (p + 1) 0 = sc)) := by
  unfold globEscaped
  by_cases hp : p + 1 < pat.length
  · simp [hp, charAt_of_lt hp]
  · simp [hp]

theorem globStep_eq (g : Cmd.GlobState) (h : g.s < str.length) : globStep pat str g = .ok (Cmd.globStep pat str g) := by
  have hclass : ∀ sc q matched, globClass pat sc pat.length q matched = .ok (Cmd.globClass pat sc pat.length q matched) :=
    fun sc q matched => globClass_eq sc _ _ _ (Nat.sub_le _ _)
  unfold globStep Cmd.globStep
  rw [charAt_of_lt h, ok_bind]
  by_cases hp : g.p < pat.length
  · simp only [hp, if_true, charAt_of_lt hp, ok_bind, true_and, globNegate_eq, globEscaped_eq, hclass, decide_eq_true_eq]
    by_cases hq : pat.getD g.p 0 = 63 ∨ pat.getD g.p 0 = str.getD g.s 0
    · simp only [hq, if_true]
      rfl
    · simp only [hq, if_false]
      by_cases hstar : pat.getD g.p 0 = 42
      · simp only [hstar, if_true]
        rfl
      · simp only [hstar, if_false]
        by_cases hopen : pat.getD g.p 0 = 91
        · simp only [hopen, if_true]
          split_ifs <;> rfl
        · simp only [hopen, if_false]
          by_cases hesc : pat.getD g.p 0 = 92
          · simp only [hesc, if_true, true_and]
            split_ifs <;> rfl
          · simp only [hesc, if_false, false_and]
            rfl
  · simp [hp]

/-- The star that a match may go back to is behind both positions. -/
def StarBehind (pat : Bytes) (g : Cmd.GlobState) : Prop := ∀ st ∈ g.star, st.1 < pat.length ∧ st.2 ≤ g.s

/-- What is left to do: going back takes the star a character further, and any other round goes on
in the pattern. -/
def globRank (pat str : Bytes) (g : Cmd.GlobState) : ℕ :=
  (str.length + 1 - g.star.elim 0 Prod.snd) * (pat.length + 1) + (pat.length - g.p)

theorem globClass_le (c : UInt8) (fuel q : ℕ) (matched : Bool) : q ≤ (Cmd.globClass pat c fuel q matched).2 := by
  induction fuel generalizing q matched with
  | zero => exact le_rfl
  | succ fuel ih =>
    unfold Cmd.globClass
    split_ifs
    · exact le_trans (by omega) (ih _ _)
    · exact le_trans (by omega) (ih _ _)
    · exact le_rfl

theorem globBack_rank {g g' : Cmd.GlobState} (hs : g.s < str.length) (hg : StarBehind pat g) (h : Cmd.globBack g = some g') :
    StarBehind pat g' ∧ globRank pat str g' < globRank pat str g := by
  obtain ⟨⟨sp, ss⟩, hstar, rfl⟩ := Option.map_eq_some_iff.1 h
  obtain ⟨hp, hle⟩ := hg _ hstar
  refine ⟨fun st hst => ?_, ?_⟩
  · obtain rfl := Option.some.inj hst
    exact ⟨hp, le_rfl⟩
  · have hsplit : str.length + 1 - ss = str.length + 1 - (ss + 1) + 1 := by omega
    simp only [globRank, hstar, Option.elim_some, hsplit, Nat.add_mul]
    omega

/-- A round that goes on in the pattern. -/
theorem globRank_forward {g : Cmd.GlobState} {p s : ℕ} (hg : StarBehind pat g) (hp : g.p < pat.length) (hpp : g.p < p)
    (hs : g.s ≤ s) : StarBehind pat { g with p := p, s := s } ∧
      globRank pat str { g with p := p, s := s } < globRank pat str g := by
  refine ⟨fun st hst => ⟨(hg st hst).1, (hg st hst).2.trans hs⟩, ?_⟩
  simp only [globRank]
  omega

theorem globStep_rank {g g' : Cmd.GlobState} (hs : g.s < str.length) (hg : StarBehind pat g)
    (h : Cmd.globStep pat str g = some g') : StarBehind pat g' ∧ globRank pat str g' < globRank pat str g := by
  have hclass := fun q => @globClass_le pat (str.getD g.s 0) pat.length q false
  have hone := hclass (g.p + 1)
  have htwo := hclass (g.p + 2)
  unfold Cmd.globStep at h
  dsimp only at h
  split_ifs at h with hq hstar hopen
  · obtain rfl := Option.some.inj h
    exact globRank_forward hg hq.1 (Nat.lt_succ_self _) (Nat.le_succ _)
  · obtain rfl := Option.some.inj h
    refine ⟨fun st hst => ?_, ?_⟩
    · obtain rfl := Option.some.inj hst
      exact ⟨hstar.1, le_rfl⟩
    · have hold : g.star.elim 0 Prod.snd ≤ g.s := by
        cases hst : g.star with
        | none => exact Nat.zero_le _
        | some st => exact (hg st hst).2
      have hmul := Nat.mul_le_mul_right (pat.length + 1) (Nat.sub_le_sub_left hold (str.length + 1))
      simp only [globRank, Option.elim_some]
      omega
  · obtain rfl := Option.some.inj h
    exact globRank_forward hg hopen.1 (by omega) (Nat.le_succ _)
  · obtain rfl := Option.some.inj h
    exact globRank_forward hg hopen.1 (by omega) (Nat.le_succ _)
  · exact globBack_rank hs hg h
  · obtain rfl := Option.some.inj h
    exact globRank_forward hg hopen.1 (by omega) (Nat.le_succ _)
  · obtain rfl := Option.some.inj h
    exact globRank_forward hg hopen.1 (by omega) (Nat.le_succ _)
  · exact globBack_rank hs hg h
  · next hesc =>
    obtain rfl := Option.some.inj h
    exact globRank_forward hg hesc.1 (by omega) (Nat.le_succ _)
  · exact globBack_rank hs hg h

theorem globLoop_eq (fuel : ℕ) (g : Cmd.GlobState) (hg : StarBehind pat g) (h : globRank pat str g < fuel) :
    globLoop pat str fuel g = .ok (Cmd.globLoop pat str fuel g) := by
  induction fuel generalizing g with
  | zero => omega
  | succ fuel ih =>
    rw [globLoop, Cmd.globLoop]
    by_cases hs : g.s < str.length
    · rw [if_pos hs, if_pos hs, globStep_eq g hs, ok_bind]
      cases hstep : Cmd.globStep pat str g with
      | none => rfl
      | some g' =>
        obtain ⟨hg', hlt⟩ := globStep_rank hs hg hstep
        exact ih g' hg' (by omega)
    · rw [if_neg hs, if_neg hs]
      rfl

theorem globMatch_eq : globMatch pat str = .ok (Cmd.globMatch pat str) := by
  refine globLoop_eq _ _ (fun st hst => by cases hst) ?_
  simp only [globRank, Option.elim_none, Nat.sub_zero]
  nlinarith [Nat.zero_le (str.length * str.length), Nat.zero_le (str.length * pat.length)]

end BlazeKV.Checked
