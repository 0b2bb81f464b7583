import Mathlib.Logic.Function.Basic
import Mathlib.Logic.Relation

/-! Machines driven by a list of inputs. `run` is a concrete machine whose step
may fail to end, `runTotal` an abstract one; a step refinement lifts to runs. -/

namespace BlazeKV.Lib

variable {σ τ ι ο : Type}

def run (step : σ → ι → Option (σ × ο)) : σ → List ι → Option (σ × List ο)
  | s, [] => some (s, [])
  | s, i :: is => do
    let (s, o) ← step s i
    let (s, os) ← run step s is
    return (s, o :: os)

def runTotal (step : τ → ι → τ × ο) : τ → List ι → τ × List ο
  | s, [] => (s, [])
  | s, i :: is =>
    let r := runTotal step (step s i).1 is
    (r.1, (step s i).2 :: r.2)

/-- The concrete step ends, answers like the abstract one and stays related. -/
def StepRefines (R : σ → τ → Prop) (step : σ → ι → Option (σ × ο)) (astep : τ → ι → τ × ο)
    (ok : τ → ι → Prop) : Prop :=
  ∀ s a i, R s a → ok a i → ∃ s', step s i = some (s', (astep a i).2) ∧ R s' (astep a i).1

/-- Every input of the run is acceptable in the state it meets. -/
def RunOk (astep : τ → ι → τ × ο) (ok : τ → ι → Prop) : τ → List ι → Prop
  | _, [] => True
  | a, i :: is => ok a i ∧ RunOk astep ok (astep a i).1 is

instance RunOk.decidable (astep : τ → ι → τ × ο) (ok : τ → ι → Prop) [∀ a, DecidablePred (ok a)] :
    ∀ a is, Decidable (RunOk astep ok a is)
  | _, [] => inferInstanceAs (Decidable True)
  | a, i :: is =>
    have := RunOk.decidable astep ok (astep a i).1 is
    inferInstanceAs (Decidable (ok a i ∧ _))

theorem run_refines {R : σ → τ → Prop} {step : σ → ι → Option (σ × ο)} {astep : τ → ι → τ × ο}
    {ok : τ → ι → Prop} (h : StepRefines R step astep ok) {s : σ} {a : τ} (is : List ι)
    (hR : R s a) (hok : RunOk astep ok a is) :
    ∃ s', run step s is = some (s', (runTotal astep a is).2) ∧ R s' (runTotal astep a is).1 := by
  induction is generalizing s a with
  | nil => exact ⟨s, rfl, hR⟩
  | cons i is ih =>
    obtain ⟨s1, hs1, hR1⟩ := h s a i hR hok.1
    obtain ⟨s2, hs2, hR2⟩ := ih hR1 hok.2
    exact ⟨s2, by simp [run, hs1, hs2, runTotal], hR2⟩

/-- A machine whose step always ends. -/
theorem runTotal_refines {R : σ → τ → Prop} {step : σ → ι → σ × ο} {astep : τ → ι → τ × ο} {is : List ι}
    (h : ∀ s a i, i ∈ is → R s a → (step s i).2 = (astep a i).2 ∧ R (step s i).1 (astep a i).1) {s : σ} {a : τ}
    (hR : R s a) :
    (runTotal step s is).2 = (runTotal astep a is).2 ∧ R (runTotal step s is).1 (runTotal astep a is).1 := by
  induction is generalizing s a with
  | nil => exact ⟨rfl, hR⟩
  | cons i is ih =>
    obtain ⟨hout, hR1⟩ := h s a i List.mem_cons_self hR
    obtain ⟨houts, hR2⟩ := ih (fun s a j hj => h s a j (List.mem_cons_of_mem i hj)) hR1
    exact ⟨by rw [runTotal, runTotal, hout, houts], hR2⟩

/-- What acceptable inputs keep holds after the run. -/
theorem RunOk.kept {astep : τ → ι → τ × ο} {ok : τ → ι → Prop} {I : τ → Prop}
    (hstep : ∀ a i, I a → ok a i → I (astep a i).1) {a : τ} {is : List ι} (hok : RunOk astep ok a is) (h : I a) :
    I (runTotal astep a is).1 := by
  induction is generalizing a with
  | nil => exact h
  | cons i is ih => exact ih hok.2 (hstep a i h hok.1)

/-- Something holds in every state of a run. -/
def Always (astep : τ → ι → τ × ο) (P : τ → Prop) : τ → List ι → Prop
  | a, [] => P a
  | a, i :: is => P a ∧ Always astep P (astep a i).1 is

theorem Always.start {astep : τ → ι → τ × ο} {P : τ → Prop} {a : τ} {is : List ι} (h : Always astep P a is) : P a := by
  cases is with
  | nil => exact h
  | cons => exact h.1

/-- If a step keeps `P` exactly when the input meets a condition, so does a run. -/
theorem always_iff {astep : τ → ι → τ × ο} {ok met : τ → ι → Prop} {I P : τ → Prop}
    (hstep : ∀ a i, I a → ok a i → I (astep a i).1)
    (hiff : ∀ a i, I a → P a → ok a i → (P (astep a i).1 ↔ met a i)) {a : τ} {is : List ι} (hok : RunOk astep ok a is)
    (hI : I a) (hP : P a) : Always astep P a is ↔ RunOk astep met a is := by
  induction is generalizing a with
  | nil => exact iff_of_true hP trivial
  | cons i is ih =>
    have hkept := hstep a i hI hok.1
    have hmet := hiff a i hI hP hok.1
    constructor
    · intro h
      exact ⟨hmet.1 h.2.start, (ih hok.2 hkept h.2.start).1 h.2⟩
    · intro h
      exact ⟨hP, (ih hok.2 hkept (hmet.2 h.1)).2 h.2⟩

theorem runOk_true (astep : τ → ι → τ × ο) (a : τ) (is : List ι) :
    RunOk astep (fun _ _ => True) a is := by
  induction is generalizing a with
  | nil => trivial
  | cons i is ih => exact ⟨trivial, ih _⟩

end BlazeKV.Lib
