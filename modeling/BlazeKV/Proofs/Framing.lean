import BlazeKV.Proofs.WellFormed
import BlazeKV.Proofs.Pipeline
import BlazeKV.Spec.Serving

/-! What a command puts into the reply stream is one RESP value, whichever way it is
served. The name of an unknown command is the exception. -/

namespace BlazeKV

section Serving

variable {ι γ : Type} [DecidableEq ι] (g : HnswGraph γ) (shardFor : Bytes → ι) (self : ι) (argv : List Bytes)

/-- A command whose requests all have replies has one. -/
theorem replyBytes_parts (kind : Kind) (frags : List Bytes) :
    (Answer.parts kind (frags.map some)).reply = some (assembled kind frags) := by
  have hm : missing (frags.map some) = 0 := by simp [missing, List.countP_eq_zero]
  have hg : (frags.map some).map given = frags := by simp [given, Function.comp_def]
  simp [Answer.reply, hm, hg]

theorem plan_routed {p : Plan ι} (h : plan shardFor self argv = p) (hp : ∀ e, p ≠ .refuse e) :
    ∃ spec, route argv = .ok spec := by
  unfold plan at h
  cases hr : route argv with
  | error e =>
    simp only [hr] at h
    exact absurd h.symm (hp e)
  | ok spec => exact ⟨spec, rfl⟩

end Serving

end BlazeKV
