import Mathlib.Logic.Function.Iterate
import Mathlib.Data.List.Nodup

/-! Removing what is due from the first entries of a list, again and again. -/

namespace BlazeKV.Lib

variable {α : Type} (due : α → Bool) (budget : ℕ)

/-- One round: what is due among the first `budget` entries goes. -/
def reap (l : List α) : List α := ((l.take budget).filter fun e => !due e) ++ l.drop budget

/-- In front of every entry that is due are fewer than `budget` that are not. -/
def WithinReach (l : List α) : Prop :=
  ∀ front e rest, l = front ++ e :: rest → due e → (front.countP fun x => !due x) < budget

variable {due budget} {l : List α}

/-- What is not due stays. -/
theorem reap_kept : (reap due budget l).filter (fun e => !due e) = l.filter fun e => !due e := by
  rw [reap, List.filter_append, List.filter_filter]
  simp only [Bool.and_self]
  rw [← List.filter_append, List.take_append_drop]

/-- A round that finds its entries by name. -/
theorem reap_eq_filter {κ : Type} [DecidableEq κ] (f : α → κ) (h : (l.map f).Nodup) :
    l.filter (fun e => f e ∉ ((l.take budget).filter due).map f) = reap due budget l := by
  have hsplit : ((l.take budget).map f ++ (l.drop budget).map f).Nodup := by
    rwa [← List.map_append, List.take_append_drop]
  obtain ⟨hfront, -, hapart⟩ := List.nodup_append.1 hsplit
  have htake : (l.take budget).filter (fun e => f e ∉ ((l.take budget).filter due).map f) =
      (l.take budget).filter fun e => !due e := by
    refine List.filter_congr fun e he => ?_
    have hiff : f e ∈ ((l.take budget).filter due).map f ↔ due e := by
      constructor
      · intro hm
        obtain ⟨x, hx, hfx⟩ := List.mem_map.1 hm
        obtain ⟨hmem, hdue⟩ := List.mem_filter.1 hx
        rwa [← List.inj_on_of_nodup_map hfront hmem he hfx]
      · exact fun hd => List.mem_map.2 ⟨e, List.mem_filter.2 ⟨he, hd⟩, rfl⟩
    simp [hiff]
  have hdrop : (l.drop budget).filter (fun e => f e ∉ ((l.take budget).filter due).map f) = l.drop budget := by
    refine List.filter_eq_self.2 fun e he => ?_
    rw [decide_eq_true_eq]
    intro hm
    obtain ⟨x, hx, hfx⟩ := List.mem_map.1 hm
    exact hapart _ (List.mem_map_of_mem (List.mem_filter.1 hx).1) _ (List.mem_map_of_mem he) hfx
  calc l.filter (fun e => f e ∉ ((l.take budget).filter due).map f)
      = (l.take budget ++ l.drop budget).filter fun e => f e ∉ ((l.take budget).filter due).map f := by
        rw [List.take_append_drop]
    _ = reap due budget l := by rw [List.filter_append, htake, hdrop, reap]

/-- A due entry that is too far back is as far back in the next round. -/
theorem reap_behind {front : List α} (rest : List α) (e : α) (h : budget ≤ front.countP fun x => !due x) :
    ∃ front', reap due budget (front ++ e :: rest) = front' ++ e :: rest ∧ budget ≤ front'.countP fun x => !due x := by
  have hlen : budget ≤ front.length := Nat.le_trans h List.countP_le_length
  refine ⟨reap due budget front, ?_, ?_⟩
  · rw [reap, reap, List.take_append_of_le_length hlen, List.drop_append_of_le_length hlen, List.append_assoc]
  · rwa [List.countP_eq_length_filter, reap_kept, ← List.countP_eq_length_filter]

/-- Of what is within reach the first goes. -/
theorem reap_progress (h : WithinReach due budget l) (hdue : ∃ e ∈ l, due e) :
    (reap due budget l).countP due < l.countP due := by
  obtain ⟨e, he⟩ : ∃ e, l.find? due = some e := by
    rwa [← Option.isSome_iff_exists, List.find?_isSome]
  obtain ⟨hd, front, rest, rfl, hfront⟩ := List.find?_eq_some_iff_append.1 he
  have hreach := h front e rest rfl hd
  rw [List.countP_eq_length.2 hfront] at hreach
  have hmem : e ∈ (front ++ e :: rest).take budget := by
    obtain ⟨b, rfl⟩ : ∃ b, budget = front.length + (b + 1) := ⟨budget - front.length - 1, by omega⟩
    rw [List.take_length_add_append, List.take_succ_cons]
    simp
  have hpos : 0 < ((front ++ e :: rest).take budget).countP due := List.countP_pos_iff.2 ⟨e, hmem, hd⟩
  have hgone : ((((front ++ e :: rest).take budget).filter fun x => !due x).countP due) = 0 := by
    simp [List.countP_eq_zero]
  calc (reap due budget (front ++ e :: rest)).countP due
      = ((front ++ e :: rest).drop budget).countP due := by rw [reap, List.countP_append, hgone, Nat.zero_add]
    _ < ((front ++ e :: rest).take budget).countP due + ((front ++ e :: rest).drop budget).countP due := by omega
    _ = (front ++ e :: rest).countP due := by rw [← List.countP_append, List.take_append_drop]

/-- What is within reach stays within reach. -/
theorem WithinReach.reap (h : WithinReach due budget l) : WithinReach due budget (Lib.reap due budget l) := by
  intro front e rest hl hd
  have hnot : e ∉ (l.take budget).filter fun x => !due x := by simp [hd]
  rcases List.append_eq_append_iff.1 hl with ⟨mid, rfl, hdrop⟩ | ⟨mid, hfront, hrest⟩
  · have hback := h (l.take budget ++ mid) e rest (by rw [List.append_assoc, ← hdrop, List.take_append_drop]) hd
    simpa [List.countP_append, List.countP_filter] using hback
  · cases mid with
    | nil =>
      have hback := h (l.take budget) e rest (by rw [hrest, List.nil_append, List.take_append_drop]) hd
      rw [List.append_nil] at hfront
      simpa [← hfront, List.countP_filter] using hback
    | cons x mid =>
      obtain ⟨rfl, -⟩ := List.cons.inj hrest
      exact absurd (hfront ▸ by simp) hnot

theorem WithinReach.iterate (h : WithinReach due budget l) (n : ℕ) : WithinReach due budget ((Lib.reap due budget)^[n] l) := by
  induction n with
  | zero => exact h
  | succ n ih => exact Function.iterate_succ_apply' _ n l ▸ ih.reap

theorem reap_behind_iterate {front : List α} (rest : List α) (e : α) (h : budget ≤ front.countP fun x => !due x) (n : ℕ) :
    e ∈ (reap due budget)^[n] (front ++ e :: rest) := by
  induction n generalizing front with
  | zero => simp
  | succ n ih =>
    obtain ⟨front', heq, h'⟩ := reap_behind rest e h
    rw [Function.iterate_succ_apply, heq]
    exact ih h'

/-- Rounds enough remove all that is due exactly when all of it is within reach. -/
theorem reaped_iff : (∃ n, ∀ e ∈ (Lib.reap due budget)^[n] l, due e = false) ↔ WithinReach due budget l := by
  constructor
  · rintro ⟨n, hn⟩ front e rest rfl hd
    by_contra hfar
    have := hn e (reap_behind_iterate rest e (Nat.not_lt.1 hfar) n)
    simp [hd] at this
  · intro h
    induction hc : l.countP due using Nat.strongRecOn generalizing l with
    | _ c ih =>
      by_cases hdue : ∃ e ∈ l, due e
      · obtain ⟨n, hn⟩ := ih _ (hc ▸ reap_progress h hdue) h.reap rfl
        exact ⟨n + 1, hn⟩
      · exact ⟨0, fun e he => by simpa using fun hd => hdue ⟨e, he, hd⟩⟩

end BlazeKV.Lib
