import Mathlib.Logic.Function.Basic
import Mathlib.Data.List.Nodup

/-! Singly linked lists in a memory of nodes, told by the addresses and the values
of their nodes from the front. -/

namespace BlazeKV.Lib

structure Node (ι τ : Type) where
  next : Option ι
  value : τ

/-- `none` where no node is allocated. -/
abbrev Memory (ι τ : Type) := ι → Option (Node ι τ)

namespace Memory

variable {ι τ : Type}

/-- From `p`, the nodes of `l` are linked one after the other, and none after them. -/
inductive Linked (m : Memory ι τ) : Option ι → List (ι × τ) → Prop
  | nil : Linked m none []
  | cons {a : ι} {n : Node ι τ} {l : List (ι × τ)} (ha : m a = some n) (hl : Linked m n.next l) :
      Linked m (some a) ((a, n.value) :: l)

namespace Linked

variable {m : Memory ι τ} {p : Option ι} {l : List (ι × τ)} {a : ι}

theorem of_none (h : Linked m none l) : l = [] := by
  cases h
  rfl

theorem of_some (h : Linked m (some a) l) :
    ∃ n l', m a = some n ∧ l = (a, n.value) :: l' ∧ Linked m n.next l' := by
  cases h with
  | cons ha hl => exact ⟨_, _, ha, rfl, hl⟩

theorem allocated (h : Linked m p l) (ha : a ∈ l.map Prod.fst) : (m a).isSome := by
  induction h with
  | nil => simp at ha
  | cons hb _ ih =>
    rw [List.map_cons, List.mem_cons] at ha
    rcases ha with rfl | ha
    · simp [hb]
    · exact ih ha

/-- Writing to another node leaves a list as it is. -/
theorem update [DecidableEq ι] (h : Linked m p l) (ha : a ∉ l.map Prod.fst) (n : Option (Node ι τ)) :
    Linked (Function.update m a n) p l := by
  induction h with
  | nil => exact .nil
  | cons hb _ ih =>
    rw [List.map_cons, List.mem_cons, not_or] at ha
    refine .cons ?_ (ih ha.2)
    rw [Function.update_of_ne (Ne.symm ha.1), hb]

/-- Linking a node to the front of a list. -/
theorem push [DecidableEq ι] (h : Linked m p l) (ha : a ∉ l.map Prod.fst) (v : τ) :
    Linked (Function.update m a (some ⟨p, v⟩)) (some a) ((a, v) :: l) :=
  .cons (n := ⟨p, v⟩) (Function.update_self _ _ _) (h.update ha _)

end Linked

end Memory

end BlazeKV.Lib
