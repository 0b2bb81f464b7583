import Mathlib.Algebra.BigOperators.Group.Finset.Basic
import Mathlib.Data.Fintype.BigOperators

/-! Actors that post messages to each other's queues. An actor takes its whole
queue as a batch, and works through the batch before it takes the next one. -/

namespace BlazeKV.Lib

structure Actor (σ μ : Type) where
  state : σ
  batch : List μ
  queue : List μ

namespace Actor

variable {σ μ : Type}

/-- What the actor still has to work through, in order. -/
def held (a : Actor σ μ) : List μ := a.batch ++ a.queue

def take (a : Actor σ μ) : Actor σ μ := { a with batch := a.batch ++ a.queue, queue := [] }

@[simp] theorem held_take (a : Actor σ μ) : a.take.held = a.held := List.append_nil _

end Actor

/-- A network, and posts by target. -/
abbrev Net (ι σ μ : Type) := ι → Actor σ μ

namespace Net

variable {ι σ μ : Type} [DecidableEq ι] (net : Net ι σ μ) (posts : List (ι × μ)) (i : ι)

def postedTo : List μ := (posts.filter fun p => p.1 = i).map Prod.snd

def deliver : Net ι σ μ := fun i => { net i with queue := (net i).queue ++ postedTo posts i }

@[simp] theorem deliver_state : (net.deliver posts i).state = (net i).state := rfl

@[simp] theorem deliver_batch : (net.deliver posts i).batch = (net i).batch := rfl

@[simp] theorem deliver_held : (net.deliver posts i).held = (net i).held ++ postedTo posts i :=
  (List.append_assoc _ _ _).symm

@[simp] theorem deliver_nil : net.deliver [] = net := by
  funext i
  simp [deliver, postedTo]

@[simp] theorem postedTo_nil : postedTo ([] : List (ι × μ)) i = [] := rfl

@[simp] theorem postedTo_cons (p : ι × μ) :
    postedTo (p :: posts) i = if p.1 = i then p.2 :: postedTo posts i else postedTo posts i := by
  unfold postedTo
  by_cases h : p.1 = i <;> simp [h]

@[simp] theorem postedTo_append (posts' : List (ι × μ)) :
    postedTo (posts ++ posts') i = postedTo posts i ++ postedTo posts' i := by
  simp [postedTo]

variable [Fintype ι] (p : ι → μ → Bool)

/-- How many messages in flight have a property, which may depend on where they are. -/
def count : ℕ := ∑ i, (net i).held.countP (p i)

theorem count_update (a : Actor σ μ) :
    count (Function.update net i a) p + (net i).held.countP (p i) =
      net.count p + a.held.countP (p i) := by
  unfold count
  rw [← Finset.add_sum_erase _ _ (Finset.mem_univ i), ← Finset.add_sum_erase (a := i) _
    (fun j => (net j).held.countP (p j)) (Finset.mem_univ i)]
  have : ∑ j ∈ Finset.univ.erase i, (Function.update net i a j).held.countP (p j) =
      ∑ j ∈ Finset.univ.erase i, (net j).held.countP (p j) := by
    refine Finset.sum_congr rfl fun j hj => ?_
    rw [Function.update_of_ne (Finset.ne_of_mem_erase hj)]
  rw [this, Function.update_self]
  omega

theorem sum_countP_postedTo :
    ∑ i, (postedTo posts i).countP (p i) = posts.countP fun e => p e.1 e.2 := by
  induction posts with
  | nil => simp
  | cons e posts ih =>
    have hsplit : ∀ i, (postedTo (e :: posts) i).countP (p i) =
        (postedTo posts i).countP (p i) + if e.1 = i then (if p i e.2 then 1 else 0) else 0 := by
      intro i
      rw [postedTo_cons]
      by_cases h : e.1 = i <;> simp [h, List.countP_cons]
    simp only [hsplit, Finset.sum_add_distrib, ih, Finset.sum_ite_eq, Finset.mem_univ, if_true,
      List.countP_cons]

theorem count_deliver : (net.deliver posts).count p =
    net.count p + posts.countP fun e => p e.1 e.2 := by
  simp only [count, deliver_held, List.countP_append, Finset.sum_add_distrib, sum_countP_postedTo]

omit [DecidableEq ι] in
theorem count_eq_zero (h : ∀ i, (net i).held = []) : net.count p = 0 := by
  simp [count, h]

end Net

end BlazeKV.Lib
