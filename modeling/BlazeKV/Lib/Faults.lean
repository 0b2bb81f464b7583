import Mathlib.Data.List.Range
import Mathlib.Data.List.Basic

/-! Programs that stop at a fault: accesses that may fail, and loops over them that do what loops
without faults do. -/

namespace BlazeKV.Lib

variable {ε α β σ : Type}

/-- `l[i]`; an index past the end is a fault. -/
def readAt (e : ε) (l : List α) (i : ℕ) : Except ε α :=
  match l[i]? with
  | some a => .ok a
  | none => .error e

/-- The value of an option that must not be empty. -/
def need (e : ε) : Option α → Except ε α
  | some a => .ok a
  | none => .error e

/-- What must hold where the program goes on. -/
def require (e : ε) (p : Prop) [Decidable p] : Except ε Unit := if p then .ok () else .error e

/-- `for (i = start; i < n; ++i)` over the elements of `l`. -/
def forFrom (e : ε) (l : List α) (start : ℕ) (body : σ → α → Except ε σ) (s : σ) : Except ε σ :=
  (List.range' start (l.length - start)).foldlM (fun s i => do body s (← readAt e l i)) s

/-- `for (i = start; i + 1 < n; i += 2)` over neighbours. -/
def forPairs (e : ε) (l : List α) (start : ℕ) (body : σ → α × α → Except ε σ) (s : σ) : Except ε σ :=
  (List.range' start ((l.length - start) / 2) 2).foldlM
    (fun s i => do body s (← readAt e l i, ← readAt e l (i + 1))) s

@[simp] theorem ok_bind (a : α) (f : α → Except ε β) : (Except.ok a >>= f) = f a := rfl
@[simp] theorem pure_eq_ok (a : α) : (pure a : Except ε α) = .ok a := rfl

section Accesses

variable {e : ε} {l : List α} {i : ℕ}

theorem readAt_of_lt (h : i < l.length) : readAt e l i = .ok l[i] := by
  simp [readAt, h]

theorem readAt_getD (h : i < l.length) (d : α) : readAt e l i = .ok (l.getD i d) := by
  simp [readAt, List.getD, h]

theorem need_of_eq {o : Option α} {a : α} (h : o = some a) : need e o = .ok a := by
  rw [h]
  rfl

theorem require_of {p : Prop} [Decidable p] (h : p) : require e p = .ok () := if_pos h

end Accesses

section Loops

/-- A loop whose rounds meet no fault, with what the rounds keep. -/
theorem foldlM_ok (I : σ → Prop) {f : σ → α → σ} {g : σ → α → Except ε σ} (xs : List α) {s : σ} (hs : I s)
    (h : ∀ s, I s → ∀ x ∈ xs, g s x = .ok (f s x) ∧ I (f s x)) :
    xs.foldlM g s = .ok (xs.foldl f s) ∧ I (xs.foldl f s) := by
  induction xs generalizing s with
  | nil => exact ⟨rfl, hs⟩
  | cons x xs ih =>
    obtain ⟨hx, hI⟩ := h s hs x List.mem_cons_self
    rw [List.foldlM_cons, hx]
    exact ih hI fun s hs y hy => h s hs y (List.mem_cons_of_mem x hy)

theorem foldlM_pure {f : σ → α → σ} {g : σ → α → Except ε σ} (xs : List α) (s : σ)
    (h : ∀ s, ∀ x ∈ xs, g s x = .ok (f s x)) : xs.foldlM g s = .ok (xs.foldl f s) :=
  (foldlM_ok (fun _ => True) xs trivial fun s _ x hx => ⟨h s x hx, trivial⟩).1

/-- A loop whose rounds all end well and keep what they need. -/
theorem foldlM_keeps (I : σ → Prop) {g : σ → α → Except ε σ} (xs : List α) {s : σ} (hs : I s)
    (h : ∀ s, I s → ∀ x ∈ xs, ∃ s', g s x = .ok s' ∧ I s') : ∃ s', xs.foldlM g s = .ok s' ∧ I s' := by
  induction xs generalizing s with
  | nil => exact ⟨s, rfl, hs⟩
  | cons x xs ih =>
    obtain ⟨s', hx, hI⟩ := h s hs x List.mem_cons_self
    rw [List.foldlM_cons, hx]
    exact ih hI fun s hs y hy => h s hs y (List.mem_cons_of_mem x hy)

/-- A loop over the numbers below `n`, each round in the state that the rounds before it leave. -/
theorem foldlM_range_ok {f : σ → ℕ → σ} {g : σ → ℕ → Except ε σ} (n : ℕ) (s : σ)
    (h : ∀ i < n, g ((List.range i).foldl f s) i = .ok (f ((List.range i).foldl f s) i)) :
    (List.range n).foldlM g s = .ok ((List.range n).foldl f s) := by
  induction n with
  | zero => rfl
  | succ n ih =>
    rw [List.range_succ, List.foldlM_append, ih fun i hi => h i (by omega), List.foldl_append]
    exact (bind_pure _).trans (h n (by omega))

theorem mapM_ok {f : α → β} {g : α → Except ε β} (xs : List α) (h : ∀ x ∈ xs, g x = .ok (f x)) :
    xs.mapM g = .ok (xs.map f) := by
  induction xs with
  | nil => rfl
  | cons x xs ih =>
    rw [List.mapM_cons, h x List.mem_cons_self, ok_bind, ih fun y hy => h y (List.mem_cons_of_mem x hy)]
    rfl

/-- A loop over the indexes reads the elements in order. -/
theorem forFrom_eq (e : ε) (l : List α) (start : ℕ) (body : σ → α → Except ε σ) (s : σ) :
    forFrom e l start body s = (l.drop start).foldlM body s := by
  unfold forFrom
  generalize hn : l.length - start = n
  induction n generalizing start s with
  | zero => rw [List.drop_eq_nil_of_le (by omega)]; rfl
  | succ n ih =>
    have hlt : start < l.length := by omega
    rw [List.range'_succ, List.foldlM_cons, readAt_of_lt hlt, List.drop_eq_getElem_cons hlt, List.foldlM_cons]
    refine congrArg (body s l[start] >>= ·) (funext fun s' => ?_)
    exact ih (start + 1) s' (by omega)

theorem range_mapM (e : ε) (l : List α) (start n : ℕ) (h : start + n ≤ l.length) :
    (List.range' start n).mapM (readAt e l) = .ok ((l.drop start).take n) := by
  induction n generalizing start with
  | zero => simp
  | succ n ih =>
    have hlt : start < l.length := by omega
    rw [List.range'_succ, List.mapM_cons, readAt_of_lt hlt, ok_bind, ih (start + 1) (by omega), List.drop_eq_getElem_cons hlt]
    rfl

/-- A loop that collects some of what it sees. -/
theorem foldl_filter_map (p : α → Bool) (f : α → β) (xs : List α) (out : List β) :
    xs.foldl (fun out x => if p x then out ++ [f x] else out) out = out ++ (xs.filter p).map f := by
  induction xs generalizing out with
  | nil => simp
  | cons x xs ih =>
    rw [List.foldl_cons, ih]
    cases hp : p x <;> simp [hp]

end Loops

/-! What a program that has ended without a fault has done. -/

section Outcomes

variable {e : ε}

theorem of_bind_ok {x : Except ε α} {f : α → Except ε β} {b : β} (h : (x >>= f) = .ok b) : ∃ a, x = .ok a ∧ f a = .ok b := by
  cases x with
  | error e => cases h
  | ok a => exact ⟨a, rfl, h⟩

theorem of_readAt {l : List α} {i : ℕ} {a : α} (h : readAt e l i = .ok a) : l[i]? = some a := by
  unfold readAt at h
  cases hl : l[i]? with
  | none =>
    rw [hl] at h
    cases h
  | some b =>
    rw [hl] at h
    rw [Except.ok.inj h]

theorem of_require {p : Prop} [Decidable p] {u : Unit} (h : require e p = .ok u) : p := by
  by_contra hp
  rw [require, if_neg hp] at h
  cases h

/-- What the rounds keep, the loop keeps. -/
theorem of_foldlM (I : σ → Prop) {g : σ → α → Except ε σ} {xs : List α} {s s' : σ} (h : xs.foldlM g s = .ok s') (hs : I s)
    (hround : ∀ s s', I s → ∀ x ∈ xs, g s x = .ok s' → I s') : I s' := by
  induction xs generalizing s with
  | nil => exact Except.ok.inj h ▸ hs
  | cons x xs ih =>
    rw [List.foldlM_cons] at h
    obtain ⟨s₁, hx, hrest⟩ := of_bind_ok h
    exact ih hrest (hround s s₁ hs x List.mem_cons_self hx) fun s s' hs y hy => hround s s' hs y (List.mem_cons_of_mem x hy)

theorem of_mapM {g : α → Except ε β} {xs : List α} {ys : List β} (h : xs.mapM g = .ok ys) :
    List.Forall₂ (fun x y => g x = .ok y) xs ys := by
  induction xs generalizing ys with
  | nil => exact Except.ok.inj h ▸ .nil
  | cons x xs ih =>
    rw [List.mapM_cons] at h
    obtain ⟨y, hy, h⟩ := of_bind_ok h
    obtain ⟨zs, hzs, h⟩ := of_bind_ok h
    exact Except.ok.inj h ▸ .cons hy (ih hzs)

end Outcomes

end BlazeKV.Lib
