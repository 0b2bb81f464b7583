import Mathlib.Data.List.Basic

/-! Readers of a sequence: what is read, and what is left behind it. A reader that ignores
what follows, on an encoding of which it reads all or fails, takes no proper prefix of it. -/

namespace BlazeKV.Lib

abbrev Reader (β α : Type) := List β → Option (α × List β)

variable {β α α' : Type}

namespace Reader

def bind (f : Reader β α) (g : α → Reader β α') : Reader β α' := fun s => (f s).bind fun r => g r.1 r.2

def map (k : α → α') (f : Reader β α) : Reader β α' := fun s => (f s).map fun r => (k r.1, r.2)

def fail : Reader β α := fun _ => none

end Reader

/-- What follows does not matter. -/
def Extends (f : Reader β α) : Prop := ∀ s a r t, f s = some (a, r) → f (s ++ t) = some (a, r ++ t)

/-- In front of anything, the reader fails or reads `x` to its end. -/
def Covers (f : Reader β α) (x : List β) : Prop := ∀ s a r, f (x ++ s) = some (a, r) → r = s

/-- In front of anything, the reader reads `x`. -/
def Takes (f : Reader β α) (x : List β) : Prop := ∀ s, ∃ a, f (x ++ s) = some (a, s)

section Compose

variable {f : Reader β α} {g : α → Reader β α'} {x y : List β}

theorem extends_fail : Extends (Reader.fail : Reader β α) := fun s a r t h => by cases h

theorem covers_fail (x : List β) : Covers (Reader.fail : Reader β α) x := fun s a r h => by cases h

theorem Extends.bind (hf : Extends f) (hg : ∀ a, Extends (g a)) : Extends (f.bind g) := by
  intro s b r t h
  obtain ⟨⟨a, u⟩, hu, hr⟩ := Option.bind_eq_some_iff.1 h
  exact Option.bind_eq_some_iff.2 ⟨(a, u ++ t), hf s a u t hu, hg a u b r t hr⟩

theorem Extends.map (hf : Extends f) (k : α → α') : Extends (f.map k) := by
  intro s b r t h
  obtain ⟨⟨a, u⟩, hu, hr⟩ := Option.map_eq_some_iff.1 h
  obtain ⟨rfl, rfl⟩ := Prod.mk.inj hr
  exact Option.map_eq_some_iff.2 ⟨(a, u ++ t), hf s a u t hu, rfl⟩

theorem Covers.bind (hf : Covers f x) (hg : ∀ a, Covers (g a) y) : Covers (f.bind g) (x ++ y) := by
  intro s b r h
  rw [List.append_assoc] at h
  obtain ⟨⟨a, u⟩, hu, hr⟩ := Option.bind_eq_some_iff.1 h
  obtain rfl := hf _ _ _ hu
  exact hg a s b r hr

theorem Covers.map (hf : Covers f x) (k : α → α') : Covers (f.map k) x := by
  intro s b r h
  obtain ⟨⟨a, u⟩, hu, hr⟩ := Option.map_eq_some_iff.1 h
  obtain ⟨-, rfl⟩ := Prod.mk.inj hr
  exact hf _ _ _ hu

theorem Takes.covers (h : Takes f x) : Covers f x := by
  intro s a r hr
  obtain ⟨b, hb⟩ := h s
  rw [hb] at hr
  exact (Prod.mk.inj (Option.some.inj hr)).2.symm

/-- A reader whose first part is known to return one value on `x`. -/
theorem Covers.bind_value {a : α} (hf : ∀ s, f (x ++ s) = some (a, s)) (hg : Covers (g a) y) :
    Covers (f.bind g) (x ++ y) := by
  intro s b r h
  rw [Reader.bind, List.append_assoc, hf, Option.bind_some] at h
  exact hg s b r h

/-- A proper prefix is not accepted. -/
theorem Covers.rejects (hf : Covers f x) (he : Extends f) {p : List β} (hp : p <+: x) (hne : p ≠ x) : f p = none := by
  obtain ⟨t, rfl⟩ := hp
  cases hread : f p with
  | none => rfl
  | some r =>
    have hr := he p r.1 r.2 t hread
    have hall := hf [] r.1 (r.2 ++ t) (by rwa [List.append_nil])
    rw [(List.append_eq_nil_iff.1 hall).2, List.append_nil] at hne
    exact absurd rfl hne

end Compose

end BlazeKV.Lib
