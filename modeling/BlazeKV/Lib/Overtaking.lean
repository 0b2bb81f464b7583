import Mathlib.Data.Set.Basic
import Mathlib.Order.Disjoint
import Mathlib.Data.Set.Lattice
import Mathlib.Order.CompletePartialOrder
import BlazeKV.Lib.Actors
import BlazeKV.Lib.Machine

/-! Operations on a store that use only some of its keys, and queues of them. An operation
that overtakes a queue leaves it, and finds, what it would have left and found behind it,
when it is apart from each operation of the queue. -/

namespace BlazeKV.Lib

variable {ε σ κ ν ρ α : Type}

section Local

variable (view : σ → κ → ν) (good : σ → Prop)

/-- The same values under the keys of a set. -/
def SameOn (J : Set κ) (s s' : σ) : Prop := ∀ k ∈ J, view s k = view s' k

/-- An operation that uses only the keys `K`, whatever its environment. -/
structure Local (f : ε → σ → σ × ρ) (K : Set κ) : Prop where
  keeps : ∀ e s, good s → good (f e s).1
  frame : ∀ e s, good s → ∀ k, k ∉ K → view (f e s).1 k = view s k
  same : ∀ e e' s s', good s → good s' → SameOn view K s s' →
    (f e s).2 = (f e' s').2 ∧ SameOn view K (f e s).1 (f e' s').1

/-- An operation that changes nothing. -/
def Reading (f : ε → σ → σ × ρ) : Prop := ∀ e s, good s → ∀ k, view (f e s).1 k = view s k

/-- Two operations of which neither can tell whether the other one comes first. -/
def Apart (f : ε → σ → σ × ρ) (K : Set κ) (g : ε → σ → σ × ρ) (L : Set κ) : Prop :=
  Disjoint K L ∨ (Reading view good f ∧ Reading view good g)

variable {view good} {f g : ε → σ → σ × ρ} {J K L : Set κ} {s s' u u' : σ}

theorem SameOn.refl (J : Set κ) (s : σ) : SameOn view J s s := fun _ _ => rfl

theorem SameOn.symm (h : SameOn view J s s') : SameOn view J s' s := fun k hk => (h k hk).symm

theorem SameOn.trans (h : SameOn view J s s') (h' : SameOn view J s' u) : SameOn view J s u :=
  fun k hk => (h k hk).trans (h' k hk)

/-- An operation that is a function of what the store holds. -/
theorem Local.of_view {W : (κ → ν) → κ → ν} {R : (κ → ν) → ρ} (hgood : ∀ e s, good s → good (f e s).1)
    (hview : ∀ e s, good s → ∀ k, view (f e s).1 k = W (view s) k) (hans : ∀ e s, good s → (f e s).2 = R (view s))
    (hframe : ∀ m k, k ∉ K → W m k = m k)
    (hsame : ∀ m m' : κ → ν, (∀ k ∈ K, m k = m' k) → R m = R m' ∧ ∀ k ∈ K, W m k = W m' k) : Local view good f K := by
  refine ⟨hgood, fun e s hs k hk => ?_, fun e e' s s' hs hs' h => ?_⟩
  · rw [hview e s hs, hframe _ k hk]
  · obtain ⟨hR, hW⟩ := hsame _ _ h
    refine ⟨by rw [hans e s hs, hans e' s' hs', hR], fun k hk => ?_⟩
    rw [hview e s hs, hview e' s' hs', hW k hk]

/-- What an operation finds and leaves depends on the keys that it uses. -/
theorem Local.sameOn (hf : Local view good f K) (hK : K ⊆ J) (hs : good s) (hs' : good s') (h : SameOn view J s s')
    (e e' : ε) : (f e s).2 = (f e' s').2 ∧ SameOn view J (f e s).1 (f e' s').1 := by
  obtain ⟨hans, hsame⟩ := hf.same e e' s s' hs hs' fun k hk => h k (hK hk)
  refine ⟨hans, fun k hk => ?_⟩
  by_cases hmem : k ∈ K
  · exact hsame k hmem
  · rw [hf.frame e s hs k hmem, hf.frame e' s' hs' k hmem, h k hk]

/-- Two operations that are apart, in either order. -/
theorem Apart.swap (hf : Local view good f K) (hg : Local view good g L) (h : Apart view good f K g L) (hs : good s)
    (e e' : ε) : (g e' (f e s).1).2 = (g e' s).2 ∧ (f e (g e' s).1).2 = (f e s).2 ∧
      ∀ k, view (g e' (f e s).1).1 k = view (f e (g e' s).1).1 k := by
  have hfs := hf.keeps e s hs
  have hgs := hg.keeps e' s hs
  rcases h with hdis | ⟨hrf, hrg⟩
  · have hL : SameOn view L (f e s).1 s := fun k hk => hf.frame e s hs k fun hK => Set.disjoint_left.1 hdis hK hk
    have hK : SameOn view K (g e' s).1 s := fun k hk => hg.frame e' s hs k fun hL => Set.disjoint_left.1 hdis hk hL
    obtain ⟨hansg, hg'⟩ := hg.same e' e' _ _ hfs hs hL
    obtain ⟨hansf, hf'⟩ := hf.same e e _ _ hgs hs hK
    refine ⟨hansg, hansf, fun k => ?_⟩
    by_cases hkL : k ∈ L
    · have hkK : k ∉ K := fun hK => Set.disjoint_left.1 hdis hK hkL
      rw [hg' k hkL, hf.frame e _ hgs k hkK]
    · rw [hg.frame e' _ hfs k hkL]
      by_cases hkK : k ∈ K
      · rw [hf' k hkK]
      · rw [hf.frame e s hs k hkK, hf.frame e _ hgs k hkK, hg.frame e' s hs k hkL]
  · refine ⟨(hg.same e' e' _ _ hfs hs fun k _ => hrf e s hs k).1, (hf.same e e _ _ hgs hs fun k _ => hrg e' s hs k).1,
      fun k => ?_⟩
    rw [hrg e' _ hfs, hrf e s hs, hrf e _ hgs, hrg e' s hs]

end Local

section Queues

variable (view : σ → κ → ν) (op : α → ε → σ → σ × ρ) (answer : α → ρ) (J : Set κ)

/-- The operations of a queue give the answers that are expected of them, whatever their
environments, and end with what `u` has under the keys `J`. -/
def Leads : σ → List α → σ → Prop
  | s, [], u => SameOn view J s u
  | s, a :: as, u => ∀ e, (op a e s).2 = answer a ∧ Leads (op a e s).1 as u

variable {view op answer J} {good : σ → Prop} {uses : α → Set κ} {s s' u u' : σ} {as : List α}

theorem Leads.target (h : Leads view op answer J s as u) (hu : SameOn view J u u') : Leads view op answer J s as u' := by
  induction as generalizing s with
  | nil => exact SameOn.trans h hu
  | cons a as ih => exact fun e => ⟨(h e).1, ih (h e).2⟩

theorem Leads.answers {answer' : α → ρ} (h : Leads view op answer J s as u) (ha : ∀ a ∈ as, answer a = answer' a) :
    Leads view op answer' J s as u := by
  induction as generalizing s with
  | nil => exact h
  | cons a as ih =>
    exact fun e => ⟨(h e).1.trans (ha a List.mem_cons_self), ih (h e).2 fun b hb => ha b (List.mem_cons_of_mem _ hb)⟩

/-- Each operation of the queue uses its keys, all in `J`. -/
def Within (view : σ → κ → ν) (good : σ → Prop) (op : α → ε → σ → σ × ρ) (uses : α → Set κ) (J : Set κ) (as : List α) :
    Prop := ∀ a ∈ as, Local view good (op a) (uses a) ∧ uses a ⊆ J

theorem Within.tail {a : α} (h : Within view good op uses J (a :: as)) : Within view good op uses J as :=
  fun b hb => h b (List.mem_cons_of_mem _ hb)

theorem Leads.congr (hin : Within view good op uses J as) (hs : good s) (hs' : good s') (heq : SameOn view J s s')
    (h : Leads view op answer J s as u) : Leads view op answer J s' as u := by
  induction as generalizing s s' with
  | nil => exact heq.symm.trans h
  | cons a as ih =>
    intro e
    obtain ⟨hlocal, hsub⟩ := hin a List.mem_cons_self
    obtain ⟨hans, hsame⟩ := hlocal.sameOn hsub hs hs' heq e e
    exact ⟨hans.symm.trans (h e).1, ih hin.tail (hlocal.keeps e s hs) (hlocal.keeps e s' hs') hsame (h e).2⟩

/-- One operation more at the end. -/
theorem Leads.snoc {a : α} (hin : Within view good op uses J (as ++ [a])) (hs : good s) (hu : good u)
    (h : Leads view op answer J s as u) (e : ε) (ha : (op a e u).2 = answer a) :
    Leads view op answer J s (as ++ [a]) (op a e u).1 := by
  induction as generalizing s with
  | nil =>
    intro e'
    obtain ⟨hlocal, hsub⟩ := hin a List.mem_cons_self
    obtain ⟨hans, hsame⟩ := hlocal.sameOn hsub hs hu h e' e
    exact ⟨hans.trans ha, hsame⟩
  | cons b as ih =>
    intro e'
    exact ⟨(h e').1, ih hin.tail ((hin b List.mem_cons_self).1.keeps e' s hs) (h e').2⟩

/-- An operation that overtakes the queue. -/
theorem Leads.overtake [Nonempty ε] {f : ε → σ → σ × ρ} {K : Set κ} (hf : Local view good f K) (hK : K ⊆ J)
    (hin : Within view good op uses J as) (hap : ∀ a ∈ as, Apart view good f K (op a) (uses a)) (hs : good s) (hu : good u)
    (h : Leads view op answer J s as u) (e e' : ε) :
    (f e s).2 = (f e' u).2 ∧ Leads view op answer J (f e s).1 as (f e' u).1 := by
  induction as generalizing s with
  | nil => exact hf.sameOn hK hs hu h e e'
  | cons a as ih =>
    have hlocal := (hin a List.mem_cons_self).1
    have hrest := fun x => ih hin.tail (fun b hb => hap b (List.mem_cons_of_mem _ hb)) (hlocal.keeps x s hs) (h x).2
    refine ⟨?_, fun x => ?_⟩
    · obtain ⟨x⟩ := ‹Nonempty ε›
      rw [← ((hap a List.mem_cons_self).swap hf hlocal hs e x).2.1]
      exact (hrest x).1
    · obtain ⟨hans, -, hview⟩ := (hap a List.mem_cons_self).swap hf hlocal hs e x
      refine ⟨hans.trans (h x).1, ?_⟩
      exact (hrest x).2.congr hin.tail (hf.keeps e _ (hlocal.keeps x s hs)) (hlocal.keeps x _ (hf.keeps e s hs))
        fun k _ => (hview k).symm

end Queues

section Owners

variable {view : σ → κ → ν} {good : σ → Prop} {op : α → ε → σ → σ × ρ} {answer : α → ρ} {uses : α → Set κ}
variable {ι : Type} {owner : κ → ι} {s : ι → σ} {as : ι → List α} {u : σ}

/-- The keys of one owner. -/
abbrev ownedBy (owner : κ → ι) (j : ι) : Set κ := {k | owner k = j}

/-- An operation on the keys of one owner leaves those of the others. -/
theorem Local.others {f : ε → σ → σ × ρ} {K : Set κ} {i j : ι} (hf : Local view good f K) (hK : K ⊆ ownedBy owner i)
    (hj : j ≠ i) (hu : good u) (e : ε) : SameOn view (ownedBy owner j) u (f e u).1 := by
  intro k hk
  refine (hf.frame e u hu k fun hmem => hj ?_).symm
  have hi : owner k = i := hK hmem
  exact Eq.trans (Eq.symm hk) hi

variable [DecidableEq ι]

/-- Operations that are put at the ends of the queues of their owners. -/
theorem Leads.posts (ps : List (ι × α)) (hin : ∀ j, Within view good op uses (ownedBy owner j) (as j))
    (hps : ∀ p ∈ ps, Local view good (op p.2) (uses p.2) ∧ uses p.2 ⊆ ownedBy owner p.1) (hs : ∀ j, good (s j)) (hu : good u)
    (h : ∀ j, Leads view op answer (ownedBy owner j) (s j) (as j) u) (e : ε)
    (hans : (runTotal (fun s a => op a e s) u (ps.map Prod.snd)).2 = (ps.map Prod.snd).map answer) (j : ι) :
    Leads view op answer (ownedBy owner j) (s j) (as j ++ Net.postedTo ps j)
      (runTotal (fun s a => op a e s) u (ps.map Prod.snd)).1 := by
  induction ps generalizing as u with
  | nil => simpa [runTotal] using h j
  | cons p ps ih =>
    obtain ⟨hlocal, hsub⟩ := hps p List.mem_cons_self
    obtain ⟨hfirst, hrest⟩ := List.cons.inj hans
    have hin' : ∀ j, Within view good op uses (ownedBy owner j) (as j ++ if j = p.1 then [p.2] else []) := by
      intro j a ha
      rcases List.mem_append.1 ha with ha | ha
      · exact hin j a ha
      · split_ifs at ha with hj
        · obtain rfl := List.mem_singleton.1 ha
          exact hj ▸ ⟨hlocal, hsub⟩
        · cases ha
    have hnext := ih hin' (fun q hq => hps q (List.mem_cons_of_mem _ hq)) (hlocal.keeps e u hu) (fun j => ?_) hrest
    · have hpost : (if j = p.1 then [p.2] else []) ++ Net.postedTo ps j = Net.postedTo (p :: ps) j := by
        rw [Net.postedTo_cons]
        by_cases hj : p.1 = j
        · simp [hj]
        · simp [hj, Ne.symm hj]
      rw [List.append_assoc, hpost] at hnext
      exact hnext
    · have hj' := hin' j
      split_ifs at hj' ⊢ with hj
      · exact (h j).snoc hj' (hs j) hu e hfirst
      · rw [List.append_nil]
        exact (h j).target (hlocal.others hsub hj hu e)

end Owners

end BlazeKV.Lib
