import BlazeKV.Lib.Actors

/-! Rounds of actors. Messages have ranks, and an actor that handles one posts only messages
of a lower rank. When each actor has taken its queue and worked through what it took, the
highest rank in flight is gone; after as many rounds as there are ranks nothing is left. -/

namespace BlazeKV.Lib.Net

variable {ι σ μ ε : Type} [DecidableEq ι] (rank : μ → ℕ)

/-- What a step does to the messages. -/
inductive Works (net net' : Net ι σ μ) : Prop
  | stay (hbatch : ∀ j, (net' j).batch = (net j).batch) (hqueue : ∀ j, (net' j).queue = (net j).queue)
  | take (i : ι) (hbatch : ∀ j, (net' j).batch = if j = i then (net j).held else (net j).batch)
      (hqueue : ∀ j, (net' j).queue = if j = i then [] else (net j).queue)
  | handle (i : ι) (m : μ) (posts : List (ι × μ)) (hhead : (net i).batch = m :: (net' i).batch)
      (hothers : ∀ j, j ≠ i → (net' j).batch = (net j).batch)
      (hqueue : ∀ j, (net' j).queue = (net j).queue ++ postedTo posts j)
      (hlower : ∀ p ∈ posts, rank p.2 < rank m)

/-- All messages in flight have a rank below `r`. -/
def Low (r : ℕ) (net : Net ι σ μ) : Prop := ∀ i, ∀ m ∈ (net i).held, rank m < r

variable {rank} {net net' : Net ι σ μ} {r : ℕ}

theorem mem_postedTo {posts : List (ι × μ)} {j : ι} {m : μ} (h : m ∈ postedTo posts j) :
    (j, m) ∈ posts := by
  obtain ⟨p, hp, rfl⟩ := List.mem_map.1 h
  obtain ⟨hmem, hto⟩ := List.mem_filter.1 hp
  obtain rfl := of_decide_eq_true hto
  exact hmem

/-- A message that stands in a queue after a step stood there before, or is of a lower rank. -/
theorem Works.queue (h : Works rank net net') (hlow : Low rank (r + 1) net) {j : ι} {m : μ}
    (hm : m ∈ (net' j).queue) :
    m ∈ (net j).queue ∨ rank m < r := by
  cases h with
  | stay _ hqueue => exact .inl (hqueue j ▸ hm)
  | take i _ hqueue =>
    rw [hqueue] at hm
    split_ifs at hm with hj
    · cases hm
    · exact .inl hm
  | handle i m' posts hhead _ hqueue hlower =>
    rw [hqueue] at hm
    refine (List.mem_append.1 hm).imp_right fun hpost => ?_
    have hpost := hlower _ (mem_postedTo hpost)
    have hhandled : m' ∈ (net i).held := List.mem_append_left _ (hhead ▸ List.mem_cons_self)
    have := hlow i m' hhandled
    dsimp only at hpost
    omega

theorem Works.held (h : Works rank net net') (hlow : Low rank (r + 1) net) {j : ι} {m : μ}
    (hm : m ∈ (net' j).held) :
    m ∈ (net j).held ∨ rank m < r := by
  rcases List.mem_append.1 hm with hbatch | hqueue
  · refine .inl ?_
    cases h with
    | stay hb _ => exact List.mem_append_left _ (hb j ▸ hbatch)
    | take i hb _ =>
      rw [hb] at hbatch
      split_ifs at hbatch
      · exact hbatch
      · exact List.mem_append_left _ hbatch
    | handle i m' posts hhead hothers _ _ =>
      refine List.mem_append_left _ ?_
      by_cases hj : j = i
      · subst hj
        exact hhead ▸ List.mem_cons_of_mem m' hbatch
      · exact hothers j hj ▸ hbatch
  · exact (h.queue hlow hqueue).imp_left (List.mem_append_right _)

theorem Works.low (h : Works rank net net') (hlow : Low rank (r + 1) net) : Low rank (r + 1) net' := by
  intro j m hm
  rcases h.held hlow hm with hold | hlower
  · exact hlow j m hold
  · omega

section Runs

variable (step : Net ι σ μ → ε → Net ι σ μ)

/-- The actor has an empty queue at some point of the run, and an empty batch later. -/
def Rounded (net : Net ι σ μ) (es : List ε) (i : ι) : Prop :=
  ∃ a b c, es = a ++ b ++ c ∧ (a.foldl step net i).queue = [] ∧ ((a ++ b).foldl step net i).batch = []

/-- One full round after the other. -/
def Rounds (net : Net ι σ μ) : List (List ε) → Prop
  | [] => True
  | es :: rest => (∀ i, Rounded step net es i) ∧ Rounds (es.foldl step net) rest

variable {step} {Good : Net ι σ μ → Prop} {es : List ε}

/-- Each step of a run works, from a good net to a good net. -/
def Working (rank : μ → ℕ) (step : Net ι σ μ → ε → Net ι σ μ) (Good : Net ι σ μ →
    Prop) (es : List ε) : Prop :=
  ∀ net, Good net → ∀ e ∈ es, Good (step net e) ∧ Works rank net (step net e)

theorem Working.mono {fs : List ε} (h : Working rank step Good es) (hsub : ∀ e ∈ fs, e ∈ es) :
    Working rank step Good fs := fun net hg e he => h net hg e (hsub e he)

/-- The run lemma: what working steps preserve. -/
theorem Working.run {P : Net ι σ μ → Prop} (h : Working rank step Good es)
    (hP : ∀ net net', Works rank net net' → P net → P net') (hgood : Good net) (hnet : P net) :
    Good (es.foldl step net) ∧ P (es.foldl step net) := by
  induction es generalizing net with
  | nil => exact ⟨hgood, hnet⟩
  | cons e es ih =>
    obtain ⟨hg, hw⟩ := h net hgood e List.mem_cons_self
    exact ih (h.mono fun _ => List.mem_cons_of_mem e) hg (hP _ _ hw hnet)

/-- In a round of an actor all messages that it held are handled. -/
theorem Working.round {i : ι} (h : Working rank step Good es) (hgood : Good net)
    (hlow : Low rank (r + 1) net)
    (hround : Rounded step net es i) : ∀ m ∈ (es.foldl step net i).held, rank m < r := by
  obtain ⟨a, b, c, rfl, htaken, hdone⟩ := hround
  obtain ⟨hgooda, hlowa⟩ := (h.mono fun e he => List.mem_append_left _ (List.mem_append_left _ he)).run
    (fun _ _ hw hl => hw.low hl) hgood hlow
  -- From here on only lower ranks arrive, so the queue stays low.
  have hqueue : ∀ net net' : Net ι σ μ, Works rank net net' →
      (Low rank (r + 1) net ∧ ∀ m ∈ (net i).queue, rank m < r) →
        Low rank (r + 1) net' ∧ ∀ m ∈ (net' i).queue, rank m < r :=
    fun net net' hw hl => ⟨hw.low hl.1, fun m hm => (hw.queue hl.1 hm).elim (hl.2 m) id⟩
  obtain ⟨hgoodb, hlowb, hqueueb⟩ := (h.mono fun e he =>
    List.mem_append_left _ (List.mem_append_right _ he)).run
    hqueue hgooda ⟨hlowa, by simp [htaken]⟩
  rw [← List.foldl_append] at hgoodb hlowb hqueueb
  -- The batch is empty: all that is held is low, and stays so.
  have hheld : ∀ net net' : Net ι σ μ, Works rank net net' →
      (Low rank (r + 1) net ∧ ∀ m ∈ (net i).held, rank m < r) →
        Low rank (r + 1) net' ∧ ∀ m ∈ (net' i).held, rank m < r :=
    fun net net' hw hl => ⟨hw.low hl.1, fun m hm => (hw.held hl.1 hm).elim (hl.2 m) id⟩
  have hlast := (h.mono fun e he => List.mem_append_right _ he).run hheld hgoodb
    ⟨hlowb, by rw [Actor.held, hdone]; exact hqueueb⟩
  rw [List.foldl_append]
  exact hlast.2.2

/-- After as many rounds as there are ranks nothing is in flight. -/
theorem Rounds.drained {ess : List (List ε)} (hrounds : Rounds step net ess)
    (h : ∀ es ∈ ess, Working rank step Good es) (hgood : Good net) (hlow : Low rank ess.length net) :
    Good (ess.flatten.foldl step net) ∧ ∀ i, (ess.flatten.foldl step net i).held = [] := by
  induction ess generalizing net with
  | nil => exact ⟨hgood, fun i => List.eq_nil_iff_forall_not_mem.2 fun m hm =>
      absurd (hlow i m hm) (Nat.not_lt_zero _)⟩
  | cons es ess ih =>
    have hes := h es List.mem_cons_self
    have hgood' := (hes.run (P := fun _ => True) (fun _ _ _ _ => trivial) hgood trivial).1
    rw [List.flatten_cons, List.foldl_append]
    exact ih hrounds.2 (fun fs hfs => h fs (List.mem_cons_of_mem es hfs)) hgood'
      fun i => hes.round hgood hlow (hrounds.1 i)

end Runs

end BlazeKV.Lib.Net
