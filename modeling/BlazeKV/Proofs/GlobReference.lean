import BlazeKV.Proofs.GlobMatch
import BlazeKV.Spec.Glob

/-! `glob_match` beside what Redis defines. The loop compares the bytes before it looks at what the
byte of the pattern means, so that a `*`, `[` or `\` that meets itself is taken for the byte. -/

namespace BlazeKV.Glob

open Lib Wildcard
open Cmd (GlobState globStep globBack globClass globLoop globMatch)

variable {pat str : Bytes}

theorem getD_of_drop {l : Bytes} {q : ℕ} (h : pat.drop q = l) (i : ℕ) : pat.getD (q + i) 0 = l.getD i 0 := by
  subst h
  simp [List.getD]

theorem lt_of_drop {l : Bytes} {q : ℕ} (h : pat.drop q = l) (hl : l ≠ []) : pat.length = q + l.length := by
  subst h
  have := List.length_pos_iff.2 hl
  rw [List.length_drop] at this ⊢
  omega

section Classes

/-- What the loop over a class finds, up to the first `]`. -/
theorem globClass_body (c : UInt8) (body rest : Bytes) (hbody : 93 ∉ body) (fuel q : ℕ) (matched : Bool)
    (hq : pat.drop q = body ++ 93 :: rest) (hf : body.length < fuel) :
    globClass pat c fuel q matched = (matched || inBody c body, q + body.length) := by
  induction body using inBody.induct generalizing fuel q matched with
  | case1 =>
    obtain ⟨fuel, rfl⟩ : ∃ n, fuel = n + 1 := ⟨fuel - 1, by omega⟩
    have hat := getD_of_drop hq
    have hlen := lt_of_drop hq (by simp)
    have h0 := hat 0
    rw [Nat.add_zero] at h0
    rw [globClass, if_neg fun h => h.2 h0]
    simp [inBody]
  | case2 lo hi body ih =>
    obtain ⟨fuel, rfl⟩ : ∃ n, fuel = n + 1 := ⟨fuel - 1, by omega⟩
    have hat := getD_of_drop hq
    have hlen := lt_of_drop hq (by simp)
    have h0 := hat 0
    rw [Nat.add_zero] at h0
    simp only [List.mem_cons, not_or] at hbody
    have hrange : q + 2 < pat.length ∧ pat.getD (q + 1) 0 = 45 ∧ pat.getD (q + 2) 0 ≠ 93 := by
      rw [hat 1, hat 2]
      exact ⟨by simp [hlen], rfl, Ne.symm hbody.2.2.1⟩
    have hnext : pat.drop (q + 3) = body ++ 93 :: rest := by
      rw [← List.drop_drop, hq]
      rfl
    rw [globClass, if_pos ⟨by simp [hlen], h0 ▸ Ne.symm hbody.1⟩, if_pos hrange, h0, hat 2]
    refine (ih hbody.2.2.2 fuel _ _ hnext (by simp at hf; omega)).trans ?_
    simp [inBody, Bool.or_assoc]
    omega
  | case3 b body hne ih =>
    obtain ⟨fuel, rfl⟩ : ∃ n, fuel = n + 1 := ⟨fuel - 1, by omega⟩
    have hat := getD_of_drop hq
    have hlen := lt_of_drop hq (by simp)
    have h0 := hat 0
    rw [Nat.add_zero] at h0
    simp only [List.mem_cons, not_or] at hbody
    have hrange : ¬(q + 2 < pat.length ∧ pat.getD (q + 1) 0 = 45 ∧ pat.getD (q + 2) 0 ≠ 93) := by
      rw [hat 1, hat 2]
      rintro ⟨-, h1, h2⟩
      match body, hne with
      | [], _ => exact absurd h1 (by simp)
      | [x], _ => exact h2 rfl
      | x :: y :: body, hne => exact hne y body (by simpa using h1)
    have hnext : pat.drop (q + 1) = body ++ 93 :: rest := by
      rw [← List.drop_drop, hq]
      rfl
    rw [globClass, if_pos ⟨by simp [hlen], h0 ▸ Ne.symm hbody.1⟩, if_neg hrange, h0]
    refine (ih hbody.2 fuel _ _ hnext (by simp at hf; omega)).trans ?_
    simp [inBody, Bool.or_assoc]
    omega

/-- What the code finds for a class is whether the byte is in it, and the position of its `]`. -/
theorem globClass_inClass (c : UInt8) {body rest : Bytes} {q : ℕ} (hq : pat.drop q = body ++ 93 :: rest) (hbody : 93 ∉ body) :
    ∃ found, globClass pat c pat.length (if q < pat.length ∧ (pat.getD q 0 = 94 ∨ pat.getD q 0 = 33) then q + 1 else q) false =
        (found, q + body.length) ∧
      (found ≠ decide (q < pat.length ∧ (pat.getD q 0 = 94 ∨ pat.getD q 0 = 33)) ↔ inClass body c) := by
  have hlen := lt_of_drop hq (by simp)
  have h0 := getD_of_drop hq 0
  rw [Nat.add_zero] at h0
  rw [List.length_append, List.length_cons] at hlen
  by_cases hsign : pat.getD q 0 = 94 ∨ pat.getD q 0 = 33
  · obtain ⟨sign, body, rfl⟩ : ∃ sign tail, body = sign :: tail := by
      cases body with
      | nil =>
        rw [h0] at hsign
        exact absurd hsign (by rw [List.nil_append, List.getD_cons_zero]; decide)
      | cons sign tail => exact ⟨sign, tail, rfl⟩
    have hhead : pat.getD q 0 = sign := h0
    have hmarked : q < pat.length ∧ (pat.getD q 0 = 94 ∨ pat.getD q 0 = 33) := ⟨by omega, hsign⟩
    have hnext : pat.drop (q + 1) = body ++ 93 :: rest := by
      rw [← List.drop_drop, hq]
      rfl
    rw [hhead] at hsign
    refine ⟨inBody c body, ?_, ?_⟩
    · rw [if_pos hmarked, globClass_body c body rest (fun h => hbody (List.mem_cons_of_mem _ h)) _ _ _ hnext
        (by rw [List.length_cons] at hlen; omega), Bool.false_or, List.length_cons, Nat.add_right_comm, Nat.add_assoc]
    · rw [decide_eq_true hmarked, inClass, if_pos hsign, ne_eq, Bool.not_eq_true, Bool.not_eq_true']
  · have hunmarked : ¬(q < pat.length ∧ (pat.getD q 0 = 94 ∨ pat.getD q 0 = 33)) := fun h => hsign h.2
    refine ⟨inBody c body, ?_, ?_⟩
    · rw [if_neg hunmarked, globClass_body c body rest hbody _ _ _ hq (by omega), Bool.false_or]
    · rw [decide_eq_false hunmarked, ne_eq, Bool.not_eq_false]
      cases body with
      | nil => rfl
      | cons sign tail =>
        have hhead : pat.getD q 0 = sign := h0
        rw [inClass, if_neg (hhead ▸ hsign)]

/-- A class that ends is its body up to the first `]`. -/
theorem tokens_inside {pat b₀ : Bytes} {ts : List (Wildcard UInt8)} (h : tokens (.inside b₀) pat = some ts) :
    ∃ body rest ts', pat = body ++ 93 :: rest ∧ 93 ∉ body ∧ ts = .one (inClass (b₀ ++ body)) :: ts' ∧
      tokens .outside rest = some ts' := by
  induction pat generalizing b₀ with
  | nil => simp [tokens] at h
  | cons c pat ih =>
    unfold tokens at h
    split_ifs at h with hend hesc
    · obtain ⟨ts', hts', rfl⟩ := Option.map_eq_some_iff.1 h
      exact ⟨[], pat, ts', by simp [hend], by simp, by simp, hts'⟩
    · obtain ⟨body, rest, ts', rfl, hbody, rfl, hts'⟩ := ih h
      exact ⟨c :: body, rest, ts', rfl, by simp [hbody, Ne.symm hend], by simp, hts'⟩

end Classes

/-- The round takes a `*`, `[` or `\` of the pattern for the same byte of the string. -/
def Misread (pat str : Bytes) (g : GlobState) : Prop :=
  g.s < str.length ∧ g.p < pat.length ∧ pat.getD g.p 0 ∈ [42, 91, 92] ∧ pat.getD g.p 0 = str.getD g.s 0

/-- The states that the loop comes to. -/
inductive Reached (pat str : Bytes) : GlobState → Prop
  | start : Reached pat str ⟨0, 0, none⟩
  | step {g g' : GlobState} (h : Reached pat str g) (hs : g.s < str.length) (hg : globStep pat str g = some g') :
      Reached pat str g'

/-- The loop and the search by tokens are at the same place. -/
structure Sim (pat str : Bytes) (g : GlobState) (st : Search UInt8) : Prop where
  rest : tokens .outside (pat.drop g.p) = some st.rest
  text : st.text = str.drop g.s
  back : Option.Rel (fun (at' : ℕ × ℕ) b => tokens .outside (pat.drop (at'.1 + 1)) = some b.1 ∧ b.2 = str.drop at'.2) g.star st.back

section Rounds

variable {g : GlobState} {st : Search UInt8}

theorem Sim.retry (h : Sim pat str g st) : Option.Rel (Sim pat str) (globBack g) st.retry := by
  obtain ⟨p, s, star⟩ := g
  obtain ⟨rest, text, back⟩ := st
  obtain ⟨-, -, hback⟩ := h
  dsimp only at hback
  cases hback with
  | none => exact .none
  | some hb =>
    have htext := congrArg List.tail hb.2
    rw [List.tail_drop] at htext
    exact .some ⟨hb.1, htext, .some ⟨hb.1, htext⟩⟩

/-- A byte of the string against a token for one byte: it is taken, or the search goes back. -/
theorem Sim.one {p' s : ℕ} {star : Option (ℕ × ℕ)} {a : UInt8 → Bool} {c : UInt8} {ts : List (Wildcard UInt8)}
    {back : Option (List (Wildcard UInt8) × Bytes)} {taken : Prop} [Decidable taken] (ha : taken ↔ a c = true)
    (hts : tokens .outside (pat.drop p') = some ts)
    (hback : Option.Rel (fun (at' : ℕ × ℕ) b => tokens .outside (pat.drop (at'.1 + 1)) = some b.1 ∧ b.2 = str.drop at'.2) star back)
    (hretry : Option.Rel (Sim pat str) (globBack g) (Search.retry ⟨.one a :: ts, c :: str.drop (s + 1), back⟩)) :
    Option.Rel (Sim pat str) (if taken then some ⟨p', s + 1, star⟩ else globBack g)
      (Search.step ⟨.one a :: ts, c :: str.drop (s + 1), back⟩) := by
  rw [Search.step_one]
  by_cases htaken : taken
  · rw [if_pos htaken, if_pos (ha.1 htaken)]
    exact .some ⟨hts, rfl, hback⟩
  · rw [if_neg htaken, if_neg fun h => htaken (ha.2 h)]
    exact hretry

/-- The token of a class, and what the loop over it finds. -/
theorem class_token {p : ℕ} (c : UInt8) {rest : List (Wildcard UInt8)} (h : tokens (.inside []) (pat.drop (p + 1)) = some rest) :
    ∃ body ts found close, rest = .one (inClass body) :: ts ∧ tokens .outside (pat.drop (close + 1)) = some ts ∧
      close < pat.length ∧
      globClass pat c pat.length (if p + 1 < pat.length ∧ (pat.getD (p + 1) 0 = 94 ∨ pat.getD (p + 1) 0 = 33) then p + 2 else p + 1)
        false = (found, close) ∧
      (found ≠ decide (p + 1 < pat.length ∧ (pat.getD (p + 1) 0 = 94 ∨ pat.getD (p + 1) 0 = 33)) ↔ inClass body c) := by
  obtain ⟨body, after, ts, hbody, hclosed, rfl, hts⟩ := tokens_inside h
  obtain ⟨found, hclass, hfound⟩ := globClass_inClass c hbody hclosed
  have hlen := lt_of_drop hbody (by simp)
  rw [List.length_append, List.length_cons] at hlen
  have hafter : pat.drop (p + 1 + body.length + 1) = after := by
    rw [← List.drop_drop, ← List.drop_drop, hbody]
    simp
  exact ⟨body, ts, found, p + 1 + body.length, rfl, hafter ▸ hts, by omega, hclass, hfound⟩

/-- The token of an escaped byte. -/
theorem escape_token {p : ℕ} {rest : List (Wildcard UInt8)} (h : tokens .escaped (pat.drop (p + 1)) = some rest) :
    ∃ ts, rest = .one (· = pat.getD (p + 1) 0) :: ts ∧ p + 1 < pat.length ∧ tokens .outside (pat.drop (p + 2)) = some ts := by
  cases hlast : pat.drop (p + 1) with
  | nil => simp [hlast, tokens] at h
  | cons c after =>
    rw [hlast, tokens] at h
    obtain ⟨ts, hts, rfl⟩ := Option.map_eq_some_iff.1 h
    have hlt := lt_of_drop hlast (by simp)
    rw [List.length_cons] at hlt
    have hc := getD_of_drop hlast 0
    rw [Nat.add_zero, List.getD_cons_zero] at hc
    have hafter : pat.drop (p + 2) = after := by
      rw [← Nat.add_assoc p 1 1, ← List.drop_drop, hlast]
      rfl
    exact ⟨ts, by rw [hc], by omega, hafter ▸ hts⟩

theorem Sim.step (h : Sim pat str g st) (hs : g.s < str.length) (hread : ¬Misread pat str g) :
    Option.Rel (Sim pat str) (globStep pat str g) st.step := by
  have hretry := h.retry
  obtain ⟨p, s, star⟩ := g
  obtain ⟨rest, text, back⟩ := st
  obtain ⟨hrest, htext, hback⟩ := h
  dsimp only at hrest htext hback hs
  have hsc : str.drop s = str.getD s 0 :: str.drop (s + 1) := by
    rw [List.drop_eq_getElem_cons hs, List.getD_eq_getElem _ _ hs]
  rw [hsc] at htext
  subst htext
  unfold globStep
  by_cases hp : p < pat.length
  · have hpc : pat.drop p = pat.getD p 0 :: pat.drop (p + 1) := by
      rw [List.drop_eq_getElem_cons hp, List.getD_eq_getElem _ _ hp]
    -- a byte that means something is not compared with itself
    have hdiffer : pat.getD p 0 ∈ [42, 91, 92] → ¬(pat.getD p 0 = 63 ∨ pat.getD p 0 = str.getD s 0) := by
      rintro hmem (hany | hsame)
      · rw [hany] at hmem
        exact absurd hmem (by decide)
      · exact hread ⟨hs, hp, hmem, hsame⟩
    simp only [hp, true_and]
    rw [hpc, tokens] at hrest
    generalize pat.getD p 0 = pc at *
    generalize str.getD s 0 = sc at *
    by_cases hstar : pc = 42
    · rw [if_pos hstar] at hrest
      obtain ⟨ts, hts, rfl⟩ := Option.map_eq_some_iff.1 hrest
      rw [if_neg (hdiffer (by simp [hstar])), if_pos hstar]
      exact .some ⟨hts, hsc.symm, .some ⟨hts, hsc.symm⟩⟩
    rw [if_neg hstar] at hrest
    by_cases hany : pc = 63
    · rw [if_pos hany] at hrest
      obtain ⟨ts, hts, rfl⟩ := Option.map_eq_some_iff.1 hrest
      rw [if_pos (.inl hany), Search.step_one, if_pos rfl]
      exact .some ⟨hts, rfl, hback⟩
    rw [if_neg hany] at hrest
    by_cases hopen : pc = 91
    · rw [if_pos hopen] at hrest
      obtain ⟨body, ts, found, close, rfl, hts, hclose, hclass, hfound⟩ := class_token sc hrest
      rw [if_neg (hdiffer (by simp [hopen])), if_neg hstar, if_pos hopen]
      simp only [hclass]
      rw [if_pos hclose]
      exact Sim.one hfound hts hback hretry
    rw [if_neg hopen] at hrest
    by_cases hesc : pc = 92
    · rw [if_pos hesc] at hrest
      obtain ⟨ts, rfl, hmore, hts⟩ := escape_token hrest
      rw [if_neg (hdiffer (by simp [hesc])), if_neg hstar, if_neg hopen]
      exact Sim.one (by simp [hesc, hmore, eq_comm]) hts hback hretry
    rw [if_neg hesc] at hrest
    obtain ⟨ts, hts, rfl⟩ := Option.map_eq_some_iff.1 hrest
    simp only [hany, hstar, hopen, hesc, false_or, false_and, if_false]
    exact Sim.one (by simp [eq_comm]) hts hback hretry
  · obtain rfl : rest = [] := by
      rw [List.drop_eq_nil_of_le (by omega)] at hrest
      exact (Option.some.inj hrest).symm
    rw [Search.step_done, if_neg fun h => hp h.1, if_neg fun h => hp h.1, if_neg fun h => hp h.1, if_neg fun h => hp h.1]
    exact hretry

end Rounds

section Patterns

variable {ts : List (Wildcard UInt8)}

theorem tokens_stars (h : tokens .outside pat = some ts) : ts.all isStar = pat.all (· = 42) := by
  induction pat generalizing ts with
  | nil =>
    obtain rfl := Option.some.inj h
    rfl
  | cons c pat ih =>
    rw [tokens] at h
    by_cases hstar : c = 42
    · rw [if_pos hstar] at h
      obtain ⟨ts, hts, rfl⟩ := Option.map_eq_some_iff.1 h
      simp [hstar, isStar, ih hts]
    · have hone : ∃ p ts', ts = .one p :: ts' := by
        rw [if_neg hstar] at h
        split_ifs at h
        · obtain ⟨ts, -, rfl⟩ := Option.map_eq_some_iff.1 h
          exact ⟨_, _, rfl⟩
        · obtain ⟨-, -, ts', -, -, rfl, -⟩ := tokens_inside h
          exact ⟨_, _, rfl⟩
        · cases pat with
          | nil => simp [tokens] at h
          | cons c pat =>
            obtain ⟨ts, -, rfl⟩ := Option.map_eq_some_iff.1 h
            exact ⟨_, _, rfl⟩
        · obtain ⟨ts, -, rfl⟩ := Option.map_eq_some_iff.1 h
          exact ⟨_, _, rfl⟩
      obtain ⟨p, ts', rfl⟩ := hone
      simp [hstar, isStar]

theorem tokens_length (mode : Mode) (h : tokens mode pat = some ts) : ts.length ≤ pat.length := by
  induction pat generalizing mode ts with
  | nil =>
    cases mode with
    | outside =>
      obtain rfl := Option.some.inj h
      exact le_rfl
    | escaped => simp [tokens] at h
    | inside body => simp [tokens] at h
  | cons c pat ih =>
    have hone : ∀ a : Wildcard UInt8, (tokens .outside pat).map (a :: ·) = some ts → ts.length ≤ (c :: pat).length := by
      intro a ha
      obtain ⟨ts, hts, rfl⟩ := Option.map_eq_some_iff.1 ha
      exact Nat.succ_le_succ (ih _ hts)
    cases mode with
    | outside =>
      rw [tokens] at h
      split_ifs at h
      · exact hone _ h
      · exact hone _ h
      · exact (ih _ h).trans (Nat.le_succ _)
      · exact (ih _ h).trans (Nat.le_succ _)
      · exact hone _ h
    | escaped => exact hone _ h
    | inside body =>
      rw [tokens] at h
      split_ifs at h
      · exact hone _ h
      · exact (ih _ h).trans (Nat.le_succ _)

/-- A class or an escape has fewer tokens than bytes. -/
theorem plain_of_length (h : tokens .outside pat = some ts) (hstar : ∀ a ∈ ts, a.isStar = false) (hlen : pat.length = ts.length) :
    ∀ b ∈ pat, b ∉ [42, 91, 92] := by
  induction pat generalizing ts with
  | nil => simp
  | cons c pat ih =>
    have hone : ∀ p : UInt8 → Bool, (tokens .outside pat).map (.one p :: ·) = some ts → c ∉ [42, 91, 92] →
        ∀ b ∈ c :: pat, b ∉ [42, 91, 92] := by
      intro p hp hc b hb
      obtain ⟨ts, hts, rfl⟩ := Option.map_eq_some_iff.1 hp
      rcases List.mem_cons.1 hb with rfl | hb
      · exact hc
      · exact ih hts (fun a ha => hstar a (List.mem_cons_of_mem _ ha)) (Nat.succ.inj hlen) b hb
    rw [tokens] at h
    split_ifs at h with h1 h2 h3 h4
    · obtain ⟨ts, -, rfl⟩ := Option.map_eq_some_iff.1 h
      exact absurd (hstar .star List.mem_cons_self) (by simp [isStar])
    · exact hone _ h (by subst h2; decide)
    · have := tokens_length _ h
      rw [List.length_cons] at hlen
      omega
    · have := tokens_length _ h
      rw [List.length_cons] at hlen
      omega
    · exact hone _ h (by simp [h1, h3, h4])

end Patterns

section Loops

/-- Where no round misreads the pattern, the loop returns what the search by tokens has to find. -/
theorem globLoop_answer (hread : ∀ g, Reached pat str g → ¬Misread pat str g) (fuel : ℕ) {g : GlobState} {st : Search UInt8}
    (hg : Reached pat str g) (hsim : Sim pat str g st) (hlin : st.Linear) (hstar : Checked.StarBehind pat g)
    (hf : Checked.globRank pat str g < fuel) : globLoop pat str fuel g ↔ st.Answer := by
  induction fuel generalizing g st with
  | zero => omega
  | succ fuel ih =>
    rw [globLoop]
    split_ifs with hs
    · have htext : st.text ≠ [] := by
        rw [hsim.text]
        exact fun h => absurd (List.drop_eq_nil_iff.1 h) (by omega)
      have hround := hsim.step hs (hread g hg)
      cases hnext : globStep pat str g with
      | none =>
        cases hstep : st.step with
        | none => simpa using Search.step_none htext hstep
        | some st' =>
          rw [hnext, hstep] at hround
          cases hround
      | some g' =>
        cases hstep : st.step with
        | none =>
          rw [hnext, hstep] at hround
          cases hround
        | some st' =>
          rw [hnext, hstep] at hround
          cases hround with
          | some hsim' =>
            obtain ⟨hstar', hrank⟩ := Checked.globStep_rank hs hstar hnext
            obtain ⟨hlin', hanswer⟩ := Search.step_spec hlin htext hstep
            rw [hanswer]
            exact ih (.step hg hs hnext) hsim' hlin' hstar' (by omega)
    · have htext : st.text = [] := by
        rw [hsim.text]
        exact List.drop_eq_nil_of_le (by omega)
      rw [Search.answer_end hlin htext, tokens_stars hsim.rest]

/-- The fuel of the loop covers all rounds. -/
theorem rank_lt : Checked.globRank pat str ⟨0, 0, none⟩ < (str.length + 2) * (str.length + pat.length + 2) := by
  simp only [Checked.globRank, Option.elim_none, Nat.sub_zero]
  nlinarith [Nat.zero_le (str.length * str.length), Nat.zero_le (str.length * pat.length)]

theorem matched_of_read {b : Bool} (h : matched pat str = some b) (hread : ∀ g, Reached pat str g → ¬Misread pat str g) :
    globMatch pat str = b := by
  obtain ⟨ts, hts, rfl⟩ := Option.map_eq_some_iff.1 h
  have hsim : Sim pat str ⟨0, 0, none⟩ ⟨ts, str, none⟩ := ⟨hts, rfl, .none⟩
  have hanswer := globLoop_answer hread _ .start hsim (Search.linear_start ts str) (fun st hst => absurd hst (by simp)) rank_lt
  rw [Search.answer_start] at hanswer
  exact Bool.eq_iff_iff.2 hanswer

/-- A pattern that the string starts with is taken byte by byte. -/
theorem globLoop_literal (w : Bytes) (fuel i : ℕ) (hi : i ≤ pat.length) (hf : pat.length - i < fuel) :
    globLoop pat (pat ++ w) fuel ⟨i, i, none⟩ = (w = []) := by
  induction fuel generalizing i with
  | zero => omega
  | succ fuel ih =>
    rw [globLoop]
    by_cases hlt : i < pat.length
    · have hsame : pat.getD i 0 = (pat ++ w).getD i 0 := (List.getD_append _ _ _ _ hlt).symm
      have hstep : globStep pat (pat ++ w) ⟨i, i, none⟩ = some ⟨i + 1, i + 1, none⟩ := by
        rw [globStep, if_pos ⟨hlt, .inr hsame⟩]
      rw [if_pos (by simp; omega), hstep]
      exact ih (i + 1) hlt (by omega)
    · obtain rfl : i = pat.length := by omega
      cases w with
      | nil => simp
      | cons c w =>
        have hstep : globStep pat (pat ++ c :: w) ⟨pat.length, pat.length, none⟩ = none := by
          unfold globStep
          simp [globBack]
        simp [hstep]

theorem globMatch_literal (w : Bytes) : globMatch pat (pat ++ w) = (w = []) :=
  globLoop_literal w _ 0 (Nat.zero_le _) (by simp; nlinarith [Nat.zero_le (pat.length + w.length)])

/-- A pattern without the three bytes is never misread. -/
theorem not_misread (h : ∀ b ∈ pat, b ∉ [42, 91, 92]) (g : GlobState) : ¬Misread pat str g := by
  rintro ⟨-, hp, hmem, -⟩
  rw [List.getD_eq_getElem _ _ hp] at hmem
  exact h _ (List.getElem_mem hp) hmem

theorem not_misread_in (h : ∀ b ∈ str, b ∉ [42, 91, 92]) (g : GlobState) : ¬Misread pat str g := by
  rintro ⟨hs, -, hmem, he⟩
  rw [he, List.getD_eq_getElem _ _ hs] at hmem
  exact h _ (List.getElem_mem hs) hmem

/-- A `*`, class or escape of the pattern is misread in some string. -/
theorem plain_of_agrees {ts : List (Wildcard UInt8)} (hts : tokens .outside pat = some ts)
    (h : ∀ str, globMatch pat str = accepts ts str) : ∀ b ∈ pat, b ∉ [42, 91, 92] := by
  have hself : accepts ts pat := by
    have := @globMatch_literal pat []
    rw [List.append_nil, h pat] at this
    simpa using this
  by_cases hstar : ∃ a ∈ ts, a.isStar
  · obtain ⟨u, hu, hmore⟩ := accepts_append hself hstar
    have := @globMatch_literal pat u
    rw [h] at this
    exact absurd (this.mp hmore) hu
  · simp only [not_exists, not_and, Bool.not_eq_true] at hstar
    exact plain_of_length hts hstar (length_of_accepts hstar hself)

end Loops

/-- `glob_match` ends, and where no round takes a `*`, `[` or `\` of the pattern for that byte of the
string it returns what the pattern stands for. The patterns for which that is so with every string are those
without these bytes. -/
theorem globMatch_agrees (pat : Bytes) (h : (tokens .outside pat).isSome) :
    (∀ str, ∃ b, Checked.globMatch pat str = .ok b ∧
      ((∀ g, Reached pat str g → ¬Misread pat str g) → matched pat str = some b)) ∧
    ((∀ str, ∃ b, Checked.globMatch pat str = .ok b ∧ matched pat str = some b) ↔ ∀ b ∈ pat, b ∉ [42, 91, 92]) := by
  obtain ⟨ts, hts⟩ := Option.isSome_iff_exists.1 h
  have hmatched : ∀ str, matched pat str = some (accepts ts str) := fun str => by rw [matched, hts, Option.map_some]
  have hread : ∀ str, (∀ g, Reached pat str g → ¬Misread pat str g) → matched pat str = some (globMatch pat str) :=
    fun str hread => by rw [hmatched, matched_of_read (hmatched str) hread]
  refine ⟨fun str => ⟨_, Checked.globMatch_eq, hread str⟩, fun h => ?_, fun h str => ?_⟩
  · refine plain_of_agrees hts fun str => ?_
    obtain ⟨b, hb, hstr⟩ := h str
    rw [Checked.globMatch_eq] at hb
    rw [Except.ok.inj hb]
    exact (Option.some.inj ((hmatched str).symm.trans hstr)).symm
  · exact ⟨_, Checked.globMatch_eq, hread str fun g _ => not_misread h g⟩

theorem globMatch_agrees_user : ∃ b, Checked.globMatch (ascii "user:[1-4]*") (ascii "user:17") = .ok b ∧
    matched (ascii "user:[1-4]*") (ascii "user:17") = some b := by
  obtain ⟨b, hb, hread⟩ := (globMatch_agrees (ascii "user:[1-4]*") (by decide +kernel)).1 (ascii "user:17")
  exact ⟨b, hb, hread fun g _ => not_misread_in (by decide +kernel) g⟩

/-- A key that begins with `*` is not listed by `KEYS *`; a class does not have `[`, nor an escape `\`. -/
theorem globMatch_misreads : ¬∀ pat str b, matched pat str = some b → Checked.globMatch pat str = .ok b := by
  intro h
  have hstar := h (ascii "*") (ascii "*a") true (by decide +kernel)
  rw [Checked.globMatch_eq] at hstar
  exact absurd (Except.ok.inj hstar) (by decide +kernel)

example : matched (ascii "[[]") (ascii "[") = some true ∧ globMatch (ascii "[[]") (ascii "[") = false := by decide +kernel

example : matched (ascii "\\\\") (ascii "\\") = some true ∧ globMatch (ascii "\\\\") (ascii "\\") = false := by decide +kernel

end BlazeKV.Glob
