import BlazeKV.Proofs.RespParse
import Mathlib.Data.List.GetD

/-! The parser on a record that was cut, followed by nothing or by the start of
another record. It finds no command, or one that has swallowed bytes of the next
record, or the record itself when only its last one or two bytes are missing. -/

namespace BlazeKV.RequestParser

theorem prefix_append_cases {α : Type} {u a b : List α} (h : u <+: a ++ b) :
    (u <+: a ∧ u ≠ a) ∨ ∃ q, u = a ++ q ∧ q <+: b := by
  rcases List.prefix_or_prefix_of_prefix h (List.prefix_append a b) with h' | ⟨q, rfl⟩
  · by_cases hu : u = a
    · exact .inr ⟨[], by simpa using hu, List.nil_prefix⟩
    · exact .inl ⟨h', hu⟩
  · exact .inr ⟨q, rfl, (List.prefix_append_right_inj a).1 h⟩

/-- Nothing, or the start of a record. -/
def AfterCut (t : Bytes) : Prop := t = [] ∨ ∃ b c t', t = 42 :: b :: c :: t' ∧ b ≠ 36 ∧ c ≠ 36

theorem AfterCut.cons {t : Bytes} (ht : AfterCut t) (h : t ≠ []) : ∃ t', t = 42 :: t' := by
  rcases ht with rfl | ⟨b, c, t', rfl, -⟩
  · exact absurd rfl h
  · exact ⟨_, rfl⟩

/-- A number and the line end behind it, cut before the line end is complete. -/
theorem cut_line_cases {n : ℕ} {u : Bytes} (h : u <+: decimal n ++ crlf) (hne : u ≠ decimal n ++ crlf) :
    ∃ ds e, u = ds ++ e ∧ 13 ∉ ds ∧ (e = [] ∨ e = [13]) := by
  rcases prefix_append_cases h with ⟨h, -⟩ | ⟨q, rfl, hq⟩
  · exact ⟨u, [], (List.append_nil u).symm, fun hu => not_mem_decimal_cr n (h.subset hu), .inl rfl⟩
  · refine ⟨decimal n, q, rfl, not_mem_decimal_cr n, ?_⟩
    rw [crlf, List.prefix_cons_iff] at hq
    rcases hq with rfl | ⟨q, rfl, hq⟩
    · exact .inl rfl
    · rw [List.prefix_cons_iff] at hq
      rcases hq with rfl | ⟨q, rfl, hq⟩
      · exact .inr rfl
      · rw [List.prefix_nil] at hq
        exact absurd (by rw [hq, crlf]) hne

theorem lt_of_findCrlfAux_star {s : Bytes} {pos n : ℕ} (h : findCrlfAux (42 :: s) pos = some n) :
    pos < n := by
  cases s with
  | nil => exact absurd h (by simp [findCrlfAux])
  | cons b s =>
    rw [findCrlfAux, if_neg (by simp)] at h
    exact le_of_findCrlfAux h

/-- A line whose end was cut off does not read as a number. -/
theorem parseInt_cut {n : ℕ} {u t : Bytes} (h : u <+: decimal n ++ crlf)
    (hne : u ≠ decimal n ++ crlf) (ht : AfterCut t) (a : Bytes) (stop : ℕ)
    (hstop : findCrlf (a ++ (u ++ t)) a.length = some stop) :
    parseInt (view (a ++ (u ++ t)) a.length (stop - a.length)) = none := by
  obtain ⟨ds, e, rfl, hds, he⟩ := cut_line_cases h hne
  rw [findCrlf_append, List.append_assoc, findCrlfAux_skip hds] at hstop
  have hempty : t ≠ [] := by
    rintro rfl
    rcases he with rfl | rfl <;> simp [findCrlfAux] at hstop
  obtain ⟨t', rfl⟩ := ht.cons hempty
  have hlt : a.length + (ds ++ e).length < stop := by
    rcases he with rfl | rfl
    · have := lt_of_findCrlfAux_star hstop
      simpa using this
    · rw [List.cons_append, List.nil_append, findCrlfAux, if_neg (by simp)] at hstop
      have := lt_of_findCrlfAux_star hstop
      rw [List.length_append, List.length_singleton]
      omega
  refine parseInt_none (c := 42) ?_ (by decide) (by decide)
  have hview : view (a ++ (ds ++ e ++ 42 :: t')) a.length (stop - a.length) =
      (ds ++ e) ++ (42 :: t').take (stop - a.length - (ds ++ e).length) := by
    rw [view, List.drop_left, List.take_append, List.take_of_length_le (by omega)]
  rw [hview]
  obtain ⟨k, hk⟩ : ∃ k, stop - a.length - (ds ++ e).length = k + 1 :=
    ⟨stop - a.length - (ds ++ e).length - 1, by omega⟩
  rw [hk]
  simp

theorem argv_prefix_of_parseBulks {data : Bytes} {count pos : ℕ} {argv argv' : List Bytes} {n : ℕ}
    (h : parseBulks data count pos argv = .ok argv' n) : argv <+: argv' := by
  induction count generalizing pos argv with
  | zero =>
    rw [parseBulks] at h
    obtain ⟨rfl, -⟩ := Parse.ok.inj h
    exact List.prefix_rfl
  | succ count ih =>
    rw [parseBulks] at h
    split_ifs at h
    split at h
    · exact absurd h (by simp)
    · split at h
      · exact absurd h (by simp)
      · dsimp only at h
        split_ifs at h
        exact (List.prefix_append _ _).trans (ih h)

/-- What the parse of a cut record may give: nothing, or a command in which a
later record shows, or the whole record over the first bytes behind the cut. -/
def Swallows (r : List Bytes) (cut : ℕ) (t : Bytes) (p : Parse) : Prop :=
  ∀ argv n, p = .ok argv n → t ≠ [] ∧
    ((∃ a ∈ argv, 42 ∈ a) ∨ (argv = r ∧ (n = cut + 1 ∨ n = cut + 2)))

/-- A bulk string whose first line was cut. -/
theorem parseBulks_cut_head {q t : Bytes} {k : ℕ} (hq : q <+: bulkHead k) (hne : q ≠ bulkHead k)
    (ht : AfterCut t) (a : Bytes) (count : ℕ) (argv argv' : List Bytes) (n : ℕ) :
    parseBulks (a ++ (q ++ t)) (count + 1) a.length argv ≠ .ok argv' n := by
  rw [bulkHead, List.prefix_cons_iff] at hq
  rcases hq with rfl | ⟨u, rfl, hu⟩
  · rw [List.nil_append, parseBulks]
    by_cases ht0 : t = []
    · simp [ht0]
    · obtain ⟨t', rfl⟩ := ht.cons ht0
      simp [List.getD]
  · have hdata : a ++ (36 :: u ++ t) = (a ++ [36]) ++ (u ++ t) := by simp
    have hone : (a ++ [36]).length = a.length + 1 := List.length_append
    have hcut := parseInt_cut hu (by rintro rfl; exact hne rfl) ht (a ++ [36])
    rw [← hdata, hone] at hcut
    rw [parseBulks]
    split_ifs
    · simp
    · simp
    · cases hf : findCrlf (a ++ (36 :: u ++ t)) (a.length + 1) with
      | none => simp
      | some stop =>
        have := hcut stop hf
        rw [show stop - (a.length + 1) = stop - a.length - 1 by omega] at this
        dsimp only
        rw [this]
        simp

theorem parseBulks_not_dollar {data : Bytes} {pos : ℕ} (h : data.getD pos 0 ≠ 36) (count : ℕ)
    (argv argv' : List Bytes) (n : ℕ) : parseBulks data (count + 1) pos argv ≠ .ok argv' n := by
  rw [parseBulks]
  split_ifs <;> simp

/-- A bulk string whose payload, or the line end behind it, was cut. -/
theorem parseBulks_cut_body {x y t : Bytes} (hy : y <+: x ++ crlf) (hne : y ≠ x ++ crlf)
    (ht : AfterCut t) (a : Bytes) (xs argv : List Bytes)
    (hsize : (a ++ (bulkHead x.length ++ (y ++ t))).length < 2 ^ 62) :
    Swallows (argv ++ x :: xs) (a ++ (bulkHead x.length ++ y)).length t
      (parseBulks (a ++ (bulkHead x.length ++ (y ++ t))) (xs.length + 1) a.length argv) := by
  intro argv' n h
  have hylen : y.length < x.length + 2 := by
    have hle := hy.length_le
    rw [List.length_append] at hle
    refine lt_of_le_of_ne hle fun he => hne (hy.eq_of_length ?_)
    rw [he, List.length_append]
    rfl
  have hlen : (a ++ (bulkHead x.length ++ (y ++ t))).length =
      (a ++ bulkHead x.length).length + y.length + t.length := by
    simp only [List.length_append]
    omega
  have hcut : (a ++ (bulkHead x.length ++ y)).length = (a ++ bulkHead x.length).length + y.length := by
    simp only [List.length_append]
    omega
  rw [parseBulks_head, ← List.length_append] at h
  split_ifs at h with hx
  dsimp only at h
  rw [u64_of_lt (n := (a ++ bulkHead x.length).length) (by omega),
    u64_of_lt (n := (a ++ bulkHead x.length).length + x.length) (by omega),
    u64_of_lt (by omega)] at h
  split_ifs at h with hmore
  have hempty : t ≠ [] := by
    rintro rfl
    rw [List.length_nil] at hlen
    omega
  refine ⟨hempty, ?_⟩
  have hview : view (a ++ (bulkHead x.length ++ (y ++ t))) (a ++ bulkHead x.length).length x.length =
      y.take x.length ++ t.take (x.length - y.length) := by
    rw [view, ← List.append_assoc, List.drop_left, List.take_append]
  rw [hview] at h
  obtain ⟨b, c, t', rfl, hb, hc⟩ := ht.resolve_left hempty
  by_cases hshort : y.length < x.length
  · -- the payload takes bytes from behind the cut
    refine .inl ⟨_, (argv_prefix_of_parseBulks h).subset (List.mem_append_right _ (List.mem_singleton.2 rfl)), ?_⟩
    obtain ⟨k, hk⟩ : ∃ k, x.length - y.length = k + 1 := ⟨x.length - y.length - 1, by omega⟩
    rw [hk]
    simp
  · -- the payload is whole, and the two bytes behind it are not looked at
    obtain ⟨e, rfl, he⟩ : ∃ e, y = x ++ e ∧ e <+: crlf := by
      rcases prefix_append_cases hy with ⟨hp, hpne⟩ | h
      · exact absurd (hp.eq_of_length (by have := hp.length_le; omega)) hpne
      · exact h
    have helen : e.length = 0 ∨ e.length = 1 := by
      rw [List.length_append] at hylen
      omega
    have hx' : (x ++ e).take x.length ++ (42 :: b :: c :: t').take (x.length - (x ++ e).length) = x := by
      simp
    rw [hx'] at h
    cases xs with
    | nil =>
      obtain ⟨rfl, rfl⟩ := Parse.ok.inj h
      refine .inr ⟨rfl, ?_⟩
      rw [hcut, List.length_append]
      omega
    | cons z zs =>
      refine absurd h (parseBulks_not_dollar ?_ _ _ _ _)
      have hdata : a ++ (bulkHead x.length ++ (x ++ e ++ 42 :: b :: c :: t')) =
          (a ++ bulkHead x.length ++ (x ++ e)) ++ 42 :: b :: c :: t' := by simp
      rw [hdata, List.getD_append_right _ _ _ _ (by simp only [List.length_append]; omega)]
      rcases helen with h0 | h1
      · have hpos : (a ++ bulkHead x.length).length + x.length + 2 -
            (a ++ bulkHead x.length ++ (x ++ e)).length = 2 := by
          simp only [List.length_append]
          omega
        rw [hpos]
        exact hc
      · have hpos : (a ++ bulkHead x.length).length + x.length + 2 -
            (a ++ bulkHead x.length ++ (x ++ e)).length = 1 := by
          simp only [List.length_append]
          omega
        rw [hpos]
        exact hb

theorem parseBulks_cut (r : List Bytes) {q t : Bytes} (hq : q <+: r.flatMap Reply.bulk)
    (hne : q ≠ r.flatMap Reply.bulk) (ht : AfterCut t) (a : Bytes) (argv : List Bytes)
    (hsize : (a ++ (q ++ t)).length < 2 ^ 62) :
    Swallows (argv ++ r) (a ++ q).length t (parseBulks (a ++ (q ++ t)) r.length a.length argv) := by
  induction r generalizing a q argv with
  | nil => exact absurd (List.prefix_nil.1 hq) hne
  | cons x xs ih =>
    rw [List.flatMap_cons] at hq hne
    rcases prefix_append_cases hq with ⟨hq, hqne⟩ | ⟨q, rfl, hq'⟩
    · rw [bulk_eq] at hq hqne
      rcases prefix_append_cases hq with ⟨hq, hqne⟩ | ⟨y, rfl, hy⟩
      · exact fun argv' n h => absurd h (parseBulks_cut_head hq hqne ht a _ _ _ _)
      · rw [List.append_assoc] at hsize ⊢
        exact parseBulks_cut_body hy (by rintro rfl; exact hqne rfl) ht a xs argv hsize
    · have hdata : a ++ (Reply.bulk x ++ q ++ t) =
          a ++ (bulkHead x.length ++ (x ++ (crlf ++ (q ++ t)))) := by simp [bulk_eq]
      have hassoc : a ++ (bulkHead x.length ++ (x ++ (crlf ++ (q ++ t)))) =
          (a ++ (bulkHead x.length ++ (x ++ crlf))) ++ (q ++ t) := by simp
      have hcut : a ++ (Reply.bulk x ++ q) = (a ++ (bulkHead x.length ++ (x ++ crlf))) ++ q := by
        simp [bulk_eq]
      rw [hdata] at hsize ⊢
      rw [List.length_cons, parseBulks_bulk a x crlf _ rfl _ _ hsize, hcut]
      rw [hassoc] at hsize ⊢
      have := ih hq' (by rintro rfl; exact hne rfl) (a ++ (bulkHead x.length ++ (x ++ crlf)))
        (argv ++ [x]) hsize
      simpa using this

/-- The parse of a record that was cut. -/
theorem parse_cut (r : List Bytes) {p t : Bytes} (hp : p <+: encodeMultibulk r)
    (hne : p ≠ encodeMultibulk r) (hp0 : p ≠ []) (ht : AfterCut t)
    (hsize : (p ++ t).length < 2 ^ 62) : Swallows r p.length t (parse (p ++ t)) := by
  rw [encode_eq] at hp hne
  rw [List.prefix_cons_iff] at hp
  obtain ⟨u, rfl, hu⟩ := hp.resolve_left hp0
  rw [← List.append_assoc] at hu hne
  rcases prefix_append_cases hu with ⟨hu, hune⟩ | ⟨q, rfl, hq⟩
  · intro argv n h
    have hdata : 42 :: u ++ t = [42] ++ (u ++ t) := by simp
    have hcut := parseInt_cut hu hune ht [42]
    rw [← hdata, show ([42] : Bytes).length = 1 from rfl] at hcut
    rw [parse, if_neg (by simp), if_pos (by simp), parseMultibulk] at h
    cases hf : findCrlf (42 :: u ++ t) 0 with
    | none => rw [hf] at h; exact absurd h (by simp)
    | some stop =>
      have hf1 : findCrlf (42 :: u ++ t) 1 = some stop := by
        cases hut : u ++ t with
        | nil => simp [findCrlf, List.cons_append, hut, findCrlfAux] at hf
        | cons b s =>
          rw [findCrlf, List.drop_zero, List.cons_append, hut, findCrlfAux, if_neg (by simp)] at hf
          rwa [findCrlf, List.cons_append, hut]
      rw [hf] at h
      dsimp only at h
      rw [hcut stop hf1] at h
      exact absurd h (by simp)
  · have hdata : 42 :: (decimal r.length ++ crlf ++ q) ++ t =
        42 :: (decimal r.length ++ (crlf ++ (q ++ t))) := by simp
    have hassoc : 42 :: (decimal r.length ++ (crlf ++ (q ++ t))) =
        (42 :: (decimal r.length ++ crlf)) ++ (q ++ t) := by simp
    rw [hdata] at hsize ⊢
    rw [parse_head]
    split_ifs
    · rw [hassoc] at hsize ⊢
      have := parseBulks_cut r hq (by rintro rfl; exact hne rfl) ht
        (42 :: (decimal r.length ++ crlf)) [] hsize
      simpa using this
    · exact fun argv n h => absurd h (by simp)

end BlazeKV.RequestParser
