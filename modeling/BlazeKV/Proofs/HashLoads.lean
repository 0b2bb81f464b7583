import BlazeKV.Proofs.ParserBounds
import BlazeKV.Spec.Checked.Hash

/-! `hash_bytes` reads inside the key and nothing of the key is left out. -/

namespace BlazeKV.Positions

open Lib

variable {key : Bytes}

theorem ahead_runs {p n : ℕ} (h : p + n ≤ key.length) : ahead key p n = .ok (p + n) := by
  rw [ahead, require_of h]
  rfl

theorem load_runs {n p : ℕ} (h : p + n ≤ key.length) :
    load key n p = .ok ⟨BlazeKV.wyRead key n p, [⟨p, n⟩]⟩ := by
  rw [load, require_of h]
  rfl

@[simp] theorem wyMix_value (a b : Fetched ℕ) : (wyMix a b).value = BlazeKV.wyMix a.value b.value := rfl

theorem mem_wyMix {a b : Fetched ℕ} {s : Span} :
    s ∈ (wyMix a b).sources ↔ s ∈ a.sources ∨ s ∈ b.sources := by
  simp only [wyMix, xor, wyMum, Fetched.map₂_sources, List.mem_append]
  tauto

/-- A load of one byte. -/
theorem wyRead_one (p : ℕ) : BlazeKV.wyRead key 1 p = (key.getD p 0).toNat := by
  rw [BlazeKV.wyRead, List.getD, ← List.head?_drop]
  cases key.drop p <;> simp

theorem wyRead3_runs {k : ℕ} (hk : 0 < k) (hlen : k ≤ key.length) :
    wyRead3 key k = .ok ⟨BlazeKV.wyRead3 key k, [⟨0, 1⟩, ⟨k >>> 1, 1⟩, ⟨k - 1, 1⟩]⟩ := by
  have hhalf : k >>> 1 < k := by
    rw [Nat.shiftRight_eq_div_pow]
    omega
  rw [wyRead3, load_runs (by omega), ok_bind, load_runs (by omega), ok_bind, minus_runs (by omega),
    ok_bind, load_runs (by omega), ok_bind]
  simp only [wyRead_one]
  rfl

/-- The loop leaves the last sixteen bytes or less, and covers what is before them. -/
theorem wyLoop_runs (fuel : ℕ) {i q : ℕ} (seed : Fetched ℕ) (hend : q + i = key.length)
    (hfuel : i ≤ 16 * (fuel + 1))
    (hi : 0 < i) (hcov : Covering seed.sources 0 q) (hin : ∀ s ∈ seed.sources, s.stop ≤ key.length) :
    ∃ i' q' seed', wyLoop key fuel i q seed = .ok (i', q', seed') ∧
      BlazeKV.wyLoop key fuel i q seed.value = (i', q', seed'.value) ∧
      q' + i' = key.length ∧ i' ≤ 16 ∧ Covering seed'.sources 0 q' ∧
      (∀ s ∈ seed'.sources, s.stop ≤ key.length) ∧
      ∀ s ∈ seed.sources, s ∈ seed'.sources := by
  induction fuel generalizing i q seed with
  | zero =>
    refine ⟨i, q, seed, ?_, rfl, hend, by omega, hcov, hin, fun s hs => hs⟩
    rw [wyLoop, if_neg (by omega)]
    rfl
  | succ fuel ih =>
    rw [wyLoop, BlazeKV.wyLoop]
    by_cases h : i > 16
    · rw [if_pos h, if_pos h]
      rw [wyRead8, load_runs (by omega), ok_bind, ahead_runs (by omega), ok_bind, wyRead8,
        load_runs (by omega), ok_bind, minus_runs (by omega), ok_bind, ahead_runs (by omega),
        ok_bind]
      set mixed := wyMix (xor ⟨BlazeKV.wyRead key 8 q, [⟨q, 8⟩]⟩ (.const wyS1))
        (xor ⟨BlazeKV.wyRead key 8 (q + 8), [⟨q + 8, 8⟩]⟩ seed) with hmixed
      have hmem : ∀ s, s ∈ mixed.sources ↔ s = ⟨q, 8⟩ ∨ s = ⟨q + 8, 8⟩ ∨ s ∈ seed.sources := fun s => by
        simp [hmixed, mem_wyMix, xor]
      have hcov' : Covering mixed.sources 0 (q + 16) :=
        ((hcov.mono fun s hs => (hmem s).2 (.inr (.inr hs))).join
          (Covering.of_mem ((hmem ⟨q, 8⟩).2 (.inl rfl))) le_rfl).join
          (Covering.of_mem ((hmem ⟨q + 8, 8⟩).2 (.inr (.inl rfl)))) le_rfl
      have hin' : ∀ s ∈ mixed.sources, s.stop ≤ key.length := by
        intro s hs
        rcases (hmem s).1 hs with rfl | rfl | hs
        · simp only [Span.stop]
          omega
        · simp only [Span.stop]
          omega
        · exact hin s hs
      obtain ⟨i', q', seed', hrun, hbase, hend', hle, hc, hn, hkeep⟩ :=
        ih (i := i - 16) (q := q + 16) _ (by omega) (by omega) (by omega) hcov' hin'
      exact ⟨i', q', seed', hrun, hbase, hend', hle, hc, hn, fun s hs =>
        hkeep s ((hmem s).2 (.inr (.inr hs)))⟩
    · rw [if_neg h, if_neg h]
      exact ⟨i, q, seed, rfl, rfl, hend, by omega, hcov, hin, fun s hs => hs⟩

theorem shift_words {n : ℕ} (h : n ≤ 16) :
    (n >>> 3) <<< 2 = if n < 8 then 0 else if n < 16 then 4 else 8 := by
  rw [Nat.shiftRight_eq_div_pow, Nat.shiftLeft_eq]
  split_ifs <;> omega

/-- The operands `a`, `b` and `seed` of the final rounds give the hash, and were loaded from the
whole key and from nothing else. -/
structure Operands (key : Bytes) (seed0 : ℕ) (a b seed : Fetched ℕ) : Prop where
  hash : BlazeKV.hashBytes key seed0 =
    BlazeKV.wyMix
      ((BlazeKV.wyMum (a.value ^^^ wyS1) (b.value ^^^ seed.value)).1 ^^^ wyS0 ^^^ u64 key.length)
      ((BlazeKV.wyMum (a.value ^^^ wyS1) (b.value ^^^ seed.value)).2 ^^^ wyS2)
  inside : ∀ s ∈ a.sources ++ (b.sources ++ seed.sources), s.stop ≤ key.length
  covers : Covering (a.sources ++ (b.sources ++ seed.sources)) 0 key.length

section Lengths

variable {seed0 : ℕ}

theorem operands_empty (h : key.length = 0) : ∃ a b s : Fetched ℕ,
    operands key (.const (seed0 ^^^ wyS0)) = .ok (a, b, s) ∧ Operands key seed0 a b s := by
  refine ⟨.const 0, .const 0, .const (seed0 ^^^ wyS0), ?_, ?_, by simp, fun i _ hi => by omega⟩
  · rw [operands, if_pos (by omega), if_neg (by omega), if_neg (by omega)]
    rfl
  · rw [BlazeKV.hashBytes, if_pos (by omega), if_neg (by omega), if_neg (by omega)]
    rfl

/-- Up to three bytes: the first, the middle and the last one. -/
theorem operands_short (h0 : 0 < key.length) (h4 : key.length < 4) : ∃ a b s : Fetched ℕ,
    operands key (.const (seed0 ^^^ wyS0)) = .ok (a, b, s) ∧ Operands key seed0 a b s := by
  have hhalf : key.length >>> 1 = key.length / 2 := Nat.shiftRight_eq_div_pow _ _
  refine ⟨⟨BlazeKV.wyRead3 key key.length, [⟨0, 1⟩, ⟨key.length >>> 1, 1⟩, ⟨key.length - 1, 1⟩]⟩,
    .const 0,
    .const (seed0 ^^^ wyS0), ?_, ?_, ?_, ?_⟩
  · rw [operands, if_pos (by omega), if_neg (by omega), if_pos h0, wyRead3_runs h0 le_rfl]
    rfl
  · rw [BlazeKV.hashBytes, if_pos (by omega), if_neg (by omega), if_pos h0]
    rfl
  · simp only [Fetched.const_sources, List.append_nil, List.mem_cons, List.not_mem_nil, or_false]
    rintro s (rfl | rfl | rfl) <;> simp only [Span.stop] <;> omega
  · intro i _ hi
    have hcase : i = 0 ∨ i = key.length >>> 1 ∨ i = key.length - 1 := by omega
    rcases hcase with rfl | rfl | rfl
    · exact ⟨⟨0, 1⟩, by simp, le_rfl, Nat.lt_succ_self _⟩
    · exact ⟨⟨key.length >>> 1, 1⟩, by simp, le_rfl, Nat.lt_succ_self _⟩
    · exact ⟨⟨key.length - 1, 1⟩, by simp, le_rfl, Nat.lt_succ_self _⟩

/-- From four to sixteen bytes: four words, which overlap unless they are all of the key. -/
theorem operands_words (h4 : 4 ≤ key.length) (h16 : key.length ≤ 16) : ∃ a b s : Fetched ℕ,
    operands key (.const (seed0 ^^^ wyS0)) = .ok (a, b, s) ∧ Operands key seed0 a b s := by
  obtain ⟨d, hd⟩ : ∃ d, (key.length >>> 3) <<< 2 = d := ⟨_, rfl⟩
  have hd' : d = if key.length < 8 then 0 else if key.length < 16 then 4 else 8 := by
    rw [← hd, shift_words h16]
  have hword : d + 4 ≤ key.length := by split_ifs at hd' <;> omega
  have hback : d ≤ key.length - 4 := by omega
  refine ⟨or (shiftLeft ⟨BlazeKV.wyRead key 4 0, [⟨0, 4⟩]⟩ 32) ⟨BlazeKV.wyRead key 4 d, [⟨d, 4⟩]⟩,
    or (shiftLeft ⟨BlazeKV.wyRead key 4 (key.length - 4), [⟨key.length - 4, 4⟩]⟩ 32)
      ⟨BlazeKV.wyRead key 4 (key.length - 4 - d), [⟨key.length - 4 - d, 4⟩]⟩,
      .const (seed0 ^^^ wyS0), ?_, ?_, ?_, ?_⟩
  · rw [operands, if_pos h16, if_pos h4, hd]
    rw [wyRead4, load_runs (by omega), ok_bind, ahead_runs (by omega), ok_bind, Nat.zero_add,
      wyRead4, load_runs hword, ok_bind, ahead_runs (by omega), ok_bind, Nat.zero_add,
      minus_runs h4, ok_bind, wyRead4, load_runs (by omega), ok_bind, minus_runs hback, ok_bind,
      wyRead4, load_runs (by omega)]
    rfl
  · rw [BlazeKV.hashBytes, if_pos h16, if_pos h4, hd]
    rfl
  · simp only [or, shiftLeft, Fetched.map₂_sources, Fetched.map_sources, Fetched.const_sources,
      List.append_nil, List.mem_append, List.mem_cons, List.not_mem_nil, or_false]
    rintro s ((rfl | rfl) | rfl | rfl) <;> simp only [Span.stop] <;> omega
  · intro i _ hi
    have hcase : i < 4 ∨ (d ≤ i ∧ i < d + 4) ∨ key.length - 4 ≤ i ∨
        (key.length - 4 - d ≤ i ∧ i < key.length - 4 - d + 4) := by
      split_ifs at hd' <;> omega
    rcases hcase with h | h | h | h
    · exact ⟨⟨0, 4⟩, by simp [or, shiftLeft], Nat.zero_le _, by simpa [Span.stop] using h⟩
    · exact ⟨⟨d, 4⟩, by simp [or, shiftLeft], h⟩
    · exact ⟨⟨key.length - 4, 4⟩, by simp [or, shiftLeft], h, by simp only [Span.stop]; omega⟩
    · exact ⟨⟨key.length - 4 - d, 4⟩, by simp [or, shiftLeft], h⟩

/-- Beyond sixteen: the rounds of the loop, and two words up to the end. -/
theorem operands_long (h16 : 16 < key.length) : ∃ a b s : Fetched ℕ,
    operands key (.const (seed0 ^^^ wyS0)) = .ok (a, b, s) ∧ Operands key seed0 a b s := by
  obtain ⟨i, q, seed, hrun, hbase, hend, hle, hcov, hin, -⟩ :=
    wyLoop_runs (i := key.length) (q := 0) (key.length / 16)
    (.const (seed0 ^^^ wyS0)) (Nat.zero_add _) (by omega) (by omega)
    (fun i _ hi => by omega) (by simp)
  refine ⟨⟨BlazeKV.wyRead key 8 (q + i - 16), [⟨q + i - 16, 8⟩]⟩,
    ⟨BlazeKV.wyRead key 8 (q + i - 8), [⟨q + i - 8, 8⟩]⟩,
    xor seed (.const (seed0 ^^^ wyS0)), ?_, ?_, ?_, ?_⟩
  · rw [operands, if_neg (by omega), hrun, ok_bind]
    dsimp only
    rw [ahead_runs hend.le, ok_bind, minus_runs (by omega), ok_bind, wyRead8, load_runs (by omega),
      ok_bind, ok_bind, minus_runs (by omega), ok_bind, wyRead8, load_runs (by omega)]
    rfl
  · rw [BlazeKV.hashBytes, if_neg (by omega)]
    rw [Fetched.const_value] at hbase
    rw [hbase]
    rfl
  · simp only [xor, Fetched.map₂_sources, Fetched.const_sources, List.append_nil, List.mem_append,
      List.mem_cons, List.not_mem_nil, or_false]
    rintro s (rfl | rfl | hs)
    · simp only [Span.stop]
      omega
    · simp only [Span.stop]
      omega
    · exact hin s hs
  · have hmem : ∀ s, s = ⟨q + i - 16, 8⟩ ∨ s = ⟨q + i - 8, 8⟩ ∨ s ∈ seed.sources →
        s ∈ [⟨q + i - 16, 8⟩] ++ ([⟨q + i - 8, 8⟩] ++
        (xor seed (.const (seed0 ^^^ wyS0))).sources) := by
      simp [xor]
    have hseed := hcov.mono fun s hs => hmem s (.inr (.inr hs))
    have hfirst := Covering.of_mem (hmem _ (.inl rfl))
    have hlast := Covering.of_mem (hmem _ (.inr (.inl rfl)))
    have hall := (hseed.join hfirst (by dsimp only; omega)).join hlast (by simp only [Span.stop]; omega)
    have hstop : (⟨q + i - 8, 8⟩ : Span).stop = key.length := by
      simp only [Span.stop]
      omega
    rwa [hstop] at hall

end Lengths

/-- The final rounds use all of their operands. -/
theorem mem_final (a b seed : Fetched ℕ) {len : ℕ} (s : Span) :
    s ∈ (wyMix (xor (xor (wyMum (xor a (.const wyS1)) (xor b seed)).1 (.const wyS0)) (.const (u64 len)))
      (xor (wyMum (xor a (.const wyS1)) (xor b seed)).2 (.const wyS2))).sources ↔
    s ∈ a.sources ++ (b.sources ++ seed.sources) := by
  simp only [mem_wyMix, xor, wyMum, Fetched.map₂_sources, Fetched.const_sources, List.append_nil,
    List.mem_append]
  tauto

/-- For every key no load of `hash_bytes` leaves the key, no loop goes on, and the hash that comes
out was computed from loads that cover the whole key. -/
theorem hash_covers_key (key : Bytes) (seed0 : ℕ) : ∃ sources,
    hashBytes key seed0 = .ok ⟨BlazeKV.hashBytes key seed0, sources⟩ ∧
      (∀ s ∈ sources, s.stop ≤ key.length) ∧ ∀ i < key.length, ∃ s ∈ sources, s.start ≤ i ∧
      i < s.stop := by
  obtain ⟨a, b, seed, hrun, hop⟩ : ∃ a b s : Fetched ℕ,
      operands key (.const (seed0 ^^^ wyS0)) = .ok (a, b, s) ∧ Operands key seed0 a b s := by
    rcases Nat.lt_or_ge key.length 4 with h4 | h4
    · rcases Nat.eq_zero_or_pos key.length with h0 | h0
      · exact operands_empty h0
      · exact operands_short h0 h4
    · rcases Nat.lt_or_ge 16 key.length with h16 | h16
      · exact operands_long h16
      · exact operands_words h4 h16
  rw [hashBytes, hrun, ok_bind, hop.hash]
  dsimp only
  refine ⟨_, rfl, fun s hs => hop.inside s ((mem_final a b seed s).1 hs), fun i hi => ?_⟩
  obtain ⟨s, hs, h⟩ := hop.covers i (Nat.zero_le i) hi
  exact ⟨s, (mem_final a b seed s).2 hs, h⟩

end BlazeKV.Positions
