import BlazeKV.Spec.Number

/-! Decimal integers read back. -/

namespace BlazeKV

theorem isDigit_digit {n : ℕ} (h : n < 10) : isDigit (digit n) = true := by
  have : (digit n).toNat = 48 + n := by
    rw [digit, UInt8.toNat_ofNat']
    omega
  simp [isDigit, this]
  omega

theorem digitsValue_snoc (ds : Bytes) {n : ℕ} (h : n < 10) :
    digitsValue (ds ++ [digit n]) = 10 * digitsValue ds + n := by
  have : (digit n).toNat = 48 + n := by
    rw [digit, UInt8.toNat_ofNat']
    omega
  simp [digitsValue, List.foldl_append, this]

theorem decimalAux_spec (fuel n : ℕ) (acc : Bytes) (h : n < fuel) :
    ∃ ds, decimalAux fuel n acc = ds ++ acc ∧ ds ≠ [] ∧ (∀ c ∈ ds, isDigit c = true) ∧
      digitsValue ds = n := by
  induction fuel generalizing n acc with
  | zero => omega
  | succ fuel ih =>
    rw [decimalAux]
    split_ifs with hn
    · refine ⟨[digit n], rfl, by simp, by simpa using isDigit_digit hn, ?_⟩
      simpa [digitsValue] using digitsValue_snoc [] hn
    · obtain ⟨ds, hds, hne, hall, hval⟩ := ih (n / 10) (digit (n % 10) :: acc) (by omega)
      have hmod : n % 10 < 10 := Nat.mod_lt _ (by decide)
      refine ⟨ds ++ [digit (n % 10)], by simp [hds], by simp, fun c hc => ?_, ?_⟩
      · rcases List.mem_append.1 hc with hc | hc
        · exact hall c hc
        · exact List.mem_singleton.1 hc ▸ isDigit_digit hmod
      · rw [digitsValue_snoc ds hmod, hval]
        omega

theorem decimal_spec (n : ℕ) :
    decimal n ≠ [] ∧ (∀ c ∈ decimal n, isDigit c = true) ∧ digitsValue (decimal n) = n := by
  obtain ⟨ds, hds, h⟩ := decimalAux_spec (n + 1) n [] (Nat.lt_succ_self n)
  rw [List.append_nil] at hds
  rwa [decimal, hds]

theorem decimal_ne_nil (n : ℕ) : decimal n ≠ [] := (decimal_spec n).1

theorem isDigit_of_mem_decimal {n : ℕ} {c : UInt8} (h : c ∈ decimal n) : isDigit c = true :=
  (decimal_spec n).2.1 c h

theorem ne_of_isDigit {c d : UInt8} (h : isDigit c = true) (hd : isDigit d = false) : c ≠ d := by
  rintro rfl
  simp [h] at hd

theorem not_mem_decimal {d : UInt8} (hd : isDigit d = false) (n : ℕ) : d ∉ decimal n :=
  fun h => ne_of_isDigit (isDigit_of_mem_decimal h) hd rfl

@[simp] theorem intToString_natCast (n : ℕ) : intToString (n : ℤ) = decimal n := by
  simp [intToString]

theorem parseInt_decimal (n : ℕ) :
    parseInt (decimal n) = if n < 2 ^ 63 then some (n : ℤ) else none := by
  obtain ⟨hne, hall, hval⟩ := decimal_spec n
  cases hd : decimal n with
  | nil => exact absurd hd hne
  | cons c ds =>
    rw [hd] at hall hval
    have hc : c ≠ 45 := ne_of_isDigit (hall c List.mem_cons_self) (by decide)
    have hdig : (c :: ds).all isDigit = true := List.all_eq_true.2 hall
    have hfits : fitsInt64 (n : ℤ) = true ↔ n < 2 ^ 63 := by
      simp only [fitsInt64, decide_eq_true_eq]
      omega
    simp only [parseInt, hc, if_false, hval, hdig, ne_eq,
      reduceCtorEq, not_false_eq_true, true_and]
    exact if_congr hfits rfl rfl

/-- A byte that is neither a digit nor a sign spoils a number. -/
theorem parseInt_none {s : Bytes} {c : UInt8} (hc : c ∈ s) (hd : isDigit c = false) (h45 : c ≠ 45) :
    parseInt s = none := by
  cases s with
  | nil => rfl
  | cons d s =>
    have hmem : c ∈ if d = 45 then s else d :: s := by
      split_ifs with h
      · exact (List.mem_cons.1 hc).resolve_left fun he => h45 (he.trans h)
      · exact hc
    unfold parseInt
    by_cases h : d = 45
    · simp only [h, if_true] at hmem ⊢
      rw [if_neg]
      rintro ⟨-, hall, -⟩
      simp [List.all_eq_true.1 hall c hmem] at hd
    · simp only [h, if_false] at hmem ⊢
      rw [if_neg]
      rintro ⟨-, hall, -⟩
      simp [List.all_eq_true.1 hall c hmem] at hd

end BlazeKV
