import BlazeKV.Proofs.SeventeenDigits

/-! Doubles as text, read back. Seventeen digits bring back every normal value; a subnormal one is
never seventeen digits exactly, and its text is out of range. -/

namespace BlazeKV

def digitValue? (c : UInt8) : Option ℕ := if isDigit c then some (c.toNat - 48) else none

/-- The digits of `ds` after those of `m`. -/
def digitsFrom (m : ℕ) (ds : Bytes) : ℕ := ds.foldl (fun n c => 10 * n + (c.toNat - 48)) m

theorem digitsFrom_append (m : ℕ) (ds ds' : Bytes) :
    digitsFrom m (ds ++ ds') = digitsFrom (digitsFrom m ds) ds' := List.foldl_append ..

theorem digitsFrom_zeros (m z : ℕ) : digitsFrom m (List.replicate z 48) = m * 10 ^ z := by
  induction z generalizing m with
  | zero => simp [digitsFrom]
  | succ z ih =>
    rw [List.replicate_succ]
    have hstep : digitsFrom m (48 :: List.replicate z 48) = digitsFrom (10 * m) (List.replicate z 48) := rfl
    rw [hstep, ih, pow_succ]
    ring

def AllDigits (s : Bytes) : Prop := ∀ c ∈ s, isDigit c = true

theorem AllDigits.append {s t : Bytes} (hs : AllDigits s) (ht : AllDigits t) : AllDigits (s ++ t) :=
  fun c hc => (List.mem_append.1 hc).elim (hs c) (ht c)

theorem AllDigits.sub {s t : Bytes} (ht : AllDigits t) (h : ∀ c ∈ s, c ∈ t) : AllDigits s :=
  fun c hc => ht c (h c hc)

theorem allDigits_zeros (z : ℕ) : AllDigits (List.replicate z 48) :=
  fun _ hc => List.eq_of_mem_replicate hc ▸ rfl

theorem allDigits_decimal (n : ℕ) : AllDigits (decimal n) := fun _ hc => isDigit_of_mem_decimal hc

/-! The mantissa. -/

theorem mantissa_digits {ds : Bytes} (hds : AllDigits ds) (point : Bool) (m f n : ℕ) (rest : Bytes) :
    mantissa 10 digitValue? point (m, f, n) (ds ++ rest) =
      mantissa 10 digitValue? point (digitsFrom m ds, if point then f + ds.length else f, n + ds.length)
        rest := by
  induction ds generalizing m f n with
  | nil => cases point <;> rfl
  | cons c ds ih =>
    have hval : digitValue? c = some (c.toNat - 48) := if_pos (hds c List.mem_cons_self)
    rw [List.cons_append, mantissa, hval]
    dsimp only
    rw [ih (hds.sub fun d hd => List.mem_cons_of_mem c hd)]
    cases point <;> simp [digitsFrom, Nat.add_assoc, Nat.add_comm 1]

theorem mantissa_stops (point : Bool) (acc : ℕ × ℕ × ℕ) {rest : Bytes}
    (hrest : rest = [] ∨ ∃ t, rest = 101 :: t) :
    mantissa 10 digitValue? point acc rest = (acc, rest) := by
  rcases hrest with rfl | ⟨t, rfl⟩
  · obtain ⟨m, f, n⟩ := acc
    rfl
  · obtain ⟨m, f, n⟩ := acc
    rw [mantissa, show digitValue? 101 = none from rfl]
    simp

theorem stripZeros_spec (s : Bytes) : ∃ z, s = stripZeros s ++ List.replicate z 48 := by
  refine ⟨(s.reverse.takeWhile (· = 48)).length, ?_⟩
  have hall : ∀ c ∈ s.reverse.takeWhile (· = 48), c = 48 := fun c hc => by
    simpa using List.all_eq_true.1 List.all_takeWhile c hc
  have hrep := List.eq_replicate_of_mem hall
  have hsplit := List.takeWhile_append_dropWhile (p := (· = 48)) (l := s.reverse)
  rw [hrep] at hsplit
  have := congrArg List.reverse hsplit
  rw [List.reverse_append, List.reverse_reverse, List.reverse_replicate] at this
  exact this.symm

/-- The mantissa of a conversion: trailing zeros dropped, their powers of ten kept. -/
theorem mantissa_withPoint {int frac rest : Bytes} (hint : AllDigits int) (hne : int ≠ [])
    (hfrac : AllDigits frac) (hrest : rest = [] ∨ ∃ t, rest = 101 :: t) :
    ∃ m f n z, mantissa 10 digitValue? false (0, 0, 0) (withPoint int frac ++ rest) = ((m, f, n), rest) ∧
      n ≠ 0 ∧ m * 10 ^ z = digitsValue (int ++ frac) ∧ f + z = frac.length := by
  obtain ⟨z, hz⟩ := stripZeros_spec frac
  have hlen : 0 < int.length := List.length_pos_of_ne_nil hne
  have hval : digitsValue (int ++ frac) = digitsFrom (digitsFrom 0 int) (stripZeros frac) * 10 ^ z := by
    conv_lhs => rw [hz]
    rw [← List.append_assoc]
    exact (digitsFrom_append 0 _ _).trans (by rw [digitsFrom_zeros, digitsFrom_append])
  have hflen : frac.length = (stripZeros frac).length + z := by
    conv_lhs => rw [hz]
    simp
  have hstrip : AllDigits (stripZeros frac) := hfrac.sub fun c hc => by
    rw [hz]
    exact List.mem_append_left _ hc
  unfold withPoint
  dsimp only
  split_ifs with hnil
  · rw [mantissa_digits hint, mantissa_stops false _ hrest]
    refine ⟨_, _, _, z, rfl, by omega, ?_, ?_⟩
    · rw [hval, hnil]
      rfl
    · rw [hflen, hnil]
      rfl
  · rw [List.append_assoc, mantissa_digits hint, List.cons_append, mantissa,
      show digitValue? 46 = none from rfl]
    dsimp only
    rw [if_pos (by simp), mantissa_digits hstrip, mantissa_stops true _ hrest]
    exact ⟨_, _, _, z, rfl, by omega, hval.symm, by simp [hflen]⟩

/-! The quotient. -/

theorem roundOrErange_mul (neg : Bool) {n d c : ℕ} (hc : 0 < c) :
    roundOrErange neg (n * c) (d * c) = roundOrErange neg n d := by
  have hexact : ∀ u, u * (d * c) ≠ n * c ↔ u * d ≠ n := by
    intro u
    rw [← mul_assoc, ne_eq, Nat.mul_left_inj hc.ne']
  unfold roundOrErange
  dsimp only
  rw [← mul_assoc 2, Lib.Binary64.roundQuot_mul hc, Lib.Binary64.roundQuot_mul hc]
  simp only [hexact]

theorem roundOrErange_congr (neg : Bool) {n d n' d' : ℕ} (hd : 0 < d) (hd' : 0 < d')
    (h : n * d' = n' * d) : roundOrErange neg n d = roundOrErange neg n' d' := by
  rw [← roundOrErange_mul neg hd', h, mul_comm d, roundOrErange_mul neg hd]

theorem scaled_pad (neg : Bool) (m z : ℕ) (e : ℤ) :
    scaled neg (m * 10 ^ z) 10 e = scaled neg m 10 (e + z) := by
  unfold scaled
  by_cases hm : m = 0
  · simp [hm]
  have hmz : m * 10 ^ z ≠ 0 := Nat.mul_ne_zero hm (Nat.pow_pos (by decide)).ne'
  rw [if_neg hm, if_neg hmz]
  apply roundOrErange_congr neg (Nat.pow_pos (by decide)) (Nat.pow_pos (by decide))
  generalize 2 ^ 1074 = den
  have hexp : z + e.toNat + (-(e + z)).toNat = (e + z).toNat + (-e).toNat := by omega
  calc m * 10 ^ z * 10 ^ e.toNat * den * 10 ^ (-(e + z)).toNat
      = m * den * 10 ^ (z + e.toNat + (-(e + z)).toNat) := by rw [pow_add, pow_add]; ring
    _ = m * 10 ^ (e + z).toNat * den * 10 ^ (-e).toNat := by rw [hexp, pow_add]; ring

/-! The grammar of the conversion. -/

/-- The letters of `inf`, `nan` and `0x`. -/
def Unmarked (s : Bytes) : Prop := ∀ c ∈ s, toLower c ≠ 105 ∧ toLower c ≠ 110 ∧ toLower c ≠ 120

theorem Unmarked.not_mem {s : Bytes} (h : Unmarked s) {d : UInt8} (hd : d = 105 ∨ d = 110 ∨ d = 120) :
    d ∉ lowercase s := by
  intro hmem
  obtain ⟨c, hc, rfl⟩ := List.mem_map.1 hmem
  rcases hd with hd | hd | hd
  · exact (h c hc).1 hd
  · exact (h c hc).2.1 hd
  · exact (h c hc).2.2 hd

theorem strtodUnsigned_plain (neg : Bool) {s : Bytes} (hs : Unmarked s) :
    strtodUnsigned neg s = (do
      let ((m, f, n), rest) := mantissa 10 digitValue? false (0, 0, 0) s
      let e ← exponent 101 rest
      if n = 0 then none else scaled neg m 10 (e - f)) := by
  have hinf : ¬(lowercase s = ascii "inf" ∨ lowercase s = ascii "infinity") := by
    rintro (h | h)
    · exact hs.not_mem (.inl rfl) (h ▸ by decide)
    · exact hs.not_mem (.inl rfl) (h ▸ by decide)
  have hnan : ¬((lowercase s).take 3 = ascii "nan" ∧ isNanTail (s.drop 3) = true) := fun h =>
    hs.not_mem (.inr (.inl rfl)) (List.mem_of_mem_take (h.1 ▸ (by decide : 110 ∈ ascii "nan")))
  have hhex : ¬(lowercase s).take 2 = ascii "0x" := fun h =>
    hs.not_mem (.inr (.inr rfl)) (List.mem_of_mem_take (h ▸ (by decide : 120 ∈ ascii "0x")))
  unfold strtodUnsigned
  dsimp only
  rw [if_neg hinf, if_neg hnan, if_neg hhex]
  rfl

theorem AllDigits.plain {s : Bytes} (hs : AllDigits s) : Unmarked s := by
  intro c hc
  have hd := hs c hc
  simp only [isDigit, decide_eq_true_eq] at hd
  have hlow : toLower c = c := if_neg (by omega)
  rw [hlow]
  refine ⟨?_, ?_, ?_⟩ <;> rintro rfl <;> exact absurd hd (by decide)

theorem Unmarked.cons {c : UInt8} {s : Bytes} (hc : toLower c ≠ 105 ∧ toLower c ≠ 110 ∧ toLower c ≠ 120)
    (hs : Unmarked s) : Unmarked (c :: s) := List.forall_mem_cons.2 ⟨hc, hs⟩

theorem Unmarked.append {s t : Bytes} (hs : Unmarked s) (ht : Unmarked t) : Unmarked (s ++ t) :=
  fun c hc => (List.mem_append.1 hc).elim (hs c) (ht c)

theorem plain_withPoint {int frac : Bytes} (hint : AllDigits int) (hfrac : AllDigits frac) :
    Unmarked (withPoint int frac) := by
  obtain ⟨z, hz⟩ := stripZeros_spec frac
  have hstrip : AllDigits (stripZeros frac) := hfrac.sub fun c hc => by
    rw [hz]
    exact List.mem_append_left _ hc
  unfold withPoint
  dsimp only
  split_ifs
  · exact hint.plain
  · have hpoint : Unmarked [46] := .cons (by decide) (List.forall_mem_nil _)
    exact hint.plain.append (hpoint.append hstrip.plain)

/-- A conversion reads as its digits at the scale of the last one. -/
theorem strtodUnsigned_withPoint (neg : Bool) {int frac rest : Bytes} {e : ℤ} (hint : AllDigits int)
    (hne : int ≠ []) (hfrac : AllDigits frac) (hrest : rest = [] ∨ ∃ t, rest = 101 :: t)
    (hplain : Unmarked rest) (he : exponent 101 rest = some e) :
    strtodUnsigned neg (withPoint int frac ++ rest) =
      scaled neg (digitsValue (int ++ frac)) 10 (e - frac.length) := by
  obtain ⟨m, f, n, z, hm, hn, hval, hlen⟩ := mantissa_withPoint hint hne hfrac hrest
  rw [strtodUnsigned_plain neg ((plain_withPoint hint hfrac).append hplain), hm]
  have hscale : e - frac.length + z = e - f := by omega
  simp only [he, Option.bind_eq_bind, Option.bind_some, if_neg hn]
  rw [← hval, scaled_pad, hscale]

/-- The exponent of a conversion has two digits at least. -/
theorem exponent_text (x : ℤ) :
    exponent 101 (101 :: (if x < 0 then 45 else 43) ::
      (if (decimal x.natAbs).length < 2 then 48 :: decimal x.natAbs else decimal x.natAbs)) = some x := by
  obtain ⟨hne, hall, hval⟩ := decimal_spec x.natAbs
  generalize hds : (if (decimal x.natAbs).length < 2 then 48 :: decimal x.natAbs
    else decimal x.natAbs) = ds
  have hspec : ds ≠ [] ∧ ds.all isDigit = true ∧ digitsValue ds = x.natAbs := by
    rw [← hds]
    split_ifs
    · refine ⟨by simp, ?_, ?_⟩
      · rw [List.all_cons, List.all_eq_true.2 hall]
        rfl
      · exact (show digitsValue (48 :: decimal x.natAbs) = digitsValue (decimal x.natAbs) from rfl).trans hval
    · exact ⟨hne, List.all_eq_true.2 hall, hval⟩
  have hmark : ¬toLower 101 ≠ 101 := by decide
  by_cases hx : x < 0
  · rw [if_pos hx, exponent, if_neg hmark]
    dsimp only
    rw [if_pos rfl]
    dsimp only
    rw [if_pos ⟨hspec.1, hspec.2.1⟩, hspec.2.2, if_pos rfl]
    congr 1
    omega
  · rw [if_neg hx, exponent, if_neg hmark]
    dsimp only
    rw [if_neg (show ¬(43 : UInt8) = 45 by decide), if_pos rfl]
    dsimp only
    rw [if_pos ⟨hspec.1, hspec.2.1⟩, hspec.2.2, if_neg (by decide)]
    congr 1
    omega

theorem plain_exponent (x : ℤ) : Unmarked (101 :: (if x < 0 then 45 else 43) ::
    (if (decimal x.natAbs).length < 2 then 48 :: decimal x.natAbs else decimal x.natAbs)) := by
  have hsign : Unmarked [101, if x < 0 then 45 else 43] := by
    refine .cons (by decide) (.cons ?_ (List.forall_mem_nil _))
    split_ifs <;> decide
  have hzero : AllDigits [48] := allDigits_zeros 1
  split_ifs at hsign ⊢
  · exact hsign.append (hzero.append (allDigits_decimal _)).plain
  · exact hsign.append (allDigits_decimal _).plain
  · exact hsign.append (hzero.append (allDigits_decimal _)).plain
  · exact hsign.append (allDigits_decimal _).plain

theorem strtodUnsigned_formatG (neg : Bool) {u : ℕ} (hu : 0 < u) :
    strtodUnsigned neg (formatG u) = scaled neg (significant u).1 10 ((significant u).2 - 16) := by
  obtain ⟨hlow, hhigh, -⟩ := significant_spec hu
  unfold formatG
  rw [if_neg hu.ne']
  generalize hdx : significant u = dx
  obtain ⟨d, x⟩ := dx
  rw [hdx] at hlow hhigh
  dsimp only at hlow hhigh ⊢
  have hlen : (decimal d).length = 17 := decimal_length_eq hlow hhigh
  have hdigits := allDigits_decimal d
  have htake : ∀ n, AllDigits ((decimal d).take n) := fun n => hdigits.sub fun _ => List.mem_of_mem_take
  have hdrop : ∀ n, AllDigits ((decimal d).drop n) := fun n => hdigits.sub fun _ => List.mem_of_mem_drop
  have hval := (decimal_spec d).2.2
  by_cases hexp : x < -4 ∨ 17 ≤ x
  · have hne : (decimal d).take 1 ≠ [] := List.ne_nil_of_length_pos (by simp [hlen])
    rw [if_pos hexp, List.append_assoc]
    refine (strtodUnsigned_withPoint neg (htake 1) hne (hdrop 1) (.inr ⟨_, rfl⟩) (plain_exponent x)
      (exponent_text x)).trans ?_
    rw [List.take_append_drop, hval]
    simp [hlen]
  by_cases hneg : x < 0
  · rw [if_neg hexp, if_pos hneg, ← List.append_nil (withPoint _ _)]
    refine (strtodUnsigned_withPoint neg (allDigits_zeros 1) (by simp)
      ((allDigits_zeros _).append hdigits) (.inl rfl) (by simp [Unmarked]) rfl).trans ?_
    have hlead : digitsValue ([48] ++ (List.replicate ((-x).toNat - 1) 48 ++ decimal d)) = d := by
      refine (digitsFrom_append 0 [48] _).trans ((digitsFrom_append _ _ _).trans ?_)
      rw [digitsFrom_zeros]
      exact (congrArg (digitsFrom · (decimal d)) (Nat.zero_mul _)).trans hval
    have hscale : (0 : ℤ) - (List.replicate ((-x).toNat - 1) 48 ++ decimal d).length = x - 16 := by
      rw [List.length_append, List.length_replicate, hlen]
      omega
    rw [List.replicate_one, hlead, hscale]
  · have hne : (decimal d).take (x.toNat + 1) ≠ [] := List.ne_nil_of_length_pos (by simp [hlen])
    rw [if_neg hexp, if_neg hneg, ← List.append_nil (withPoint _ _)]
    refine (strtodUnsigned_withPoint neg (htake _) hne (hdrop _) (.inl rfl) (by simp [Unmarked]) rfl).trans ?_
    have hscale : (0 : ℤ) - ((decimal d).drop (x.toNat + 1)).length = x - 16 := by
      rw [List.length_drop, hlen]
      omega
    rw [List.take_append_drop, hval, hscale]

theorem withPoint_head (int frac : Bytes) {c : UInt8} {t : Bytes} (h : int = c :: t) (rest : Bytes) :
    ∃ t', withPoint int frac ++ rest = c :: t' := by
  subst h
  unfold withPoint
  dsimp only
  split_ifs
  · exact ⟨_, rfl⟩
  · exact ⟨_, rfl⟩

/-- A conversion begins with a digit. -/
theorem formatG_head (u : ℕ) : ∃ c t, formatG u = c :: t ∧ isDigit c = true := by
  unfold formatG
  split_ifs
  · exact ⟨48, [], rfl, rfl⟩
  generalize significant u = dx
  obtain ⟨d, x⟩ := dx
  dsimp only
  obtain ⟨c, t, hc⟩ := List.exists_cons_of_ne_nil (decimal_ne_nil d)
  have hdigit : isDigit c = true := isDigit_of_mem_decimal (hc ▸ List.mem_cons_self)
  by_cases hexp : x < -4 ∨ 17 ≤ x
  · obtain ⟨t', ht⟩ := withPoint_head ((decimal d).take 1) ((decimal d).drop 1)
      (c := c) (t := []) (by rw [hc]; rfl) ([101, if x < 0 then 45 else 43] ++
        (if (decimal x.natAbs).length < 2 then 48 :: decimal x.natAbs else decimal x.natAbs))
    rw [if_pos hexp, List.append_assoc]
    exact ⟨c, t', ht, hdigit⟩
  by_cases hneg : x < 0
  · obtain ⟨t', ht⟩ := withPoint_head [48] (List.replicate ((-x).toNat - 1) 48 ++ decimal d)
      (c := 48) (t := [])
      rfl []
    rw [if_neg hexp, if_pos hneg]
    exact ⟨48, t', by rw [← ht, List.append_nil], rfl⟩
  · obtain ⟨t', ht⟩ := withPoint_head ((decimal d).take (x.toNat + 1))
      ((decimal d).drop (x.toNat + 1)) (c := c)
      (t := t.take x.toNat) (by rw [hc]; rfl) []
    rw [if_neg hexp, if_neg hneg]
    exact ⟨c, t', by rw [← ht, List.append_nil], hdigit⟩

/-! The whole conversion. -/

section Scaled

variable {m d : ℕ} {x : ℤ}

/-- Seventeen digits below the normal range are never exact: a power of five would divide them. -/
theorem subnormal_inexact (hm : m < 2 ^ 52) (hd : 0 < d) (hd' : d < 10 ^ 17) :
    m * 10 ^ (16 - x).toNat ≠ d * 10 ^ (x - 16).toNat * 2 ^ 1074 := by
  intro heq
  have hbig : 2 ^ 200 ≤ 2 ^ 1074 := Nat.pow_le_pow_right (by decide) (by decide)
  have hcop : ∀ k, Nat.Coprime (5 ^ k) (2 ^ 1074) := fun k => Nat.Coprime.pow k 1074 (by decide)
  generalize 2 ^ 1074 = den at *
  have hk : 25 ≤ (16 - x).toNat := by
    by_contra hlt
    have h1 : 10 ^ (16 - x).toNat ≤ 10 ^ 24 := Nat.pow_le_pow_right (by decide) (by omega)
    have h2 : m * 10 ^ (16 - x).toNat ≤ 2 ^ 52 * 10 ^ 24 := Nat.mul_le_mul hm.le h1
    have h3 : 1 * 2 ^ 200 ≤ d * 10 ^ (x - 16).toNat * den :=
      Nat.mul_le_mul (Nat.mul_pos hd (Nat.pow_pos (by decide))) hbig
    omega
  have hx : (x - 16).toNat = 0 := by omega
  rw [hx, pow_zero, mul_one] at heq
  have hten : 5 ^ (16 - x).toNat ∣ 10 ^ (16 - x).toNat := pow_dvd_pow_of_dvd (by decide) _
  have hdvd : 5 ^ (16 - x).toNat ∣ d := by
    apply (hcop _).dvd_of_dvd_mul_right
    rw [← heq]
    exact hten.mul_left m
  have h5 : 5 ^ 25 ≤ 5 ^ (16 - x).toNat := Nat.pow_le_pow_right (by decide) hk
  have := Nat.le_of_dvd hd hdvd
  omega

theorem scaled_near (neg : Bool) (hm : 0 < m) (hmax : m < Lib.Binary64.infMag) (hd : 10 ^ 16 ≤ d)
    (hd' : d < 10 ^ 17) (h : Near (Lib.Binary64.units m) (2 ^ 1074) d x) :
    scaled neg d 10 (x - 16) = if m < 2 ^ 52 then none else some (.make neg m) := by
  have hexp : -(x - 16) = 16 - x := by omega
  have hd0 : d ≠ 0 := by omega
  have hinexact := fun hlt => subnormal_inexact (x := x) (m := m) hlt (Nat.pos_of_ne_zero hd0) hd'
  have hinf : 2 ^ 53 ≤ Lib.Binary64.infMag := by decide
  have hpos := Nat.mul_pos (Lib.Binary64.units_pos hm)
    (Nat.pow_pos (n := (16 - x).toNat) (show 0 < 10 by decide))
  obtain ⟨hup, hdown⟩ := h
  unfold scaled roundOrErange
  rw [if_neg hd0, hexp]
  generalize 2 ^ 1074 = den at *
  rw [mul_comm den, ← mul_assoc d] at hup hdown
  dsimp only
  generalize d * 10 ^ (x - 16).toNat * den = n at *
  generalize 10 ^ (16 - x).toNat = D at *
  have hround : Lib.Binary64.roundQuot n D = m := by
    rw [Lib.Binary64.roundQuot_near (m := m) (by omega) (by omega)]
    exact min_eq_left hmax.le
  rw [hround, if_neg hmax.ne]
  by_cases hsub : m < 2 ^ 52
  · have htwo := Lib.Binary64.units_two_mul hsub
    have hdouble : Lib.Binary64.roundQuot (2 * n) D = 2 * m := by
      rw [Lib.Binary64.roundQuot_near (m := 2 * m) (by rw [htwo, mul_assoc]; omega)
        (by rw [htwo, mul_assoc]; omega)]
      exact min_eq_left (by omega)
    have hu : Lib.Binary64.units m = m := if_pos hsub
    rw [hdouble, hu, if_pos ⟨by omega, hinexact hsub⟩, if_pos hsub]
  · have htwo := Lib.Binary64.units_add (Nat.not_lt.1 hsub)
    have hdouble : Lib.Binary64.roundQuot (2 * n) D = min (m + 2 ^ 52) Lib.Binary64.infMag :=
      Lib.Binary64.roundQuot_near (m := m + 2 ^ 52) (by rw [htwo, mul_assoc]; omega)
        (by rw [htwo, mul_assoc]; omega)
    have hnormal : 2 ^ 53 ≤ min (m + 2 ^ 52) Lib.Binary64.infMag := le_min (by omega) hinf
    rw [hdouble, if_neg fun h => absurd h.1 (Nat.not_lt.2 hnormal), if_neg hsub]

end Scaled

theorem make_mag (v : Double) : Lib.Binary64.make v.negative v.mag = v := by
  have hlt := v.bits.toNat_lt
  have hbits : (if v.negative then 2 ^ 63 else 0) + v.mag = v.bits.toNat := by
    unfold Lib.Binary64.negative Lib.Binary64.mag
    simp only [decide_eq_true_eq]
    split_ifs <;> omega
  unfold Lib.Binary64.make
  rw [hbits, UInt64.ofNat_toNat]

theorem strtodUnsigned_zero (neg : Bool) : strtodUnsigned neg [48] = some (.make neg 0) := by
  have hplain : Unmarked [48] := (allDigits_zeros 1).plain
  rw [strtodUnsigned_plain neg hplain]
  rfl

theorem strtodUnsigned_finite {v : Double} (hnan : v.isNaN = false) (hinf : v.isInf = false) :
    strtodUnsigned v.negative (formatG (Lib.Binary64.units v.mag)) =
      if 0 < v.mag ∧ v.mag < 2 ^ 52 then none else some v := by
  have hmax : v.mag < Lib.Binary64.infMag := by
    simp only [Lib.Binary64.isNaN, Lib.Binary64.isInf, decide_eq_false_iff_not] at hnan hinf
    omega
  rcases Nat.eq_zero_or_pos v.mag with h0 | hpos
  · have hzero : formatG (Lib.Binary64.units v.mag) = [48] := by
      rw [h0, Lib.Binary64.units_zero]
      exact if_pos rfl
    rw [hzero, strtodUnsigned_zero, if_neg (by omega), ← h0, make_mag]
  · have hu := Lib.Binary64.units_pos hpos
    obtain ⟨hlow, hhigh, hnear⟩ := significant_spec hu
    rw [strtodUnsigned_formatG v.negative hu, scaled_near v.negative hpos hmax hlow hhigh hnear, make_mag]
    simp [hpos]

theorem strtod_digit {c : UInt8} {t : Bytes} (hc : isDigit c = true) :
    strtod (c :: t) = strtodUnsigned false (c :: t) ∧
    strtod (45 :: c :: t) = strtodUnsigned true (c :: t) := by
  have hspace : isSpace c = false := by
    simp only [isDigit, decide_eq_true_eq] at hc
    simp only [isSpace, decide_eq_false_iff_not]
    omega
  have h45 : c ≠ 45 := ne_of_isDigit hc (by decide)
  have h43 : c ≠ 43 := ne_of_isDigit hc (by decide)
  constructor
  · simp [strtod, hspace, h45, h43]
  · simp [strtod, show isSpace 45 = false from rfl]

theorem parseDouble_digit {c : UInt8} {t : Bytes} (hc : isDigit c = true) :
    parseDouble (c :: t) = strtodUnsigned false (c :: t) ∧
      parseDouble (45 :: c :: t) = strtodUnsigned true (c :: t) := by
  have hne : ∀ d, isDigit d = false → c ≠ d := fun d => ne_of_isDigit hc
  obtain ⟨hpos, hneg⟩ := strtod_digit (t := t) hc
  rw [← hpos, ← hneg]
  constructor
  · have h105 := hne 105 (by decide)
    have h73 := hne 73 (by decide)
    have h43 := hne 43 (by decide)
    have h45 := hne 45 (by decide)
    simp [parseDouble, ascii, h105, h73, h43, h45]
  · have h105 := hne 105 (by decide)
    have h73 := hne 73 (by decide)
    simp [parseDouble, ascii, h105, h73]

/-- The text of a NaN has no payload. -/
theorem parse_nan {v : Double} (h : v.isNaN = true) : parseDouble (doubleToString v) = some .nan := by
  have hinf : ¬v.isInf = true := by
    simp only [Lib.Binary64.isNaN, Lib.Binary64.isInf, decide_eq_true_eq] at h ⊢
    omega
  unfold doubleToString
  rw [if_neg hinf, if_pos h]
  decide

/-- Every other double is read back, or refused below the normal range. -/
theorem parse_number {v : Double} (h : v.isNaN = false) :
    parseDouble (doubleToString v) = if 0 < v.mag ∧ v.mag < 2 ^ 52 then none else some v := by
  have hsign := make_mag v
  unfold doubleToString
  by_cases hinf : v.isInf = true
  · have hmag : v.mag = Lib.Binary64.infMag := by simpa [Lib.Binary64.isInf] using hinf
    have hbig : ¬(0 < v.mag ∧ v.mag < 2 ^ 52) := by
      rw [hmag]
      decide
    rw [if_pos hinf, if_neg hbig]
    rw [hmag] at hsign
    generalize v.negative = neg at hsign ⊢
    rw [← hsign]
    cases neg
    · rfl
    · rfl
  · rw [Bool.not_eq_true] at hinf
    rw [if_neg (show ¬v.isInf = true by simp [hinf]), if_neg (show ¬v.isNaN = true by simp [h]),
      ← strtodUnsigned_finite h hinf]
    obtain ⟨c, t, htext, hc⟩ := formatG_head (Lib.Binary64.units v.mag)
    obtain ⟨hpos, hneg⟩ := parseDouble_digit (t := t) hc
    rw [htext]
    cases v.negative
    · exact hpos
    · exact hneg

/-- A double read back from its own text: the same one, but for the payload of a NaN and for the
values below the normal range, whose text is refused. -/
theorem parse_printed_double (v : Double) : parseDouble (doubleToString v) =
    if v.isNaN then some .nan else if 0 < v.mag ∧ v.mag < 2 ^ 52 then none else some v := by
  cases h : v.isNaN with
  | true => exact parse_nan h
  | false => exact parse_number h

end BlazeKV
