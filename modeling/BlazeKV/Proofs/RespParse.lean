import BlazeKV.Proofs.Decimal
import BlazeKV.Spec.Resp

/-! The request parser on encoded commands. A whole record is read back; a record
that was cut is not, unless the bytes after the cut complete it. Buffers are
shorter than `2 ^ 62` bytes, the bound of `std::string`. -/

namespace BlazeKV.RequestParser

theorem findCrlfAux_skip {ds : Bytes} (h : 13 ∉ ds) (s : Bytes) (pos : ℕ) :
    findCrlfAux (ds ++ s) pos = findCrlfAux s (pos + ds.length) := by
  induction ds generalizing pos with
  | nil => rfl
  | cons d ds ih =>
    obtain ⟨hd, hds⟩ : (13 : UInt8) ≠ d ∧ 13 ∉ ds := by simpa using h
    have hstep : findCrlfAux (d :: (ds ++ s)) pos = findCrlfAux (ds ++ s) (pos + 1) := by
      cases hs : ds ++ s with
      | nil => rfl
      | cons b t => rw [findCrlfAux, if_neg fun h => hd h.1.symm]
    rw [List.cons_append, hstep, ih hds, List.length_cons]
    congr 1
    omega

theorem findCrlfAux_crlf (s : Bytes) (pos : ℕ) : findCrlfAux (crlf ++ s) pos = some pos := by
  simp [crlf, findCrlfAux]

theorem le_of_findCrlfAux {s : Bytes} {pos n : ℕ} (h : findCrlfAux s pos = some n) : pos ≤ n := by
  induction s generalizing pos with
  | nil => exact absurd h (by simp [findCrlfAux])
  | cons a s ih =>
    cases s with
    | nil => exact absurd h (by simp [findCrlfAux])
    | cons b s =>
      rw [findCrlfAux] at h
      split_ifs at h
      · exact (Option.some.inj h).le
      · exact (Nat.le_succ _).trans (ih h)

theorem findCrlf_append (a s : Bytes) : findCrlf (a ++ s) a.length = findCrlfAux s a.length := by
  simp [findCrlf]

/-- The line that starts after `a`. -/
theorem findCrlf_line (a : Bytes) {ds : Bytes} (h : 13 ∉ ds) (s : Bytes) :
    findCrlf (a ++ (ds ++ (crlf ++ s))) a.length = some (a.length + ds.length) := by
  rw [findCrlf_append, findCrlfAux_skip h, findCrlfAux_crlf]

theorem view_append (a x s : Bytes) : view (a ++ (x ++ s)) a.length x.length = x := by
  simp [view]

theorem not_mem_decimal_cr (n : ℕ) : (13 : UInt8) ∉ decimal n := not_mem_decimal (by decide) n

/-- The line in front of a bulk string. -/
def bulkHead (n : ℕ) : Bytes := 36 :: (decimal n ++ crlf)

theorem bulk_eq (x : Bytes) : Reply.bulk x = bulkHead x.length ++ (x ++ crlf) := by
  simp [Reply.bulk, bulkHead]

theorem bulkHead_length (n : ℕ) : (bulkHead n).length = (decimal n).length + 3 := by
  simp [bulkHead, crlf]

theorem encode_eq (c : List Bytes) :
    encodeMultibulk c = 42 :: (decimal c.length ++ (crlf ++ c.flatMap Reply.bulk)) := by
  rw [encodeMultibulk, intToString_natCast, List.cons_append, List.cons_append, List.append_assoc]
  rfl

/-- The parse of the line in front of a bulk string. -/
theorem parseBulks_head (a s : Bytes) (n count : ℕ) (argv : List Bytes) :
    parseBulks (a ++ (bulkHead n ++ s)) (count + 1) a.length argv =
      if n < 2 ^ 63 then
        let start := u64 (a.length + (bulkHead n).length)
        let stop := u64 (start + n)
        if u64 (stop + 2) > (a ++ (bulkHead n ++ s)).length then .needMore
        else parseBulks (a ++ (bulkHead n ++ s)) count (u64 (stop + 2))
          (argv ++ [view (a ++ (bulkHead n ++ s)) start n])
      else .protocolError (ascii "invalid bulk length") := by
  have hlen : a.length < (a ++ (bulkHead n ++ s)).length := by
    simp [bulkHead]
  have hget : (a ++ (bulkHead n ++ s)).getD a.length 0 = 36 := by
    simp [bulkHead, List.getD]
  have hsplit : a ++ (bulkHead n ++ s) = (a ++ [36]) ++ (decimal n ++ (crlf ++ s)) := by
    simp [bulkHead]
  have hone : (a ++ [36]).length = a.length + 1 := List.length_append
  have hcr : findCrlf (a ++ (bulkHead n ++ s)) (a.length + 1) =
      some (a.length + 1 + (decimal n).length) := by
    have := findCrlf_line (a ++ [36]) (not_mem_decimal_cr n) s
    rwa [← hsplit, hone] at this
  have hview : view (a ++ (bulkHead n ++ s)) (a.length + 1)
      (a.length + 1 + (decimal n).length - a.length - 1) = decimal n := by
    have := view_append (a ++ [36]) (decimal n) (crlf ++ s)
    rw [← hsplit, hone] at this
    rwa [show a.length + 1 + (decimal n).length - a.length - 1 = (decimal n).length by omega]
  rw [parseBulks, if_neg (by omega), hget, if_neg (by decide), hcr]
  dsimp only
  rw [hview, parseInt_decimal]
  by_cases hn : n < 2 ^ 63
  · have hstart : a.length + 1 + (decimal n).length + 2 = a.length + (bulkHead n).length := by
      rw [bulkHead_length]
      omega
    rw [if_pos hn, if_pos hn]
    dsimp only
    rw [if_neg (by omega), Int.toNat_natCast, hstart]
  · rw [if_neg hn, if_neg hn]

/-- One bulk string, with any two bytes behind its payload. -/
theorem parseBulks_bulk (a x y s : Bytes) (hy : y.length = 2) (count : ℕ) (argv : List Bytes)
    (hsize : (a ++ (bulkHead x.length ++ (x ++ (y ++ s)))).length < 2 ^ 62) :
    parseBulks (a ++ (bulkHead x.length ++ (x ++ (y ++ s)))) (count + 1) a.length argv =
      parseBulks (a ++ (bulkHead x.length ++ (x ++ (y ++ s)))) count
        (a ++ (bulkHead x.length ++ (x ++ y))).length (argv ++ [x]) := by
  rw [parseBulks_head]
  have hview := view_append (a ++ bulkHead x.length) x (y ++ s)
  simp only [List.length_append, List.append_assoc, hy] at hsize hview ⊢
  rw [if_pos (by omega), u64_of_lt (n := a.length + (bulkHead x.length).length) (by omega),
    u64_of_lt (n := a.length + (bulkHead x.length).length + x.length) (by omega),
    u64_of_lt (by omega), if_neg (by omega), hview,
    show a.length + (bulkHead x.length).length + x.length + 2 =
      a.length + ((bulkHead x.length).length + (x.length + 2)) by omega]

theorem parseBulks_flatMap (xs : List Bytes) (a s : Bytes) (argv : List Bytes)
    (hsize : (a ++ (xs.flatMap Reply.bulk ++ s)).length < 2 ^ 62) :
    parseBulks (a ++ (xs.flatMap Reply.bulk ++ s)) xs.length a.length argv =
      .ok (argv ++ xs) (a ++ xs.flatMap Reply.bulk).length := by
  induction xs generalizing a argv with
  | nil => simp [parseBulks]
  | cons x xs ih =>
    have hsplit : a ++ ((x :: xs).flatMap Reply.bulk ++ s) =
        a ++ (bulkHead x.length ++ (x ++ (crlf ++ (xs.flatMap Reply.bulk ++ s)))) := by
      simp [bulk_eq]
    have hassoc : a ++ (bulkHead x.length ++ (x ++ (crlf ++ (xs.flatMap Reply.bulk ++ s)))) =
        (a ++ (bulkHead x.length ++ (x ++ crlf))) ++ (xs.flatMap Reply.bulk ++ s) := by
      simp
    rw [hsplit] at hsize ⊢
    rw [List.length_cons, parseBulks_bulk a x crlf _ rfl _ _ hsize]
    rw [hassoc] at hsize ⊢
    rw [ih _ _ hsize]
    simp [bulk_eq]

/-- The parse of a header line. -/
theorem parse_head (n : ℕ) (s : Bytes) :
    parse (42 :: (decimal n ++ (crlf ++ s))) =
      if n < 2 ^ 63 ∧ (n : ℤ) ≤ kMaxCount then
        parseBulks (42 :: (decimal n ++ (crlf ++ s))) n (42 :: (decimal n ++ crlf)).length []
      else .protocolError (ascii "invalid multibulk length") := by
  have hcr : findCrlf (42 :: (decimal n ++ (crlf ++ s))) 0 = some (1 + (decimal n).length) := by
    have := findCrlf_line [] (show 13 ∉ 42 :: decimal n by
      simpa using not_mem_decimal_cr n) s
    rw [Nat.add_comm]
    simpa using this
  have hview : view (42 :: (decimal n ++ (crlf ++ s))) 1 (1 + (decimal n).length - 1) = decimal n := by
    simpa using view_append [42] (decimal n) (crlf ++ s)
  rw [parse, if_neg (by simp), if_pos (by simp), parseMultibulk, hcr]
  dsimp only
  rw [hview, parseInt_decimal]
  by_cases hn : n < 2 ^ 63
  · simp only [hn, if_true, true_and]
    by_cases hk : (n : ℤ) ≤ kMaxCount
    · rw [if_neg (by omega), if_pos hk, Int.toNat_natCast]
      congr 1
      simp [crlf]
      omega
    · rw [if_pos (by omega), if_neg hk]
  · simp only [hn, if_false, false_and]

/-- A whole record is read back, whatever follows it. -/
theorem parse_encode (c : List Bytes) (s : Bytes) (hc : (c.length : ℤ) ≤ kMaxCount)
    (hsize : (encodeMultibulk c ++ s).length < 2 ^ 62) :
    parse (encodeMultibulk c ++ s) = .ok c (encodeMultibulk c).length := by
  have hsplit : encodeMultibulk c ++ s =
      42 :: (decimal c.length ++ (crlf ++ (c.flatMap Reply.bulk ++ s))) := by
    simp [encode_eq]
  have hassoc : 42 :: (decimal c.length ++ (crlf ++ (c.flatMap Reply.bulk ++ s))) =
      (42 :: (decimal c.length ++ crlf)) ++ (c.flatMap Reply.bulk ++ s) := by simp
  have hk : c.length < 2 ^ 63 := by
    have : kMaxCount = 1048576 := by decide
    omega
  rw [hsplit] at hsize ⊢
  rw [parse_head, if_pos ⟨hk, hc⟩]
  rw [hassoc] at hsize ⊢
  rw [parseBulks_flatMap _ _ _ _ hsize]
  simp [encode_eq]

/-- A record with too many arguments is refused. -/
theorem parse_encode_long (c : List Bytes) (s : Bytes) (hc : kMaxCount < c.length) :
    parse (encodeMultibulk c ++ s) = .protocolError (ascii "invalid multibulk length") := by
  have hsplit : encodeMultibulk c ++ s =
      42 :: (decimal c.length ++ (crlf ++ (c.flatMap Reply.bulk ++ s))) := by
    simp [encode_eq]
  rw [hsplit, parse_head, if_neg]
  omega

end BlazeKV.RequestParser
