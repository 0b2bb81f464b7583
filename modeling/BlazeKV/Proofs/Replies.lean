import BlazeKV.Proofs.Decimal
import BlazeKV.Spec.Resp

/-! Well-formed RESP values. No value is a proper beginning of another, so that a
stream of them reads back in one way. -/

namespace BlazeKV

/-- A line holds neither of the bytes that end it. -/
def IsLine (s : Bytes) : Prop := 13 ∉ s ∧ 10 ∉ s

/-- The bytes of one RESP value. -/
inductive IsReply : Bytes → Prop
  | status {s : Bytes} (h : IsLine s) : IsReply (Reply.simpleString s)
  | error {s : Bytes} (h : IsLine s) : IsReply (Reply.error s)
  | integer (n : ℤ) : IsReply (Reply.integer n)
  | bulk (s : Bytes) : IsReply (Reply.bulk s)
  | nullBulk : IsReply Reply.nullBulk
  | nullArray : IsReply Reply.nullArray
  | array (vs : List Bytes) (h : ∀ v ∈ vs, IsReply v) : IsReply (Reply.arrayHeader vs.length ++ vs.flatten)

/-- Two texts up to their first line end. -/
theorem line_inj {a b x y : Bytes} (ha : 13 ∉ a) (hb : 13 ∉ b) (h : a ++ (crlf ++ x) = b ++ (crlf ++ y)) :
    a = b ∧ x = y := by
  induction a generalizing b with
  | nil =>
    cases b with
    | nil => exact ⟨rfl, by simpa using h⟩
    | cons c b =>
      simp only [List.nil_append, crlf, List.cons_append, List.cons.injEq] at h
      exact absurd (h.1 ▸ List.mem_cons_self) hb
  | cons c a ih =>
    cases b with
    | nil =>
      simp only [List.nil_append, crlf, List.cons_append, List.cons.injEq] at h
      exact absurd (h.1 ▸ List.mem_cons_self) ha
    | cons c' b =>
      simp only [List.cons_append, List.cons.injEq] at h
      obtain ⟨hab, hxy⟩ := ih (fun hm => ha (List.mem_cons_of_mem _ hm)) (fun hm => hb (List.mem_cons_of_mem _ hm)) h.2
      exact ⟨by rw [h.1, hab], hxy⟩

theorem not_mem_intToString {d : UInt8} (hd : isDigit d = false) (hm : d ≠ 45) (n : ℤ) : d ∉ intToString n := by
  unfold intToString
  split_ifs
  · simp [hm, not_mem_decimal hd]
  · exact not_mem_decimal hd _

theorem isLine_intToString (n : ℤ) : IsLine (intToString n) :=
  ⟨not_mem_intToString (by decide) (by decide) n, not_mem_intToString (by decide) (by decide) n⟩

theorem decimal_injective {n m : ℕ} (h : decimal n = decimal m) : n = m := by
  rw [← (decimal_spec n).2.2, h, (decimal_spec m).2.2]

theorem intToString_injective {n m : ℤ} (h : intToString n = intToString m) : n = m := by
  have hsign : ∀ k : ℕ, ∀ x, 45 :: x ≠ decimal k := fun k x hx =>
    not_mem_decimal (d := 45) (by decide) k (hx ▸ List.mem_cons_self)
  unfold intToString at h
  split_ifs at h
  · have := decimal_injective (List.cons.inj h).2
    omega
  · exact absurd h (hsign _ _)
  · exact absurd h.symm (hsign _ _)
  · have := decimal_injective h
    omega

/-! The kinds of values by their first byte. -/

section Kinds

variable {s s' x y : Bytes} {n m : ℤ}

@[simp] theorem head_simpleString : (Reply.simpleString s).head? = some 43 := rfl
@[simp] theorem head_error : (Reply.error s).head? = some 45 := rfl
@[simp] theorem head_integer : (Reply.integer n).head? = some 58 := rfl
@[simp] theorem head_bulk : (Reply.bulk s).head? = some 36 := rfl
@[simp] theorem head_nullBulk : (Reply.nullBulk).head? = some 36 := rfl
@[simp] theorem head_nullArray : (Reply.nullArray).head? = some 42 := rfl
@[simp] theorem head_arrayHeader : (Reply.arrayHeader n).head? = some 42 := rfl

theorem integer_append_inj (h : Reply.integer n ++ x = Reply.integer m ++ y) : n = m ∧ x = y := by
  simp only [Reply.integer, List.cons_append, List.append_assoc, List.cons.injEq, true_and] at h
  obtain ⟨hn, hx⟩ := line_inj (isLine_intToString n).1 (isLine_intToString m).1 h
  exact ⟨intToString_injective hn, hx⟩

theorem arrayHeader_append_inj (h : Reply.arrayHeader n ++ x = Reply.arrayHeader m ++ y) : n = m ∧ x = y := by
  simp only [Reply.arrayHeader, List.cons_append, List.append_assoc, List.cons.injEq, true_and] at h
  obtain ⟨hn, hx⟩ := line_inj (isLine_intToString n).1 (isLine_intToString m).1 h
  exact ⟨intToString_injective hn, hx⟩

theorem bulk_append_inj (h : Reply.bulk s ++ x = Reply.bulk s' ++ y) : s = s' ∧ x = y := by
  simp only [Reply.bulk, List.cons_append, List.append_assoc, List.cons.injEq, true_and] at h
  obtain ⟨hn, hx⟩ := line_inj (isLine_intToString _).1 (isLine_intToString _).1 h
  have hlen : s.length = s'.length := by exact_mod_cast intToString_injective hn
  obtain ⟨hs, hrest⟩ := List.append_inj hx hlen
  exact ⟨hs, List.append_cancel_left hrest⟩

theorem bulk_injective (h : Reply.bulk s = Reply.bulk s') : s = s' := by
  refine (bulk_append_inj (x := []) (y := []) ?_).1
  rw [h]

theorem nullBulk_eq : Reply.nullBulk = 36 :: intToString (-1) ++ crlf := by decide

theorem nullArray_eq : Reply.nullArray = Reply.arrayHeader (-1) := by decide

theorem nullBulk_ne_bulk : Reply.nullBulk ++ x ≠ Reply.bulk s ++ y := by
  intro h
  rw [nullBulk_eq] at h
  simp only [Reply.bulk, List.cons_append, List.append_assoc, List.cons.injEq, true_and] at h
  have := intToString_injective (line_inj (isLine_intToString _).1 (isLine_intToString _).1 h).1
  omega

end Kinds

/-- Lists of values of which none begins with another are read back element by element. -/
theorem flatten_inj {vs ws : List Bytes} (hvs : ∀ v ∈ vs, ∀ w, IsReply w → ∀ x y, v ++ x = w ++ y → v = w)
    (hws : ∀ w ∈ ws, IsReply w) (hlen : vs.length = ws.length) {x y : Bytes}
    (h : vs.flatten ++ x = ws.flatten ++ y) : vs = ws := by
  induction vs generalizing ws with
  | nil => exact (List.length_eq_zero_iff.1 hlen.symm).symm
  | cons v vs ih =>
    cases ws with
    | nil => simp at hlen
    | cons w ws =>
      simp only [List.flatten_cons, List.append_assoc] at h
      obtain rfl := hvs v List.mem_cons_self w (hws w List.mem_cons_self) _ _ h
      rw [ih (fun v hv => hvs v (List.mem_cons_of_mem _ hv)) (fun w hw => hws w (List.mem_cons_of_mem _ hw))
        (by simpa using hlen) (List.append_cancel_left h)]

/-- No value begins with another one. -/
theorem IsReply.prefix_free {v : Bytes} (hv : IsReply v) :
    ∀ w, IsReply w → ∀ x y, v ++ x = w ++ y → v = w := by
  induction hv with
  | status hs =>
    intro w hw x y h
    cases hw with
    | status hs' =>
      simp only [Reply.simpleString, List.cons_append, List.append_assoc, List.cons.injEq, true_and] at h
      rw [(line_inj hs.1 hs'.1 h).1]
    | _ => exact absurd (congrArg List.head? h) (by simp)
  | error hs =>
    intro w hw x y h
    cases hw with
    | error hs' =>
      simp only [Reply.error, List.cons_append, List.append_assoc, List.cons.injEq, true_and] at h
      rw [(line_inj hs.1 hs'.1 h).1]
    | _ => exact absurd (congrArg List.head? h) (by simp)
  | integer n =>
    intro w hw x y h
    cases hw with
    | integer m => rw [(integer_append_inj h).1]
    | _ => exact absurd (congrArg List.head? h) (by simp)
  | bulk s =>
    intro w hw x y h
    cases hw with
    | bulk s' => rw [(bulk_append_inj h).1]
    | nullBulk => exact absurd h.symm nullBulk_ne_bulk
    | _ => exact absurd (congrArg List.head? h) (by simp)
  | nullBulk =>
    intro w hw x y h
    cases hw with
    | nullBulk => rfl
    | bulk s' => exact absurd h nullBulk_ne_bulk
    | _ => exact absurd (congrArg List.head? h) (by simp)
  | nullArray =>
    intro w hw x y h
    cases hw with
    | nullArray => rfl
    | array ws hws =>
      rw [nullArray_eq, List.append_assoc] at h
      have := (arrayHeader_append_inj h).1
      omega
    | _ => exact absurd (congrArg List.head? h) (by simp)
  | array vs hvs ih =>
    intro w hw x y h
    cases hw with
    | nullArray =>
      rw [nullArray_eq, List.append_assoc] at h
      have := (arrayHeader_append_inj h).1
      omega
    | array ws hws =>
      rw [List.append_assoc, List.append_assoc] at h
      obtain ⟨hn, hrest⟩ := arrayHeader_append_inj h
      have hlen : vs.length = ws.length := by exact_mod_cast hn
      rw [flatten_inj ih hws hlen hrest]
    | _ => exact absurd (congrArg List.head? h) (by simp)

theorem IsReply.ne_nil {v : Bytes} (h : IsReply v) : v ≠ [] := by
  cases h <;> exact List.cons_ne_nil _ _

/-- What follows the header of a well-formed array. -/
theorem IsReply.elements {vs : List Bytes} {n : ℕ} (hvs : ∀ v ∈ vs, IsReply v)
    (h : IsReply (Reply.arrayHeader n ++ vs.flatten)) (hle : vs.length ≤ n) : vs.length = n := by
  generalize hb : Reply.arrayHeader n ++ vs.flatten = b at h
  cases h with
  | array ws hws =>
    obtain ⟨hn, hrest⟩ := arrayHeader_append_inj hb
    have hlen : n = ws.length := by exact_mod_cast hn
    have htake : ∀ w ∈ ws.take vs.length, IsReply w := fun w hw => hws w (List.mem_of_mem_take hw)
    have hsplit : vs.flatten ++ [] = (ws.take vs.length).flatten ++ (ws.drop vs.length).flatten := by
      rw [← List.flatten_append, List.take_append_drop, List.append_nil, hrest]
    have heq := flatten_inj (fun v hv => (hvs v hv).prefix_free) htake (by simp; omega) hsplit
    rw [← heq] at hsplit
    -- Nothing is left for the elements that are missing, and no value is empty.
    have hnil : (ws.drop vs.length).flatten = [] := (List.append_cancel_left hsplit).symm
    by_contra hne
    have hlt : vs.length < ws.length := by omega
    have hmem : ws[vs.length] ∈ ws.drop vs.length := List.mem_drop_iff_getElem.2 ⟨0, by simpa using hlt, rfl⟩
    exact (hws _ (List.mem_of_mem_drop hmem)).ne_nil (List.flatten_eq_nil_iff.1 hnil _ hmem)
  | nullArray =>
    rw [nullArray_eq, ← List.append_nil (Reply.arrayHeader (-1))] at hb
    have := (arrayHeader_append_inj hb).1
    omega
  | _ => exact absurd (congrArg List.head? (congrArg (· ++ []) hb)) (by simp)

end BlazeKV
