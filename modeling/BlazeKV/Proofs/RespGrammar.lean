import BlazeKV.Proofs.Reads
import BlazeKV.Proofs.Replies

/-! The grammar of a multibulk request beside what `parse_multibulk` accepts. A frame is spelled as the
parser steps over it: numbers as any text, and behind each argument any two bytes. -/

namespace BlazeKV

/-- An argument with the text of its length and the bytes behind it. -/
structure Item where
  size : Bytes
  payload : Bytes
  tail : Bytes

structure Frame where
  count : Bytes
  items : List Item

def Item.bytes (i : Item) : Bytes := 36 :: (i.size ++ (crlf ++ (i.payload ++ i.tail)))

def Frame.bytes (f : Frame) : Bytes := 42 :: (f.count ++ (crlf ++ f.items.flatMap Item.bytes))

def Frame.payloads (f : Frame) : List Bytes := f.items.map Item.payload

/-- A decimal number; it may start with zeros. -/
structure IsDecimal (ds : Bytes) (n : ℕ) : Prop where
  ne_nil : ds ≠ []
  digits : ds.all isDigit = true
  value : digitsValue ds = n

structure Item.WellFormed (i : Item) : Prop where
  size : IsDecimal i.size i.payload.length
  tail : i.tail = crlf

/-- An array of bulk strings. -/
structure Frame.WellFormed (f : Frame) : Prop where
  count : IsDecimal f.count f.items.length
  items : ∀ i ∈ f.items, i.WellFormed

/-- The length that is read is that of the payload, and two bytes follow it. -/
structure Item.Read (i : Item) : Prop where
  size : parseInt i.size = some (i.payload.length : ℤ)
  tail : i.tail.length = 2

structure Frame.Read (f : Frame) : Prop where
  count : parseInt f.count = some (f.items.length : ℤ)
  small : (f.items.length : ℤ) ≤ RequestParser.kMaxCount
  items : ∀ i ∈ f.items, i.Read

/-- No number has a sign, and the two bytes behind each argument are CRLF. -/
structure Frame.Plain (f : Frame) : Prop where
  count : f.count.head? ≠ some 45
  size : ∀ i ∈ f.items, i.size.head? ≠ some 45
  tail : ∀ i ∈ f.items, i.tail = crlf

theorem isDecimal_iff {s : Bytes} {n : ℕ} :
    parseInt s = some (n : ℤ) ∧ s.head? ≠ some 45 ↔ IsDecimal s n ∧ n < 2 ^ 63 := by
  cases s with
  | nil => exact ⟨fun h => absurd h.1 (by simp [parseInt]), fun h => absurd rfl h.1.ne_nil⟩
  | cons c s =>
    have hfits : fitsInt64 (digitsValue (c :: s) : ℤ) = true ↔ digitsValue (c :: s) < 2 ^ 63 := by
      simp only [fitsInt64, decide_eq_true_eq]
      omega
    constructor
    · rintro ⟨hp, hc⟩
      replace hc : c ≠ 45 := fun h => hc (by rw [h]; rfl)
      simp only [parseInt, if_neg hc] at hp
      split_ifs at hp with hv
      obtain rfl := Int.ofNat.inj (Option.some.inj hp)
      exact ⟨⟨hv.1, hv.2.1, rfl⟩, hfits.1 hv.2.2⟩
    · rintro ⟨⟨hne, hall, rfl⟩, hlt⟩
      have hc : c ≠ 45 := ne_of_isDigit (List.all_eq_true.1 hall c List.mem_cons_self) (by decide)
      refine ⟨?_, fun h => hc (Option.some.inj h)⟩
      simp only [parseInt, if_neg hc]
      rw [if_pos ⟨hne, hall, hfits.2 hlt⟩]

theorem not_mem_cr {s : Bytes} {z : ℤ} (h : parseInt s = some z) : (13 : UInt8) ∉ s := fun hm => by
  rw [parseInt_none hm (by decide) (by decide)] at h
  cases h

namespace RequestParser

section Agreeing

/-! A buffer that agrees with what is spelled as far as both go. -/

variable {data ext a s : Bytes}

/-- A line is found if the buffer holds it. -/
theorem findCrlf_text {text : Bytes} (h : data ++ ext = a ++ (text ++ (crlf ++ s))) (ha : a.length ≤ data.length)
    (htext : 13 ∉ text) : findCrlf data a.length =
      if a.length + text.length + 2 ≤ data.length then some (a.length + text.length) else none := by
  have hwhole : findCrlf (data ++ ext) a.length = some (a.length + text.length) := by
    rw [h]
    exact findCrlf_line a htext s
  split_ifs with hfit
  · rw [findCrlf, List.drop_append_of_le_length ha] at hwhole
    exact findCrlfAux_begin hwhole (by rw [List.length_drop]; omega)
  · cases hf : findCrlf data a.length with
    | none => rfl
    | some at' =>
      have hb := (findCrlf_bound hf).2
      have := Option.some.inj ((findCrlf_stable hf ext).symm.trans hwhole)
      omega

theorem view_text {text : Bytes} (h : data ++ ext = a ++ (text ++ s)) (hfit : a.length + text.length ≤ data.length) :
    view data a.length text.length = text := by
  rw [← view_stable hfit ext, h, view_append]

theorem parseBulks_item {i : Item} (hi : i.Read) (h : data ++ ext = a ++ (i.bytes ++ s)) (ha : a.length ≤ data.length)
    (hlen : data.length < 2 ^ 63 - 1) (count : ℕ) (argv : List Bytes) : parseBulks data (count + 1) a.length argv =
      if (a ++ i.bytes).length ≤ data.length then parseBulks data count (a ++ i.bytes).length (argv ++ [i.payload])
      else .needMore := by
  have hsplit : data ++ ext = (a ++ [36]) ++ (i.size ++ (crlf ++ (i.payload ++ (i.tail ++ s)))) := by
    rw [h]
    simp [Item.bytes]
  have hone : (a ++ [36]).length = a.length + 1 := List.length_append
  have hbytes : (a ++ i.bytes).length = a.length + 1 + i.size.length + 2 + i.payload.length + 2 := by
    simp only [Item.bytes, List.length_append, List.length_cons, hi.tail, crlf, List.length_nil]
    omega
  rw [parseBulks]
  by_cases hend : a.length ≥ data.length
  · rw [if_pos hend, if_neg (by omega)]
  have hget : data.getD a.length 0 = 36 := by
    have := congrArg (·[a.length]?) hsplit
    simp only [List.append_assoc] at this
    rw [List.getElem?_append_left (by omega), List.getElem?_append_right (le_refl _), Nat.sub_self] at this
    rw [List.getD_eq_getElem?_getD, this]
    rfl
  have hcr := findCrlf_text hsplit (by omega) (not_mem_cr hi.size)
  rw [hone] at hcr
  rw [if_neg hend, if_neg (by rw [hget]; decide), hcr]
  by_cases hline : a.length + 1 + i.size.length + 2 ≤ data.length
  · have hview := view_text hsplit (by omega)
    have hpay : data ++ ext = (a ++ [36] ++ i.size ++ crlf) ++ (i.payload ++ (i.tail ++ s)) := by
      rw [hsplit]
      simp
    have hnum : parseInt i.size = some (i.payload.length : ℤ) := hi.size
    have hsmall := parseInt_lt hnum
    rw [hone] at hview
    rw [if_pos hline]
    dsimp only
    rw [show a.length + 1 + i.size.length - a.length - 1 = i.size.length by omega, hview, hnum]
    dsimp only
    rw [if_neg (by omega), Int.toNat_natCast, u64_of_lt (n := a.length + 1 + i.size.length + 2) (by omega),
      u64_of_lt (n := a.length + 1 + i.size.length + 2 + i.payload.length) (by omega),
      u64_of_lt (n := a.length + 1 + i.size.length + 2 + i.payload.length + 2) (by omega), ← hbytes]
    by_cases hfit : (a ++ i.bytes).length ≤ data.length
    · have hstart : (a ++ [36] ++ i.size ++ crlf).length = a.length + 1 + i.size.length + 2 := by
        simp only [List.length_append, crlf, List.length_cons, List.length_nil]
      have hshown := view_text hpay (by omega)
      rw [hstart] at hshown
      rw [if_neg (by omega), if_pos hfit, hshown]
    · rw [if_pos (by omega), if_neg hfit]
  · rw [if_neg hline, if_neg (by omega)]

theorem parseBulks_items {items : List Item} (hread : ∀ i ∈ items, i.Read)
    (h : data ++ ext = a ++ (items.flatMap Item.bytes ++ s)) (ha : a.length ≤ data.length)
    (hlen : data.length < 2 ^ 63 - 1) (argv : List Bytes) : parseBulks data items.length a.length argv =
      if (a ++ items.flatMap Item.bytes).length ≤ data.length then
        .ok (argv ++ items.map Item.payload) (a ++ items.flatMap Item.bytes).length
      else .needMore := by
  induction items generalizing a argv with
  | nil =>
    rw [List.flatMap_nil, List.append_nil, if_pos ha, List.map_nil, List.append_nil]
    rfl
  | cons i items ih =>
    rw [List.flatMap_cons, List.append_assoc] at h
    have hnext : data ++ ext = (a ++ i.bytes) ++ (items.flatMap Item.bytes ++ s) := by
      rw [h, List.append_assoc]
    rw [List.length_cons, parseBulks_item (hread i List.mem_cons_self) h ha hlen, List.flatMap_cons, ← List.append_assoc]
    by_cases hfit : (a ++ i.bytes).length ≤ data.length
    · rw [if_pos hfit, ih (fun j hj => hread j (List.mem_cons_of_mem i hj)) hnext hfit, List.append_assoc argv]
      rfl
    · rw [if_neg hfit, if_neg (by rw [List.length_append]; omega)]

/-- The parse of a buffer that agrees with a frame. -/
theorem parse_frame {f : Frame} (hf : f.Read) (h : data ++ ext = f.bytes ++ s) (hlen : data.length < 2 ^ 63 - 1) :
    parse data = if f.bytes.length ≤ data.length then .ok f.payloads f.bytes.length else .needMore := by
  have hhead : f.bytes = 42 :: f.count ++ crlf ++ f.items.flatMap Item.bytes := by
    simp [Frame.bytes]
  have htext : 13 ∉ (42 :: f.count : Bytes) := by
    simpa using not_mem_cr hf.count
  by_cases hnil : data.length = 0
  · rw [parse, if_pos hnil, if_neg (by rw [hnil, hhead]; simp)]
  have hstar : data.getD 0 0 = 42 := by
    have := congrArg (·[0]?) h
    rw [List.getElem?_append_left (by omega)] at this
    rw [List.getD_eq_getElem?_getD, this]
    rfl
  have hline : data ++ ext = [] ++ (42 :: f.count ++ (crlf ++ (f.items.flatMap Item.bytes ++ s))) := by
    rw [h, hhead]
    simp
  have hcr := findCrlf_text hline (Nat.zero_le _) htext
  rw [List.length_nil, Nat.zero_add, List.length_cons] at hcr
  rw [parse, if_neg hnil, if_pos hstar, parseMultibulk, hcr]
  by_cases hfit : f.count.length + 1 + 2 ≤ data.length
  · have hcount : data ++ ext = [42] ++ (f.count ++ (crlf ++ (f.items.flatMap Item.bytes ++ s))) := hline
    have hview : view data 1 f.count.length = f.count := view_text hcount (by rw [List.length_singleton]; omega)
    have hitems : data ++ ext = (42 :: f.count ++ crlf) ++ (f.items.flatMap Item.bytes ++ s) := by
      rw [hline]
      simp
    have hstart : (42 :: f.count ++ crlf).length = f.count.length + 1 + 2 := by
      simp only [List.length_append, List.length_cons, crlf, List.length_nil]
    rw [if_pos hfit]
    dsimp only
    rw [Nat.add_sub_cancel, hview, hf.count]
    dsimp only
    rw [if_neg (by have := hf.small; omega), Int.toNat_natCast, ← hstart, parseBulks_items hf.items hitems (by omega) hlen, ← hhead]
    rfl
  · rw [if_neg hfit, if_neg (by rw [hhead]; simp only [List.length_append, List.length_cons, crlf]; omega)]

end Agreeing

section Accepted

variable {data : Bytes}

theorem take_view {pos n : ℕ} : data.take (pos + n) = data.take pos ++ view data pos n := List.take_add

theorem view_length {pos n : ℕ} (h : pos + n ≤ data.length) : (view data pos n).length = n := by
  rw [view, List.length_take, List.length_drop]
  omega

theorem view_crlf {pos at' : ℕ} (h : findCrlf data pos = some at') : view data at' 2 = crlf := by
  obtain ⟨hle, hin⟩ := findCrlf_bound h
  obtain ⟨-, h13, h10⟩ := findCrlfAux_bound h
  rw [List.getElem?_drop, Nat.add_sub_cancel' hle] at h13
  rw [List.getElem?_drop, ← Nat.add_assoc, Nat.add_sub_cancel' hle] at h10
  rw [view, List.drop_eq_getElem_cons (by omega), List.drop_eq_getElem_cons (by omega)]
  rw [List.getElem?_eq_getElem (by omega)] at h13 h10
  rw [Option.some.inj h13, Option.some.inj h10]
  rfl

theorem view_one {pos : ℕ} {c : UInt8} (hpos : pos < data.length) (h : data.getD pos 0 = c) : view data pos 1 = [c] := by
  rw [view, List.drop_eq_getElem_cons hpos]
  rw [List.getD_eq_getElem _ _ hpos] at h
  rw [h]
  rfl

/-- What the loop over the arguments has stepped over. -/
theorem parseBulks_sound (hlen : data.length < 2 ^ 63 - 1) {count pos : ℕ} {argv argv' : List Bytes} {n : ℕ}
    (hpos : pos ≤ data.length) (h : parseBulks data count pos argv = .ok argv' n) :
    ∃ items : List Item, items.length = count ∧ (∀ i ∈ items, i.Read) ∧ argv' = argv ++ items.map Item.payload ∧
      n ≤ data.length ∧ data.take n = data.take pos ++ items.flatMap Item.bytes := by
  induction count generalizing pos argv with
  | zero =>
    obtain ⟨rfl, rfl⟩ := Parse.ok.inj h
    exact ⟨[], rfl, fun i hi => absurd hi List.not_mem_nil, (List.append_nil _).symm, hpos, (List.append_nil _).symm⟩
  | succ count ih =>
    rw [parseBulks] at h
    split_ifs at h with hend hd
    split at h
    · cases h
    next at' hf =>
    obtain ⟨hle, hin⟩ := findCrlf_bound hf
    split at h
    · cases h
    next blen hb =>
    have hblen := parseInt_lt hb
    dsimp only at h
    split_ifs at h with hneg hpast
    rw [u64_of_lt (n := at' + 2) (by omega), u64_of_lt (n := at' + 2 + blen.toNat) (by omega),
      u64_of_lt (n := at' + 2 + blen.toNat + 2) (by omega)] at h hpast
    obtain ⟨items, hcount, hread, hargv, hn, htake⟩ := ih (by omega) h
    have hpay : (view data (at' + 2) blen.toNat).length = blen.toNat := view_length (by omega)
    refine ⟨⟨view data (pos + 1) (at' - pos - 1), view data (at' + 2) blen.toNat, view data (at' + 2 + blen.toNat) 2⟩ :: items,
      by rw [List.length_cons, hcount], ?_, ?_, hn, ?_⟩
    · intro i hi
      rcases List.mem_cons.1 hi with rfl | hi
      · refine ⟨?_, view_length (by omega)⟩
        rw [hpay, hb]
        exact congrArg some (by omega)
      · exact hread i hi
    · rw [hargv, List.append_assoc]
      rfl
    · have hat : at' = pos + 1 + (at' - pos - 1) := by omega
      rw [htake, take_view, take_view, take_view, view_crlf hf]
      conv_lhs => rw [hat, take_view, take_view, view_one (by omega) (not_not.1 hd)]
      simp [Item.bytes, ← hat]

/-- What is consumed is a frame, spelled as the parser reads it. -/
theorem frame_of_parse (hlen : data.length < 2 ^ 63 - 1) (hstar : data.head? = some 42) {argv : List Bytes} {n : ℕ}
    (h : parse data = .ok argv n) : ∃ f : Frame, f.Read ∧ f.payloads = argv ∧ n ≤ data.length ∧ f.bytes = data.take n := by
  obtain ⟨t, rfl⟩ := List.head?_eq_some_iff.1 hstar
  rw [parse, if_neg (by simp), if_pos (by simp), parseMultibulk] at h
  split at h
  · cases h
  next at' hf =>
  have hin := (findCrlf_bound hf).2
  have hat : 0 < at' := by
    have hcr := (findCrlfAux_bound hf).2.1
    refine Nat.pos_of_ne_zero fun h0 => ?_
    rw [h0] at hcr
    cases hcr
  split at h
  · cases h
  next count hc =>
  split_ifs at h with hsmall
  obtain ⟨items, hcount, hread, hargv, hn, htake⟩ := parseBulks_sound hlen hin h
  refine ⟨⟨view (42 :: t) 1 (at' - 1), items⟩, ⟨?_, ?_, hread⟩, hargv.symm, hn, ?_⟩
  · rw [hc, hcount]
    exact congrArg some (by omega)
  · rw [hcount]
    omega
  · have hone : at' = 1 + (at' - 1) := by omega
    rw [htake, take_view, view_crlf hf]
    conv_rhs => rw [hone, take_view]
    simp [Frame.bytes]

end Accepted

section Spelling

theorem items_inj {xs ys : List Item} (hx : ∀ i ∈ xs, 13 ∉ i.size ∧ i.tail.length = 2)
    (hy : ∀ i ∈ ys, 13 ∉ i.size ∧ i.tail.length = 2) (hpay : xs.map Item.payload = ys.map Item.payload) (h : xs.flatMap Item.bytes = ys.flatMap Item.bytes) : xs = ys := by
  induction xs generalizing ys with
  | nil =>
    cases ys with
    | nil => rfl
    | cons y ys => cases hpay
  | cons x xs ih =>
    cases ys with
    | nil => cases hpay
    | cons y ys =>
      obtain ⟨hp, hps⟩ := List.cons.inj hpay
      obtain ⟨hxs, hxt⟩ := hx x List.mem_cons_self
      obtain ⟨hys, hyt⟩ := hy y List.mem_cons_self
      obtain ⟨sx, px, tx⟩ := x
      obtain ⟨sy, py, ty⟩ := y
      obtain rfl : px = py := hp
      simp only [List.flatMap_cons, Item.bytes, List.cons_append, List.append_assoc, List.cons.injEq, true_and] at h
      obtain ⟨rfl, hbody⟩ := @line_inj sx sy _ _ hxs hys h
      obtain ⟨rfl, hrest⟩ := List.append_inj (List.append_cancel_left hbody) (hxt.trans hyt.symm)
      rw [ih (fun i hi => hx i (List.mem_cons_of_mem _ hi)) (fun i hi => hy i (List.mem_cons_of_mem _ hi)) hps hrest]

theorem IsDecimal.not_mem_cr {s : Bytes} {n : ℕ} (h : IsDecimal s n) : (13 : UInt8) ∉ s := fun hm => by
  have := List.all_eq_true.1 h.digits 13 hm
  cases this

/-- Only one frame is spelled in these bytes. -/
theorem frame_inj {f f' : Frame} (hf : f.Read) (hf' : f'.WellFormed) (hpay : f.payloads = f'.payloads)
    (h : f.bytes = f'.bytes) : f = f' := by
  obtain ⟨count, items⟩ := f
  obtain ⟨count', items'⟩ := f'
  obtain ⟨rfl, hitems⟩ := line_inj (not_mem_cr hf.count) (IsDecimal.not_mem_cr hf'.count) (List.cons.inj h).2
  have hx : ∀ i ∈ items, 13 ∉ i.size ∧ i.tail.length = 2 := fun i hi =>
    ⟨not_mem_cr (hf.items i hi).size, (hf.items i hi).tail⟩
  have hy : ∀ i ∈ items', 13 ∉ i.size ∧ i.tail.length = 2 := fun i hi =>
    ⟨IsDecimal.not_mem_cr (hf'.items i hi).size, by rw [(hf'.items i hi).tail]; rfl⟩
  rw [items_inj hx hy hpay hitems]

theorem wellFormed_of_plain {f : Frame} (hf : f.Read) (h : f.Plain) : f.WellFormed :=
  ⟨(isDecimal_iff.1 ⟨hf.count, h.count⟩).1, fun i hi =>
    ⟨(isDecimal_iff.1 ⟨(hf.items i hi).size, h.size i hi⟩).1, h.tail i hi⟩⟩

theorem head_of_isDecimal {s : Bytes} {n : ℕ} (h : IsDecimal s n) : s.head? ≠ some 45 := fun hs => by
  have := List.all_eq_true.1 h.digits 45 (List.mem_of_mem_head? hs)
  cases this

theorem plain_of_wellFormed {f : Frame} (h : f.WellFormed) : f.Plain :=
  ⟨head_of_isDecimal h.count, fun i hi => head_of_isDecimal (h.items i hi).size, fun i hi => (h.items i hi).tail⟩

theorem read_of_wellFormed {f : Frame} (h : f.WellFormed) (hcount : f.items.length ≤ 1048576)
    (hsize : ∀ i ∈ f.items, i.payload.length < 2 ^ 63) : f.Read := by
  have hk : kMaxCount = 1048576 := by decide
  refine ⟨(isDecimal_iff.2 ⟨h.count, by omega⟩).1, by omega, fun i hi => ⟨?_, by rw [(h.items i hi).tail]; rfl⟩⟩
  exact (isDecimal_iff.2 ⟨(h.items i hi).size, hsize i hi⟩).1

end Spelling

variable (data : Bytes)

/-- What is consumed is an array of the arguments. -/
def Framed : Prop := ∀ argv n, parse data = .ok argv n →
  ∃ f : Frame, f.WellFormed ∧ f.payloads = argv ∧ n ≤ data.length ∧ f.bytes = data.take n

/-- What may become an array is not refused. -/
def Tolerant : Prop := ∀ (f : Frame) (ext : Bytes), f.WellFormed → f.bytes = data ++ ext → f.items.length ≤ 1048576 →
  (∀ i ∈ f.items, i.payload.length < 2 ^ 63) → ∀ e, parse data ≠ .protocolError e

/-- Every frame in front is spelled without signs and with its line ends. -/
def Spelled : Prop := ∀ f : Frame, f.Read → f.bytes <+: data → f.Plain

end RequestParser

open RequestParser

/-- The parser takes an array for what it is, but for the bytes behind an argument and the sign of a
zero, and refuses nothing that may become one. Strings are shorter than `2 ^ 63 - 1` bytes. -/
theorem multibulk_framed_iff (data : Bytes) (hlen : data.length < 2 ^ 63 - 1) (hstar : data.head? = some 42) :
    (Framed data ↔ Spelled data) ∧ Tolerant data := by
  refine ⟨⟨fun h f hf hpre => ?_, fun h argv n hp => ?_⟩, fun f ext hwf hbytes hcount hsize e => ?_⟩
  · obtain ⟨s, rfl⟩ := hpre
    have hp := @parse_frame (f.bytes ++ s) [] s f hf (List.append_nil _) hlen
    rw [if_pos (by rw [List.length_append]; omega)] at hp
    obtain ⟨f', hwf, hpay, -, hbytes⟩ := h f.payloads f.bytes.length hp
    rw [List.take_left] at hbytes
    rw [frame_inj hf hwf hpay.symm hbytes.symm]
    exact plain_of_wellFormed hwf
  · obtain ⟨f, hf, hpay, hn, hbytes⟩ := frame_of_parse hlen hstar hp
    exact ⟨f, wellFormed_of_plain hf (h f hf (hbytes ▸ List.take_prefix _ _)), hpay, hn, hbytes⟩
  · have hp := @parse_frame data ext [] f (read_of_wellFormed hwf hcount hsize) (by rw [hbytes, List.append_nil]) hlen
    rw [hp]
    split_ifs <;> simp


/-- `PING`, with the start of another request behind it. -/
theorem multibulk_framed_ping : Framed (ascii "*1\r\n$4\r\nPING\r\n*1") := by
  have hwf : Frame.WellFormed ⟨ascii "1", [⟨ascii "4", ascii "PING", crlf⟩]⟩ := by
    refine ⟨⟨by decide, by decide, by decide⟩, fun i hi => ?_⟩
    rw [List.mem_singleton.1 hi]
    exact ⟨⟨by decide, by decide, by decide⟩, rfl⟩
  refine (multibulk_framed_iff _ (by decide +kernel) (by decide +kernel)).1.2 fun f hf hpre => ?_
  have hparse : parse (ascii "*1\r\n$4\r\nPING\r\n*1") = .ok [ascii "PING"] 14 := by decide +kernel
  have hp := @parse_frame (ascii "*1\r\n$4\r\nPING\r\n*1") [] _ f hf (by rw [List.append_nil]; exact hpre.choose_spec.symm)
    (by decide +kernel)
  rw [if_pos hpre.length_le, hparse] at hp
  obtain ⟨hpay, hlen⟩ := Parse.ok.inj hp
  have hbytes := List.prefix_iff_eq_take.1 hpre
  rw [← hlen] at hbytes
  rw [frame_inj hf hwf hpay.symm (hbytes.trans (by decide +kernel))]
  exact plain_of_wellFormed hwf

/-- The two bytes behind an argument may be any. -/
theorem multibulk_misframed : ¬ ∀ data : Bytes, data.length < 2 ^ 63 - 1 → data.head? = some 42 →
    Framed data ∧ Tolerant data := by
  intro h
  have hframed := (h (ascii "*1\r\n$1\r\naXY") (by decide +kernel) (by decide +kernel)).1
  obtain ⟨f, hwf, hpay, -, hbytes⟩ := hframed [[97]] 11 (by decide +kernel)
  obtain ⟨count, items⟩ := f
  obtain ⟨i, rfl, hi⟩ := List.map_eq_singleton_iff.1 hpay
  have htail := (hwf.items i List.mem_cons_self).tail
  have hend : Frame.bytes ⟨count, [i]⟩ = 42 :: (count ++ (crlf ++ (36 :: (i.size ++ (crlf ++ i.payload))))) ++ crlf := by
    simp [Frame.bytes, Item.bytes, htail]
  have hlast := congrArg List.getLast? (hend.symm.trans hbytes)
  rw [List.getLast?_append, show crlf.getLast? = some 10 from rfl, Option.some_or] at hlast
  exact absurd hlast (by decide +kernel)

end BlazeKV
