import BlazeKV.Proofs.Replies
import BlazeKV.Spec.ReplyReader
import Mathlib.Data.List.TakeWhile

/-! `ReplyReader` against `ReplyBuilder`: what is shown of a reply, in whatever pieces it comes. A
zero byte is the sign for the end of the input and is never shown. -/

namespace BlazeKV

/-- What `ReplyBuilder` is asked to write. -/
inductive RespValue where
  | status (s : Bytes)
  | error (s : Bytes)
  | integer (n : ℤ)
  | bulk (s : Bytes)
  | nullBulk
  | nullArray
  | array (vs : List RespValue)

namespace RespValue

/-- An array has what its elements have. -/
@[elab_as_elim, induction_eliminator]
theorem induct {P : RespValue → Prop} (status : ∀ s, P (.status s)) (error : ∀ s, P (.error s))
    (integer : ∀ n, P (.integer n)) (bulk : ∀ s, P (.bulk s)) (nullBulk : P .nullBulk)
    (nullArray : P .nullArray)
    (array : ∀ vs, (∀ v ∈ vs, P v) → P (.array vs)) (v : RespValue) : P v :=
  @RespValue.rec P (fun vs => ∀ v ∈ vs, P v) status error integer bulk nullBulk nullArray array
    (fun _ h => absurd h List.not_mem_nil) (fun _ _ hv hvs w hw =>
    (List.mem_cons.1 hw).elim (· ▸ hv) (hvs w)) v

mutual

/-- The bytes of a reply. -/
def encode : RespValue → Bytes
  | .status s => Reply.simpleString s
  | .error s => Reply.error s
  | .integer n => Reply.integer n
  | .bulk s => Reply.bulk s
  | .nullBulk => Reply.nullBulk
  | .nullArray => Reply.nullArray
  | .array vs => Reply.arrayHeader vs.length ++ encodeAll vs

def encodeAll : List RespValue → Bytes
  | [] => []
  | v :: vs => encode v ++ encodeAll vs

end

mutual

/-- A reply as the console shows it: bulk strings in quotes, arrays in brackets. -/
def render : RespValue → Bytes
  | .status s => s
  | .error s => ascii "(error) " ++ s
  | .integer n => intToString n
  | .bulk s => [34] ++ s ++ [34]
  | .nullBulk => ascii "(nil)"
  | .nullArray => ascii "(nil)"
  | .array vs => ascii "[" ++ (ascii ", ").intercalate (renderAll vs) ++ ascii "]"

def renderAll : List RespValue → List Bytes
  | [] => []
  | v :: vs => render v :: renderAll vs

end

mutual

/-- Status and error lines without CR and LF. -/
def Lines : RespValue → Prop
  | .status s => IsLine s
  | .error s => IsLine s
  | .array vs => LinesAll vs
  | _ => True

def LinesAll : List RespValue → Prop
  | [] => True
  | v :: vs => Lines v ∧ LinesAll vs

end

mutual

/-- No zero byte in a line or a bulk string. -/
def ZeroFree : RespValue → Prop
  | .status s => 0 ∉ s
  | .error s => 0 ∉ s
  | .bulk s => 0 ∉ s
  | .array vs => ZeroFreeAll vs
  | _ => True

def ZeroFreeAll : List RespValue → Prop
  | [] => True
  | v :: vs => ZeroFree v ∧ ZeroFreeAll vs

end

theorem linesAll_iff {vs : List RespValue} : LinesAll vs ↔ ∀ v ∈ vs, v.Lines := by
  induction vs with
  | nil => simp [LinesAll]
  | cons v vs ih => simp [LinesAll, ih]

theorem zeroFreeAll_iff {vs : List RespValue} : ZeroFreeAll vs ↔ ∀ v ∈ vs, v.ZeroFree := by
  induction vs with
  | nil => simp [ZeroFreeAll]
  | cons v vs ih => simp [ZeroFreeAll, ih]

theorem renderAll_eq (vs : List RespValue) : renderAll vs = vs.map render := by
  induction vs with
  | nil => rfl
  | cons v vs ih => rw [renderAll, ih, List.map_cons]

theorem zero_mem_intercalate {sep : Bytes} (hsep : 0 ∉ sep) (xs : List Bytes) :
    0 ∈ sep.intercalate xs ↔ ∃ x ∈ xs, 0 ∈ x := by
  induction xs with
  | nil => simp
  | cons x xs ih =>
    cases xs with
    | nil => simp
    | cons y xs => simp [List.intercalate_cons_cons, hsep, ih]

/-- A reply shows a zero byte if it has one. -/
theorem zero_mem_render (v : RespValue) : 0 ∈ v.render ↔ ¬v.ZeroFree := by
  induction v with
  | status s => simp [render, ZeroFree]
  | error s => simp [render, ZeroFree, show (0 : UInt8) ∉ ascii "(error) " by decide]
  | integer n => simpa [render, ZeroFree] using not_mem_intToString (by decide) (by decide) n
  | bulk s => simp [render, ZeroFree]
  | nullBulk => simp [render, ZeroFree, show (0 : UInt8) ∉ ascii "(nil)" by decide]
  | nullArray => simp [render, ZeroFree, show (0 : UInt8) ∉ ascii "(nil)" by decide]
  | array vs ih =>
    rw [render, ZeroFree, zeroFreeAll_iff, renderAll_eq]
    simp only [List.mem_append, zero_mem_intercalate (show (0 : UInt8) ∉ ascii ", " by decide),
      List.mem_map]
    have hopen : (0 : UInt8) ∉ ascii "[" ∧ (0 : UInt8) ∉ ascii "]" := by decide
    constructor
    · rintro ((h | ⟨_, ⟨v, hv, rfl⟩, h⟩) | h)
      · exact absurd h hopen.1
      · exact fun hall => (ih v hv).1 h (hall v hv)
      · exact absurd h hopen.2
    · intro h
      push Not at h
      obtain ⟨v, hv, hz⟩ := h
      exact .inl (.inr ⟨_, ⟨v, hv, rfl⟩, (ih v hv).2 hz⟩)

end RespValue

namespace ReplyReader

/-! Whatever comes, the calls end, and nothing that they show has a zero byte. -/

/-- The outcome of a call that reads on from `r`. -/
def Ends (x : Option (Bytes × ReplyReader)) (r : ReplyReader) : Prop :=
  ∃ out r', x = some (out, r') ∧ r'.unread.length ≤ r.unread.length ∧ 0 ∉ out

section Ends

variable {r : ReplyReader} {out : Bytes}

theorem getc_le (r : ReplyReader) :
    r.getc.2.unread.length + (if r.getc.1 = 0 then 0 else 1) ≤ r.unread.length := by
  unfold getc
  split_ifs with hpos h h
  · rcases hp : r.pieces with _ | ⟨_ | ⟨c, piece⟩, pieces⟩ <;> simp_all [unread]
  · rcases hp : r.pieces with _ | ⟨_ | ⟨c, piece⟩, pieces⟩ <;> simp_all [unread]
  · simp only [unread, List.length_append, List.length_drop]
    omega
  · simp only [unread, List.length_append, List.length_drop]
    omega

theorem readLineLoop_ends {fuel : ℕ} (hfuel : r.unread.length < fuel) (hout : 0 ∉ out) :
    Ends (readLineLoop fuel out r) r := by
  induction fuel generalizing r out with
  | zero => omega
  | succ fuel ih =>
    have hle := getc_le r
    unfold readLineLoop
    dsimp only
    split_ifs with h0 h13
    · exact ⟨out, _, rfl, by omega, hout⟩
    · have hle' := getc_le r.getc.2
      exact ⟨out, _, rfl, by omega, hout⟩
    · rw [if_neg h0] at hle
      have hnext : Ends (readLineLoop fuel (out ++ [r.getc.1]) r.getc.2) r.getc.2 :=
        ih (by omega) (by simp [hout, Ne.symm h0])
      obtain ⟨out', r', hrun, hlen, hzero⟩ := hnext
      exact ⟨out', r', hrun, by omega, hzero⟩

theorem readLine_ends (r : ReplyReader) : Ends r.readLine r :=
  readLineLoop_ends (Nat.lt_succ_self _) List.not_mem_nil

theorem readN_ends (n : ℕ) (hout : 0 ∉ out) : Ends (some (readN n out r)) r := by
  induction n generalizing r out with
  | zero => exact ⟨out, r, rfl, le_rfl, hout⟩
  | succ n ih =>
    have hle := getc_le r
    unfold readN
    dsimp only
    split_ifs with h0
    · exact ⟨out, _, rfl, by omega, hout⟩
    · have hnext : Ends (some (readN n (out ++ [r.getc.1]) r.getc.2)) r.getc.2 :=
        ih (by simp [hout, Ne.symm h0])
      obtain ⟨out', r', hrun, hlen, hzero⟩ := hnext
      exact ⟨out', r', hrun, by omega, hzero⟩

theorem readElements_ends {read : ReplyReader → Option (Bytes × ReplyReader)} {n : ℕ}
    (hread : ∀ r, r.unread.length ≤ n → Ends (read r) r) (rounds i : ℕ) (hr : r.unread.length ≤ n)
    (hout : 0 ∉ out) :
    Ends (readElements read rounds i out r) r := by
  induction rounds generalizing i r out with
  | zero => exact ⟨out, r, rfl, le_rfl, hout⟩
  | succ rounds ih =>
    obtain ⟨s, r', hrun, hlen, hzero⟩ := hread r hr
    have hcomma : (0 : UInt8) ∉ ascii ", " := by decide
    have hnext : 0 ∉ (if i ≠ 0 then out ++ ascii ", " else out) ++ s := by
      split_ifs <;> simp [hout, hzero, hcomma]
    obtain ⟨out', r'', hrest, hlen', hzero'⟩ := ih (i + 1) (hlen.trans hr) hnext
    refine ⟨out', r'', ?_, hlen'.trans hlen, hzero'⟩
    rw [readElements, hrun]
    exact hrest

theorem Ends.mono {x : Option (Bytes × ReplyReader)} {r' : ReplyReader} (h : Ends x r')
    (hle : r'.unread.length ≤ r.unread.length) :
    Ends x r := by
  obtain ⟨out, r'', rfl, hlen, hzero⟩ := h
  exact ⟨_, _, rfl, hlen.trans hle, hzero⟩

theorem readReplyAux_ends (fuel : ℕ) (hfuel : r.unread.length < fuel) :
    Ends (readReplyAux fuel r) r := by
  induction fuel generalizing r with
  | zero => omega
  | succ fuel ih =>
    have hle := getc_le r
    obtain ⟨line, r₁, hrun, hlen, hzero⟩ := readLine_ends r.getc.2
    unfold readReplyAux
    suffices hrest : Ends _ r.getc.2 from hrest.mono (by omega)
    simp only [hrun, Option.bind_eq_bind, Option.bind_some, Option.pure_def]
    split_ifs with h1 h2 h3 h4 hneg h5 hneg
    · exact ⟨_, _, rfl, hlen, hzero⟩
    · exact ⟨_, _, rfl, hlen, by simp [hzero, show (0 : UInt8) ∉ ascii "(error) " by decide]⟩
    · exact ⟨_, _, rfl, hlen, hzero⟩
    · exact ⟨_, _, rfl, hlen, by decide⟩
    · obtain ⟨s, r₂, hs, hlen₂, hzero₂⟩ := readN_ends (r := r₁) (atoll line).toNat
        (List.not_mem_nil (a := 0))
      obtain ⟨_, r₃, hrest, hlen₃, -⟩ := readLine_ends r₂
      rw [Option.some.inj hs, hrest]
      exact ⟨_, _, rfl, hlen₃.trans (hlen₂.trans hlen), by simp [hzero₂]⟩
    · exact ⟨_, _, rfl, hlen, by decide⟩
    · rw [h5, if_neg (by decide)] at hle
      have hends : ∀ r', r'.unread.length ≤ r₁.unread.length → Ends (readReplyAux fuel r') r' :=
        fun r' hr => ih (by omega)
      have hopen : (0 : UInt8) ∉ ascii "[" := by decide
      obtain ⟨out, r₂, hall, hlen₂, hzero₂⟩ := readElements_ends hends (atoll line).toNat 0 le_rfl hopen
      rw [hall]
      exact ⟨_, _, rfl, hlen₂.trans hlen, by simp [hzero₂, show (0 : UInt8) ∉ ascii "]" by decide]⟩
    · exact ⟨_, _, rfl, le_rfl, by decide⟩

end Ends

/-! Texts without a zero byte are read to their end. -/

/-- The reader stands before `u`, and no read fails. -/
structure Before (r : ReplyReader) (u : Bytes) : Prop where
  unread : r.unread = u
  pieces : ∀ piece ∈ r.pieces, piece ≠ []

section Reads

variable {r : ReplyReader} {u out : Bytes}

theorem Before.getc {c : UInt8} (h : Before r (c :: u)) : ∃ r', r.getc = (c, r') ∧ Before r' u := by
  obtain ⟨hu, hp⟩ := h
  unfold ReplyReader.getc
  by_cases hpos : r.pos ≥ r.buf.length
  · rw [if_pos hpos]
    rw [ReplyReader.unread, List.drop_eq_nil_of_le hpos, List.nil_append] at hu
    rcases hpieces : r.pieces with _ | ⟨_ | ⟨d, piece⟩, pieces⟩
    · rw [hpieces] at hu
      cases hu
    · exact absurd rfl (hp [] (hpieces ▸ List.mem_cons_self))
    · rw [hpieces, List.flatten_cons, List.cons_append, List.cons.injEq] at hu
      obtain ⟨rfl, rfl⟩ := hu
      exact ⟨_, rfl, by simp [ReplyReader.unread], fun q hq => hp q (hpieces ▸ List.mem_cons_of_mem _ hq)⟩
  · rw [if_neg hpos]
    have hlt : r.pos < r.buf.length := by omega
    rw [ReplyReader.unread, List.drop_eq_getElem_cons hlt, List.cons_append, List.cons.injEq] at hu
    obtain ⟨rfl, rfl⟩ := hu
    exact ⟨{ r with pos := r.pos + 1 }, by simp [List.getD, hlt], rfl, hp⟩

theorem Before.readLineLoop (out : Bytes) {line : Bytes} (h0 : 0 ∉ line) (h13 : 13 ∉ line)
    (h : Before r (line ++ (crlf ++ u)))
    (fuel : ℕ) (hfuel : line.length < fuel) :
    ∃ r', readLineLoop fuel out r = some (out ++ line, r') ∧ Before r' u := by
  induction line generalizing r out fuel with
  | nil =>
    obtain ⟨fuel, rfl⟩ := Nat.exists_eq_succ_of_ne_zero (by omega : fuel ≠ 0)
    obtain ⟨r₁, hcr, h₁⟩ := h.getc
    obtain ⟨r₂, hlf, h₂⟩ := h₁.getc
    refine ⟨r₂, ?_, h₂⟩
    simp [ReplyReader.readLineLoop, hcr, hlf]
  | cons c line ih =>
    obtain ⟨fuel, rfl⟩ := Nat.exists_eq_succ_of_ne_zero (by omega : fuel ≠ 0)
    simp only [List.mem_cons, not_or] at h0 h13
    obtain ⟨r₁, hc, h₁⟩ := h.getc
    obtain ⟨r₂, hrest, h₂⟩ := ih (out ++ [c]) h0.2 h13.2 h₁ fuel (by simpa using hfuel)
    refine ⟨r₂, ?_, h₂⟩
    simp only [ReplyReader.readLineLoop, hc]
    rw [if_neg (Ne.symm h0.1), if_neg (Ne.symm h13.1), hrest, List.append_assoc]
    rfl

theorem Before.readLine {line : Bytes} (h0 : 0 ∉ line) (h13 : 13 ∉ line)
    (h : Before r (line ++ (crlf ++ u))) :
    ∃ r', r.readLine = some (line, r') ∧ Before r' u :=
  h.readLineLoop [] h0 h13 _ (by
    rw [h.unread, List.length_append]
    omega)

theorem Before.readN (out : Bytes) {s : Bytes} (h0 : 0 ∉ s) (h : Before r (s ++ u)) :
    ∃ r', readN s.length out r = (out ++ s, r') ∧ Before r' u := by
  induction s generalizing r out with
  | nil => exact ⟨r, by simp [ReplyReader.readN], h⟩
  | cons c s ih =>
    simp only [List.mem_cons, not_or] at h0
    obtain ⟨r₁, hc, h₁⟩ := h.getc
    obtain ⟨r₂, hrest, h₂⟩ := ih (out ++ [c]) h0.2 h₁
    refine ⟨r₂, ?_, h₂⟩
    simp only [List.length_cons, ReplyReader.readN, hc]
    rw [if_neg (Ne.symm h0.1), hrest, List.append_assoc]
    rfl

end Reads

theorem atoll_intToString (n : ℤ) : atoll (intToString n) = n := by
  have hdec : ∀ k : ℕ, digitsValue ((decimal k).takeWhile isDigit) = k := by
    intro k
    rw [List.takeWhile_eq_self_iff.2 fun c hc => isDigit_of_mem_decimal hc, (decimal_spec k).2.2]
  unfold intToString
  split_ifs with hneg
  · have habs : (n.natAbs : ℤ) = -n := by omega
    simp [atoll, isSpace, hdec, habs]
  · obtain ⟨c, ds, hd⟩ := List.exists_cons_of_ne_nil (decimal_ne_nil n.natAbs)
    have habs : (n.natAbs : ℤ) = n := by omega
    have hc : isDigit c = true := isDigit_of_mem_decimal (hd ▸ List.mem_cons_self)
    have hspace : isSpace c = false := by
      simp only [isDigit, decide_eq_true_eq] at hc
      simp only [isSpace, decide_eq_false_iff_not]
      omega
    have hsign : c ≠ 45 ∧ c ≠ 43 := ⟨ne_of_isDigit hc (by decide), ne_of_isDigit hc (by decide)⟩
    have hv := hdec n.natAbs
    rw [hd] at hv ⊢
    simp [atoll, hspace, hsign, hv, habs]

theorem intercalate_cons (sep x : Bytes) (xs : List Bytes) :
    sep.intercalate (x :: xs) = x ++ xs.flatMap fun y => sep ++ y := by
  induction xs generalizing x with
  | nil => simp
  | cons y xs ih =>
    rw [List.intercalate_cons_cons, ih, List.flatMap_cons, List.append_assoc, List.append_assoc]

section Values

open RespValue (encodeAll renderAll)

variable {r : ReplyReader} {u out : Bytes}

/-- Elements that are read each by itself are read in a row. -/
theorem Before.readElements (read : ReplyReader → Option (Bytes × ReplyReader)) (out : Bytes)
    (vs : List RespValue)
    (hread : ∀ v ∈ vs, ∀ r u, Before r (v.encode ++ u) →
      ∃ r', read r = some (v.render, r') ∧ Before r' u)
    (h : Before r (encodeAll vs ++ u)) (i : ℕ) : ∃ r', readElements read vs.length i out r = some
      (out ++ (if i = 0 then (ascii ", ").intercalate (renderAll vs)
        else (renderAll vs).flatMap fun y => ascii ", " ++ y), r') ∧
      Before r' u := by
  induction vs generalizing r i out with
  | nil => exact ⟨r, by simp [ReplyReader.readElements, renderAll], h⟩
  | cons v vs ih =>
    rw [encodeAll, List.append_assoc] at h
    obtain ⟨r₁, hv, h₁⟩ := hread v List.mem_cons_self r _ h
    obtain ⟨r₂, hvs, h₂⟩ := ih ((if i ≠ 0 then out ++ ascii ", " else out) ++ v.render)
      (fun w hw => hread w (List.mem_cons_of_mem v hw)) h₁ (i + 1)
    refine ⟨r₂, ?_, h₂⟩
    rw [List.length_cons, ReplyReader.readElements, hv]
    refine hvs.trans (congrArg (fun x => some (x, r₂)) ?_)
    rw [if_neg (Nat.succ_ne_zero i), renderAll]
    by_cases hi : i = 0
    · rw [if_neg (not_not.2 hi), if_pos hi, intercalate_cons, List.append_assoc]
    · rw [if_pos hi, if_neg hi, List.flatMap_cons, List.append_assoc, List.append_assoc,
        List.append_assoc]

theorem encode_length_pos (v : RespValue) : 0 < v.encode.length := by
  cases v <;> exact Nat.zero_lt_succ _

theorem encode_length_le {v : RespValue} {vs : List RespValue} (hv : v ∈ vs) :
    v.encode.length ≤ (encodeAll vs).length := by
  induction vs with
  | nil => cases hv
  | cons w vs ih =>
    rw [encodeAll, List.length_append]
    rcases List.mem_cons.1 hv with rfl | hv
    · exact Nat.le_add_right _ _
    · exact (ih hv).trans (Nat.le_add_left _ _)

/-- The type of a reply and its line. -/
theorem Before.head {c : UInt8} {line : Bytes} (h0 : 0 ∉ line) (h13 : 13 ∉ line)
    (h : Before r (c :: (line ++ (crlf ++ u)))) :
    ∃ r₁ r₂, r.getc = (c, r₁) ∧ r₁.readLine = some (line, r₂) ∧ Before r₂ u := by
  obtain ⟨r₁, hc, h₁⟩ := h.getc
  obtain ⟨r₂, hline, h₂⟩ := h₁.readLine h0 h13
  exact ⟨r₁, r₂, hc, hline, h₂⟩

theorem intToString_line (n : ℤ) : 0 ∉ intToString n ∧ 13 ∉ intToString n :=
  ⟨not_mem_intToString (by decide) (by decide) n, (isLine_intToString n).1⟩

theorem decimal_line (n : ℕ) : 0 ∉ decimal n ∧ 13 ∉ decimal n :=
  intToString_natCast n ▸ intToString_line n

theorem atoll_decimal (n : ℕ) : atoll (decimal n) = n := by
  rw [← intToString_natCast, atoll_intToString]

/-- A reply without a zero byte is read and shown, in as many calls as it has bytes. -/
theorem Before.readReplyAux (v : RespValue) (hline : v.Lines) (hzero : v.ZeroFree) (fuel : ℕ)
    (hfuel : v.encode.length ≤ fuel + 1) (h : Before r (v.encode ++ u)) :
    ∃ r', readReplyAux (fuel + 1) r = some (v.render, r') ∧ Before r' u := by
  induction v generalizing r u fuel with
  | status s =>
    simp only [RespValue.encode, Reply.simpleString, List.cons_append, List.append_assoc] at h
    obtain ⟨r₁, r₂, hc, hs, h₂⟩ := h.head hzero hline.1
    exact ⟨r₂, by simp [ReplyReader.readReplyAux, hc, hs, RespValue.render], h₂⟩
  | error s =>
    simp only [RespValue.encode, Reply.error, List.cons_append, List.append_assoc] at h
    obtain ⟨r₁, r₂, hc, hs, h₂⟩ := h.head hzero hline.1
    exact ⟨r₂, by simp [ReplyReader.readReplyAux, hc, hs, RespValue.render], h₂⟩
  | integer n =>
    simp only [RespValue.encode, Reply.integer, List.cons_append, List.append_assoc] at h
    obtain ⟨r₁, r₂, hc, hs, h₂⟩ := h.head (intToString_line n).1 (intToString_line n).2
    exact ⟨r₂, by simp [ReplyReader.readReplyAux, hc, hs, RespValue.render], h₂⟩
  | bulk s =>
    simp only [RespValue.encode, Reply.bulk, List.cons_append, List.append_assoc,
      intToString_natCast] at h
    obtain ⟨r₁, r₂, hc, hlen, h₂⟩ := h.head (decimal_line s.length).1 (decimal_line s.length).2
    obtain ⟨r₃, hs, h₃⟩ := h₂.readN [] hzero
    have hnone : Before r₃ ([] ++ (crlf ++ u)) := h₃
    obtain ⟨r₄, hend, h₄⟩ := hnone.readLine List.not_mem_nil List.not_mem_nil
    exact ⟨r₄, by simp [ReplyReader.readReplyAux, hc, hlen, atoll_decimal, hs, hend, RespValue.render], h₄⟩
  | nullBulk =>
    rw [RespValue.encode, nullBulk_eq, List.cons_append, List.cons_append, List.append_assoc] at h
    obtain ⟨r₁, r₂, hc, hlen, h₂⟩ := h.head (intToString_line (-1)).1 (intToString_line (-1)).2
    exact ⟨r₂, by simp [ReplyReader.readReplyAux, hc, hlen, atoll_intToString, RespValue.render], h₂⟩
  | nullArray =>
    rw [RespValue.encode, nullArray_eq, Reply.arrayHeader, List.cons_append, List.cons_append,
      List.append_assoc] at h
    obtain ⟨r₁, r₂, hc, hlen, h₂⟩ := h.head (intToString_line (-1)).1 (intToString_line (-1)).2
    exact ⟨r₂, by simp [ReplyReader.readReplyAux, hc, hlen, atoll_intToString, RespValue.render], h₂⟩
  | array vs ih =>
    simp only [RespValue.encode, Reply.arrayHeader, List.cons_append, List.append_assoc,
      intToString_natCast, List.length_cons, List.length_append] at h hfuel
    obtain ⟨r₁, r₂, hc, hlen, h₂⟩ := h.head (decimal_line vs.length).1 (decimal_line vs.length).2
    have hread : ∀ v ∈ vs, ∀ r u, Before r (v.encode ++ u) →
        ∃ r', ReplyReader.readReplyAux fuel r = some (v.render, r') ∧ Before r' u := by
      intro v hv r u hr
      have hpos := encode_length_pos v
      have hle := encode_length_le hv
      obtain ⟨fuel, rfl⟩ := Nat.exists_eq_succ_of_ne_zero (by omega : fuel ≠ 0)
      exact ih v hv (RespValue.linesAll_iff.1 hline v hv)
        (RespValue.zeroFreeAll_iff.1 hzero v hv) fuel (by omega) hr
    obtain ⟨r₃, hall, h₃⟩ := h₂.readElements (ReplyReader.readReplyAux fuel) (ascii "[") vs hread 0
    exact ⟨r₃, by simp [ReplyReader.readReplyAux, hc, hlen, atoll_decimal, hall, RespValue.render], h₃⟩

end Values

/-- For every reply whose lines are lines, wherever the reader stands before it and in whatever
pieces the rest comes in, `read_reply` ends; it takes exactly the reply and shows all of it if and
only if no text in the reply has a zero byte. -/
theorem reply_shown_iff (v : RespValue) (hline : v.Lines) (r : ReplyReader) (rest : Bytes)
    (h : Before r (v.encode ++ rest)) :
    ∃ out r', r.readReply = some (out, r') ∧ ((out = v.render ∧ r'.unread = rest) ↔ v.ZeroFree) := by
  obtain ⟨out, r', hrun, -, hnone⟩ := readReplyAux_ends (r := r) _ (Nat.lt_succ_self _)
  refine ⟨out, r', hrun, ⟨fun hshown => ?_, fun hzero => ?_⟩⟩
  · by_contra hno
    rw [hshown.1, RespValue.zero_mem_render] at hnone
    exact hnone hno
  · obtain ⟨r₁, hread, h₁⟩ := h.readReplyAux v hline hzero r.unread.length (by
      rw [h.unread, List.length_append]
      omega)
    obtain ⟨rfl, rfl⟩ := Prod.mk.inj (Option.some.inj (hrun.symm.trans hread))
    exact ⟨rfl, h₁.unread⟩

/-- A nested array in three pieces, cut inside a number and inside a bulk string. -/
theorem reply_shown_nested : ∃ out r,
    (connected [ascii "*2\r\n$", ascii "3\r\na\r", ascii "b\r\n*2\r\n:-5\r\n$-1\r\n+"]).readReply =
    some (out, r) ∧ out = ascii "[\"a\rb\", [-5, (nil)]]" ∧ r.unread = ascii "+" := by
  let v : RespValue := .array [.bulk [97, 13, 98], .array [.integer (-5), .nullBulk]]
  have hzero : v.ZeroFree := by
    simp [v, RespValue.ZeroFree, RespValue.ZeroFreeAll]
  obtain ⟨out, r, hrun, hiff⟩ := reply_shown_iff v (by simp [v, RespValue.Lines, RespValue.LinesAll])
    (connected [ascii "*2\r\n$", ascii "3\r\na\r", ascii "b\r\n*2\r\n:-5\r\n$-1\r\n+"]) (ascii "+")
    ⟨by decide +kernel, by decide⟩
  obtain ⟨hout, hrest⟩ := hiff.2 hzero
  exact ⟨out, r, hrun, hout.trans (by decide +kernel), hrest⟩

/-- A bulk string is cut at its zero byte. -/
theorem reply_cut : ∃ r, (connected [RespValue.encode (.bulk [97, 0, 98])]).readReply =
    some (ascii "\"a\"", r) ∧
    r.unread = [] ∧ RespValue.render (.bulk [97, 0, 98]) ≠ ascii "\"a\"" :=
  ⟨⟨[], ascii "$3\r\n" ++ [97, 0, 98, 13, 10], 9⟩, by decide +kernel, by decide, by decide⟩

end ReplyReader

end BlazeKV
