import BlazeKV.Proofs.Reads
import BlazeKV.Spec.Checked.Parser

/-! The request parser stays inside its buffer, whatever the numbers in it say, and so do the loops
over it. They end, because every request takes something. -/

namespace BlazeKV.Positions

open Lib
open RequestParser (view isBlank kMaxCount findCrlf_bound parseInt_lt)

theorem plus_runs {a b : ℕ} (h : a + b < 2 ^ 64) : plus a b = .ok (a + b) := by
  rw [plus, require_of h]
  rfl

theorem minus_runs {a b : ℕ} (h : b ≤ a) : minus a b = .ok (a - b) := by
  rw [minus, require_of h]
  rfl

variable {data : Bytes}

theorem byteAt_runs {i : ℕ} (h : i < data.length) : byteAt data i = .ok (data.getD i 0) := readAt_getD h 0

theorem findCrlf_none {pos : ℕ} (h : data.length ≤ pos + 1) : RequestParser.findCrlf data pos = none := by
  have hlen : (data.drop pos).length ≤ 1 := by
    rw [List.length_drop]
    omega
  rw [RequestParser.findCrlf]
  cases hd : data.drop pos with
  | nil => rfl
  | cons a s =>
    rw [hd, List.length_cons] at hlen
    obtain rfl := List.length_eq_zero_iff.1 (by omega : s.length = 0)
    rfl

theorem findCrlf_step {pos : ℕ} (h : pos + 1 < data.length) : RequestParser.findCrlf data pos =
    if data.getD pos 0 = 13 ∧ data.getD (pos + 1) 0 = 10 then some pos else RequestParser.findCrlf data (pos + 1) := by
  rw [RequestParser.findCrlf, RequestParser.findCrlf, List.drop_eq_getElem_cons (by omega), List.drop_eq_getElem_cons h,
    RequestParser.findCrlfAux]
  simp [List.getD, h, show pos < data.length by omega]

theorem findCrlf_runs (hlen : data.length < 2 ^ 62) (fuel : ℕ) {pos : ℕ} (hpos : pos ≤ data.length)
    (hfuel : data.length < pos + fuel) : findCrlf data fuel pos = .ok (RequestParser.findCrlf data pos) := by
  induction fuel generalizing pos with
  | zero => omega
  | succ fuel ih =>
    rw [findCrlf, plus_runs (by omega), ok_bind]
    by_cases hnext : pos + 1 < data.length
    · rw [if_pos hnext, byteAt_runs (by omega), ok_bind, byteAt_runs hnext, findCrlf_step hnext, ih (by omega) (by omega)]
      by_cases hcr : data.getD pos 0 = 13
      · by_cases hlf : data.getD (pos + 1) 0 = 10
        · rw [if_pos hcr, if_pos ⟨hcr, hlf⟩, ok_bind, if_pos hlf]
          rfl
        · rw [if_pos hcr, if_neg fun h => hlf h.2, ok_bind, if_neg hlf]
      · rw [if_neg hcr, if_neg fun h => hcr h.1]
    · rw [if_neg hnext, findCrlf_none (by omega)]
      rfl

theorem toLl_runs {p n : ℕ} (h : p + n ≤ data.length) : toLl data p n = .ok (parseInt (view data p n)) := by
  rw [toLl]
  split_ifs with hn
  · rw [hn]
    rfl
  · rw [require_of h]
    rfl

/-- An outcome takes something, from inside the buffer, and its views are in a row there. -/
def Outcome.Inside (len : ℕ) (r : Outcome) : Prop :=
  ∀ argv consumed, r = .ok argv consumed → 0 < consumed ∧ consumed ≤ len ∧ InRow consumed argv

/-- The parse meets no fault: it comes to what the parser says, in views of the buffer. -/
def Meets (data : Bytes) (x : Located Outcome) (p : Parse) : Prop :=
  ∃ r, x = .ok r ∧ r.toParse data = p ∧ r.Inside data.length

theorem meets_needMore : Meets data (pure .needMore) .needMore :=
  ⟨_, rfl, rfl, fun _ _ h => by cases h⟩

theorem meets_error (e : Bytes) : Meets data (pure (.protocolError e)) (.protocolError e) :=
  ⟨_, rfl, rfl, fun _ _ h => by cases h⟩

theorem meets_ok {argv : List Span} {consumed : ℕ} (hpos : 0 < consumed) (hle : consumed ≤ data.length)
    (h : InRow consumed argv) : Meets data (pure (.ok argv consumed)) (.ok (argv.map (·.of data)) consumed) := by
  refine ⟨_, rfl, rfl, fun argv' n he => ?_⟩
  obtain ⟨rfl, rfl⟩ := Outcome.ok.inj he
  exact ⟨hpos, hle, h⟩

/-- The loop over the arguments; a length below `2 ^ 63` is added to a position without a wrap. -/
theorem parseBulks_meets (hlen : data.length < 2 ^ 62) (count : ℕ) {pos : ℕ} {argv : List Span} (hpos : 0 < pos)
    (hle : pos ≤ data.length) (hrow : InRow pos argv) :
    Meets data (parseBulks data count pos argv) (RequestParser.parseBulks data count pos (argv.map (·.of data))) := by
  induction count generalizing pos argv with
  | zero => exact meets_ok hpos hle hrow
  | succ count ih =>
    rw [parseBulks, RequestParser.parseBulks]
    by_cases hend : pos ≥ data.length
    · rw [if_pos hend, if_pos hend]
      exact meets_needMore
    rw [if_neg hend, if_neg hend, byteAt_runs (by omega), ok_bind]
    by_cases hd : data.getD pos 0 ≠ 36
    · rw [if_pos hd, if_pos hd]
      exact meets_error _
    rw [if_neg hd, if_neg hd, plus_runs (by omega), ok_bind, findCrlf_runs hlen _ (by omega) (by omega), ok_bind]
    cases hf : RequestParser.findCrlf data (pos + 1) with
    | none => exact meets_needMore
    | some at' =>
      obtain ⟨hat, hin⟩ := findCrlf_bound hf
      dsimp only
      rw [minus_runs (by omega), ok_bind, minus_runs (by omega), ok_bind, toLl_runs (by omega), ok_bind]
      cases hb : parseInt (view data (pos + 1) (at' - pos - 1)) with
      | none => exact meets_error _
      | some blen =>
        have hblen := parseInt_lt hb
        dsimp only
        by_cases hneg : blen < 0
        · rw [if_pos hneg, if_pos hneg]
          exact meets_error _
        rw [if_neg hneg, if_neg hneg, plus_runs (by omega), ok_bind, plus_runs (by omega), ok_bind, plus_runs (by omega), ok_bind,
          u64_of_lt (n := at' + 2) (by omega), u64_of_lt (n := at' + 2 + blen.toNat) (by omega),
          u64_of_lt (n := at' + 2 + blen.toNat + 2) (by omega)]
        split_ifs with hpast
        · exact meets_needMore
        · have hrow' : InRow (at' + 2 + blen.toNat + 2) (argv ++ [⟨at' + 2, blen.toNat⟩]) :=
            hrow.snoc (by dsimp only; omega) (by dsimp only [Span.stop]; omega)
          have hnext := ih (by omega) (by omega) hrow'
          rwa [List.map_append] at hnext

theorem parseMultibulk_meets (hlen : data.length < 2 ^ 62) (hstar : data.getD 0 0 = 42) :
    Meets data (parseMultibulk data) (RequestParser.parseMultibulk data) := by
  rw [parseMultibulk, RequestParser.parseMultibulk, findCrlf_runs hlen _ (Nat.zero_le _) (by omega), ok_bind]
  cases hf : RequestParser.findCrlf data 0 with
  | none => exact meets_needMore
  | some at' =>
    have hin := findCrlf_bound hf
    -- the line does not end where it starts
    have hat : 0 < at' := by
      have hcr := (RequestParser.findCrlfAux_bound hf).2.1
      rw [List.drop_zero, Nat.sub_zero] at hcr
      refine Nat.pos_of_ne_zero fun h0 => ?_
      rw [h0] at hcr
      rw [List.getD_eq_getElem?_getD, hcr] at hstar
      cases hstar
    dsimp only
    rw [minus_runs hat, ok_bind, toLl_runs (by omega), ok_bind]
    cases parseInt (view data 1 (at' - 1)) with
    | none => exact meets_error _
    | some count =>
      dsimp only
      split_ifs with hcount
      · exact meets_error _
      · rw [plus_runs (by omega), ok_bind]
        exact parseBulks_meets hlen _ (by omega) hin.2 .nil

section Lines

variable {lineEnd : ℕ}

theorem drop_take_cons {i : ℕ} (hline : lineEnd ≤ data.length) (hi : i < lineEnd) :
    (data.take lineEnd).drop i = data.getD i 0 :: (data.take lineEnd).drop (i + 1) := by
  have hlt : i < (data.take lineEnd).length := by
    rw [List.length_take]
    omega
  rw [List.drop_eq_getElem_cons hlt, List.getElem_take]
  simp [List.getD, show i < data.length by omega]

theorem skip_runs (hlen : data.length < 2 ^ 62) (hline : lineEnd ≤ data.length) (go : UInt8 → Bool) (fuel : ℕ) {i : ℕ}
    (hi : i ≤ lineEnd) (hfuel : lineEnd < i + fuel) :
    skip data go lineEnd fuel i = .ok (i + (((data.take lineEnd).drop i).takeWhile go).length) := by
  induction fuel generalizing i with
  | zero => omega
  | succ fuel ih =>
    rw [skip]
    by_cases hlt : i < lineEnd
    · rw [if_pos hlt, byteAt_runs (by omega), ok_bind, drop_take_cons hline hlt, List.takeWhile_cons]
      by_cases hgo : go (data.getD i 0)
      · rw [if_pos hgo, if_pos hgo, plus_runs (by omega), ok_bind, ih (by omega) (by omega), List.length_cons]
        congr 1
        omega
      · rw [if_neg hgo, if_neg hgo]
        rfl
    · have hnil : (data.take lineEnd).drop i = [] := List.drop_eq_nil_of_le (by rw [List.length_take]; omega)
      rw [if_neg hlt, hnil]
      rfl

/-- Where a loop over the bytes of a line stops. -/
theorem skipped (hline : lineEnd ≤ data.length) (go : UInt8 → Bool) {i : ℕ} (hi : i ≤ lineEnd) :
    i + (((data.take lineEnd).drop i).takeWhile go).length ≤ lineEnd ∧
    (data.take lineEnd).drop (i + (((data.take lineEnd).drop i).takeWhile go).length) =
      ((data.take lineEnd).drop i).dropWhile go := by
  have hle := (List.takeWhile_prefix (l := (data.take lineEnd).drop i) go).length_le
  rw [List.length_drop, List.length_take] at hle
  refine ⟨by omega, ?_⟩
  rw [← List.drop_drop]
  exact drop_takeWhile go _

/-- What a view of the line shows is in the line. -/
theorem of_take {start size : ℕ} (h : start + size ≤ lineEnd) :
    Span.of ⟨start, size⟩ data = ((data.take lineEnd).drop start).take size := by
  rw [Span.of, List.drop_take, List.take_take, min_eq_left (by omega)]

/-- The loop over a line finds the words that its blanks leave, as views in a row. -/
theorem words_run (hlen : data.length < 2 ^ 62) (hline : lineEnd ≤ data.length) (fuel : ℕ) {i : ℕ} {argv : List Span}
    (hi : i ≤ lineEnd) (hfuel : lineEnd < i + fuel) (hrow : InRow i argv) :
    ∃ out, words data lineEnd fuel i argv = .ok (argv ++ out) ∧ InRow lineEnd (argv ++ out) ∧
      out.map (·.of data) = (((data.take lineEnd).drop i).splitOnP isBlank).filter (· ≠ []) := by
  induction fuel generalizing i argv with
  | zero => omega
  | succ fuel ih =>
    rw [words]
    by_cases hlt : i < lineEnd
    · obtain ⟨hstart, hrest⟩ := skipped hline isBlank hi
      have hprogress : i < i + (((data.take lineEnd).drop i).takeWhile isBlank).length +
          ((((data.take lineEnd).drop i).dropWhile isBlank).takeWhile (!isBlank ·)).length := by
        rw [drop_take_cons hline hlt, List.takeWhile_cons, List.dropWhile_cons]
        split_ifs with hblank
        · rw [List.length_cons]
          omega
        · rw [List.takeWhile_cons, if_pos (by simpa using hblank), List.length_cons]
          omega
      rw [if_pos hlt, skip_runs hlen hline _ _ hi (by omega), ok_bind, words_dropWhile, ← hrest]
      have hfrom : i ≤ i + (((data.take lineEnd).drop i).takeWhile isBlank).length := Nat.le_add_right _ _
      rw [← hrest] at hprogress
      generalize i + (((data.take lineEnd).drop i).takeWhile isBlank).length = start at *
      obtain ⟨hstop, hrest'⟩ := skipped hline (!isBlank ·) hstart
      rw [skip_runs hlen hline _ _ hstart (by omega), ok_bind]
      by_cases hword : ((data.take lineEnd).drop start).takeWhile (!isBlank ·) = []
      · have hsame := List.takeWhile_append_dropWhile (p := (!isBlank ·)) (l := (data.take lineEnd).drop start)
        rw [hword, List.nil_append, ← hrest'] at hsame
        rw [hword, List.length_nil, Nat.add_zero] at hsame hstop hprogress ⊢
        rw [if_neg (by omega)]
        exact ih hstop (by omega) (hrow.mono hprogress.le)
      · have hpos := List.length_pos_iff.2 hword
        have hview := @of_take data lineEnd _ _ hstop
        rw [← List.prefix_iff_eq_take.1 (List.takeWhile_prefix _)] at hview
        rw [words_takeWhile hword, ← hrest']
        generalize (((data.take lineEnd).drop start).takeWhile (!isBlank ·)).length = size at *
        rw [if_pos (by omega), minus_runs (by omega), ok_bind, Nat.add_sub_cancel_left]
        have hnext : InRow (start + size) (argv ++ [⟨start, size⟩]) := hrow.snoc (by dsimp only; omega) le_rfl
        obtain ⟨out, hout, hrow', hmap⟩ := ih hstop (by omega) hnext
        refine ⟨⟨start, size⟩ :: out, ?_, ?_, ?_⟩
        · rw [hout, List.append_assoc]
          rfl
        · rwa [List.append_assoc] at hrow'
        · rw [List.map_cons, hview, hmap]
    · have hnil : (data.take lineEnd).drop i = [] := List.drop_eq_nil_of_le (by rw [List.length_take]; omega)
      rw [if_neg hlt, hnil]
      exact ⟨[], by rw [List.append_nil]; rfl, by rw [List.append_nil]; exact hrow.mono hi, rfl⟩

/-- The words of a request on one line, which end before `consumed`. -/
theorem line_meets (hlen : data.length < 2 ^ 62) {consumed : ℕ} (hpos : lineEnd < consumed) (hle : consumed ≤ data.length) :
    Meets data (do return .ok (← words data lineEnd (lineEnd + 1) 0 []) consumed)
      (.ok (((data.take lineEnd).splitOnP isBlank).filter (· ≠ [])) consumed) := by
  obtain ⟨out, hout, hrow, hmap⟩ := @words_run data lineEnd hlen (by omega) (lineEnd + 1) 0 [] (Nat.zero_le _) (by omega) .nil
  rw [List.nil_append] at hout hrow
  rw [List.drop_zero] at hmap
  rw [hout, ok_bind, ← hmap]
  exact meets_ok (by omega) hle (hrow.mono hpos.le)

end Lines

theorem parseInline_meets (hlen : data.length < 2 ^ 62) : Meets data (parseInline data) (RequestParser.parseInline data) := by
  rw [parseInline, RequestParser.parseInline, findCrlf_runs hlen _ (Nat.zero_le _) (by omega), ok_bind]
  cases hf : RequestParser.findCrlf data 0 with
  | some at' =>
    have hin := findCrlf_bound hf
    dsimp only
    rw [plus_runs (by omega), ok_bind]
    exact line_meets hlen (by omega) hin.2
  | none =>
    cases hnl : data.idxOf? 10 with
    | some nl =>
      have hin := (List.idxOf?_eq_some_iff.1 hnl).1
      dsimp only
      rw [plus_runs (by omega), ok_bind]
      exact line_meets hlen (by omega) hin
    | none =>
      dsimp only
      split_ifs
      · exact meets_error _
      · exact meets_needMore

theorem parse_meets (hlen : data.length < 2 ^ 62) : Meets data (parse data) (RequestParser.parse data) := by
  rw [parse, RequestParser.parse]
  by_cases hempty : data.length = 0
  · rw [if_pos hempty, if_pos hempty]
    exact meets_needMore
  rw [if_neg hempty, if_neg hempty, byteAt_runs (by omega), ok_bind]
  split_ifs with hstar
  · exact parseMultibulk_meets hlen hstar
  · exact parseInline_meets hlen

theorem parseFrom_meets (hlen : data.length < 2 ^ 62) {pos : ℕ} (hpos : pos ≤ data.length) :
    Meets (data.drop pos) (parseFrom data pos) (RequestParser.parse (data.drop pos)) := by
  rw [parseFrom, minus_runs hpos, ok_bind]
  exact parse_meets (by rw [List.length_drop]; omega)

/-- Each round of `process_input` moves the position, up to the end of the buffer. -/
theorem takeLoop_runs (hlen : data.length < 2 ^ 62) (fuel : ℕ) {pos : ℕ} (hpos : pos ≤ data.length)
    (hfuel : data.length < pos + fuel) : takeLoop data fuel pos = .ok (BlazeKV.takeLoop fuel (data.drop pos)) := by
  induction fuel generalizing pos with
  | zero => omega
  | succ fuel ih =>
    obtain ⟨r, hr, hparse, hinside⟩ := parseFrom_meets hlen hpos
    rw [takeLoop, BlazeKV.takeLoop, hr, ok_bind, ← hparse]
    cases r with
    | needMore => rfl
    | protocolError e => rfl
    | ok argv consumed =>
      obtain ⟨hsome, hle, -⟩ := hinside argv consumed rfl
      rw [List.length_drop] at hle
      dsimp only [Outcome.toParse]
      rw [plus_runs (by omega), ok_bind, ih (by omega) (by omega), ok_bind, List.drop_drop]
      simp

theorem replayLoop_runs {σ : Type} (exec : σ → List Bytes → σ) (hlen : data.length < 2 ^ 62) (fuel : ℕ) {pos : ℕ} (s : σ)
    (hpos : pos ≤ data.length) (hfuel : data.length < pos + fuel) :
    replayLoop exec data fuel pos s = .ok (BlazeKV.replayLoop exec fuel (data.drop pos) s) := by
  induction fuel generalizing pos s with
  | zero => omega
  | succ fuel ih =>
    rw [replayLoop, BlazeKV.replayLoop, List.length_drop]
    by_cases hend : pos < data.length
    · obtain ⟨r, hr, hparse, hinside⟩ := parseFrom_meets hlen hpos
      rw [if_pos hend, if_neg (by omega), hr, ok_bind, ← hparse]
      cases r with
      | needMore => rfl
      | protocolError e => rfl
      | ok argv consumed =>
        obtain ⟨hsome, hle, -⟩ := hinside argv consumed rfl
        rw [List.length_drop] at hle
        dsimp only [Outcome.toParse]
        rw [plus_runs (by omega), ok_bind, ih _ (by omega) (by omega), List.drop_drop]
        simp
    · rw [if_neg hend, if_pos (by omega)]
      rfl

/-- A parse meets no fault, and neither do the loops of `process_input` and of the replay, which end
after as many rounds as there are bytes. -/
theorem parser_inside (data : Bytes) (hlen : data.length < 2 ^ 62) :
    Meets data (parse data) (RequestParser.parse data) ∧
    (∀ pos ≤ data.length, Meets (data.drop pos) (parseFrom data pos) (RequestParser.parse (data.drop pos))) ∧
    takeLoop data (data.length + 1) 0 = .ok (takeInput data) ∧
    ∀ {σ : Type} (exec : σ → List Bytes → σ) (s : σ), replayLoop exec data (data.length + 1) 0 s = .ok (replay exec data s) := by
  refine ⟨parse_meets hlen, fun pos hpos => parseFrom_meets hlen hpos, ?_, fun exec s => ?_⟩
  · rw [takeLoop_runs hlen _ (Nat.zero_le _) (by omega)]
    rfl
  · rw [replayLoop_runs exec hlen _ s (Nat.zero_le _) (by omega)]
    rfl

/-- A length of 63 bits. -/
theorem parser_inside_long : parse (ascii "*1\r\n$9223372036854775807\r\n") = .ok .needMore := by
  obtain ⟨⟨r, hr, hparse, -⟩, -⟩ := parser_inside (ascii "*1\r\n$9223372036854775807\r\n") (by decide +kernel)
  have hmore : RequestParser.parse (ascii "*1\r\n$9223372036854775807\r\n") = .needMore := by decide +kernel
  cases r with
  | needMore => exact hr
  | ok argv n => cases hparse.trans hmore
  | protocolError e => cases hparse.trans hmore

end BlazeKV.Positions
