import BlazeKV.Proofs.Reads
import Mathlib.Data.List.DropRight

/-! The end of the file in the middle of the read loop. It marks the connection as closing before `process_input` has
seen what the reads before it in the same loop have brought. -/

namespace BlazeKV

open RequestParser

/-- What `n` rounds take is no longer than the buffer, and nothing is left where the input is malformed. -/
theorem takeLoop_rest (fuel : ℕ) (buf : Bytes) : (∀ w, (takeLoop fuel buf).2 = some w → w.length ≤ buf.length) ∧
    ((takeLoop fuel buf).2 = none → ∃ m, .malformed m ∈ (takeLoop fuel buf).1) := by
  induction fuel generalizing buf with
  | zero => exact ⟨fun w hw => Option.some.inj hw ▸ le_rfl, fun h => by cases h⟩
  | succ fuel ih =>
    rw [takeLoop]
    cases parse buf with
    | needMore => exact ⟨fun w hw => Option.some.inj hw ▸ le_rfl, fun h => by cases h⟩
    | protocolError e => exact ⟨fun w hw => (by cases hw), fun _ => ⟨_, List.mem_singleton_self _⟩⟩
    | ok argv consumed =>
      obtain ⟨hlen, hbad⟩ := ih (buf.drop consumed)
      refine ⟨fun w hw => (hlen w hw).trans (by rw [List.length_drop]; omega), fun h => ?_⟩
      obtain ⟨m, hm⟩ := hbad h
      refine ⟨m, ?_⟩
      dsimp only
      split_ifs
      · exact hm
      · exact List.mem_cons_of_mem _ hm

theorem takeInput_rest (buf : Bytes) : (∀ w, (takeInput buf).2 = some w → w.length ≤ buf.length) ∧
    ((takeInput buf).2 = none → ∃ m, .malformed m ∈ (takeInput buf).1) := takeLoop_rest _ buf

namespace Intake

variable {s : Intake} {rs : List ReadResult}

def arrived (rs : List ReadResult) : Bytes := rs.flatMap ReadResult.bytes

/-- The commands that are complete in what the results have brought: what is taken where the loop ends behind them. -/
def completed (rs : List ReadResult) : List Taken := (rs.foldl read start).endLoop.taken

/-- The commands that are dispatched before the connection is closed at the end of the file. -/
def dispatched (rs : List ReadResult) : List Taken := ((rs ++ [ReadResult.eof]).foldl read start).taken

theorem endLoop_closing (h : s.closing = true) : s.endLoop.taken = s.taken ∧ s.endLoop.closing = true := by
  simp [endLoop, processInput, h]

/-- The end of the loop on a connection that stays open. -/
theorem endLoop_open (h : s.closing = false) (hsize : s.input.length ≤ Connection.kMaxInlineBuffer) :
    s.endLoop = ⟨(takeInput s.input).2.getD [], (takeInput s.input).2.isNone, s.taken ++ (takeInput s.input).1⟩ := by
  have hclosing : (s.closing || decide (Connection.kMaxInlineBuffer < s.input.length)) = false := by
    rw [h, Bool.false_or]
    exact decide_eq_false (not_lt.2 hsize)
  rw [endLoop, hclosing, processInput, if_neg (by simp)]

theorem read_closing (h : s.closing = true) (r : ReadResult) : (s.read r).taken = s.taken ∧ (s.read r).closing = true := by
  cases r with
  | data b =>
    unfold read
    dsimp only
    split_ifs
    · exact endLoop_closing h
    · exact ⟨rfl, h⟩
  | again => exact endLoop_closing h
  | eof => exact endLoop_closing rfl

/-- A closing connection takes nothing more. -/
theorem foldl_closing (h : s.closing = true) (rs : List ReadResult) :
    (rs.foldl read s).taken = s.taken ∧ (rs.foldl read s).closing = true := by
  induction rs generalizing s with
  | nil => exact ⟨rfl, h⟩
  | cons r rs ih =>
    obtain ⟨htaken, hclosing⟩ := read_closing h r
    rw [List.foldl_cons, ← htaken]
    exact ih hclosing

/-- Reads that fill the chunk only collect. -/
theorem foldl_fills (h : ∀ r ∈ rs, r.fills) : rs.foldl read s = { s with input := s.input ++ arrived rs } := by
  induction rs generalizing s with
  | nil => simp [arrived]
  | cons r rs ih =>
    have hr := h r List.mem_cons_self
    cases r with
    | data b =>
      have hlong : ¬b.length < kReadChunk := by simpa [ReadResult.fills] using hr
      rw [List.foldl_cons, ih fun r hr => h r (List.mem_cons_of_mem _ hr), read, if_neg hlong]
      simp [arrived, ReadResult.bytes]
    | again => cases hr
    | eof => cases hr

/-- What the loop leaves of a connection, before `process_input`, is what the connection receives in one piece. -/
theorem foldl_receive (c : Connection) (taken : List Taken) (hfull : ∀ r ∈ rs, r.fills) {r : ReadResult} (hlast : r.fills = false) :
    (rs ++ [r]).foldl read ⟨c.input, c.closing, taken⟩ =
      let c := c.receive (arrived rs ++ r.bytes) (r matches .eof)
      processInput ⟨c.input, c.closing, taken⟩ := by
  rw [List.foldl_append, foldl_fills hfull, List.foldl_cons, List.foldl_nil]
  cases r with
  | data b =>
    have hshort : b.length < kReadChunk := by simpa [ReadResult.fills] using hlast
    simp [read, hshort, endLoop, Connection.receive, ReadResult.bytes]
  | again => simp [read, endLoop, Connection.receive, ReadResult.bytes]
  | eof => simp [read, endLoop, Connection.receive, ReadResult.bytes]

/-- What the connection keeps: it holds no more than has arrived, and is closing only after malformed input. -/
def Kept (n : ℕ) (s : Intake) : Prop := s.input.length ≤ n ∧ (s.closing = true → ∃ m, .malformed m ∈ s.taken)

theorem endLoop_kept {n : ℕ} (h : s.Kept n) (hn : n ≤ Connection.kMaxInlineBuffer) : s.endLoop.Kept n := by
  cases hc : s.closing with
  | true =>
    obtain ⟨htaken, hclosing⟩ := endLoop_closing hc
    refine ⟨?_, fun _ => htaken ▸ h.2 hc⟩
    simpa [endLoop, processInput, hc] using h.1
  | false =>
    obtain ⟨hrest, hbad⟩ := takeInput_rest s.input
    rw [endLoop_open hc (h.1.trans hn)]
    refine ⟨?_, fun hnone => ?_⟩
    · cases hw : (takeInput s.input).2 with
      | none => exact Nat.zero_le n
      | some w => exact (hrest w hw).trans h.1
    · obtain ⟨m, hm⟩ := hbad (Option.isNone_iff_eq_none.1 hnone)
      exact ⟨m, List.mem_append_right _ hm⟩

theorem read_kept {n : ℕ} (h : s.Kept n) {r : ReadResult} (hr : r ≠ .eof) (hn : n + r.bytes.length ≤ Connection.kMaxInlineBuffer) :
    (s.read r).Kept (n + r.bytes.length) := by
  cases r with
  | data b =>
    have hmore : Kept (n + b.length) { s with input := s.input ++ b } :=
      ⟨by rw [List.length_append]; exact Nat.add_le_add_right h.1 _, h.2⟩
    unfold read
    dsimp only
    split_ifs
    · exact endLoop_kept hmore hn
    · exact hmore
  | again => exact endLoop_kept h (by simpa using hn)
  | eof => exact absurd rfl hr

theorem foldl_kept {n : ℕ} (h : s.Kept n) (hrs : ReadResult.eof ∉ rs) (hn : n + (arrived rs).length ≤ Connection.kMaxInlineBuffer) :
    (rs.foldl read s).Kept (n + (arrived rs).length) := by
  induction rs generalizing s n with
  | nil => exact h
  | cons r rs ih =>
    simp only [arrived, List.flatMap_cons, List.length_append, ← Nat.add_assoc] at hn ⊢
    have hr : r ≠ .eof := fun he => hrs (he ▸ List.mem_cons_self)
    exact ih (read_kept h hr (by omega)) (fun he => hrs (List.mem_cons_of_mem r he)) hn

/-- A stream whose inline requests have plain lines is taken as a whole, however it arrives. -/
theorem foldl_plain (h : s.closing = false) (hrs : ReadResult.eof ∉ rs) (hplain : PlainStream (s.input ++ arrived rs))
    (hsize : (s.input ++ arrived rs).length ≤ Connection.kMaxInlineBuffer) :
    (rs.foldl read s).endLoop.taken = s.taken ++ (takeInput (s.input ++ arrived rs)).1 := by
  induction rs generalizing s with
  | nil =>
    rw [arrived, List.flatMap_nil, List.append_nil] at hsize ⊢
    rw [List.foldl_nil, endLoop_open h hsize]
  | cons r rs ih =>
    have hall : s.input ++ arrived (r :: rs) = (s.input ++ r.bytes) ++ arrived rs := by
      rw [arrived, List.flatMap_cons, List.append_assoc]
      rfl
    rw [hall] at hplain hsize ⊢
    have hrest : ReadResult.eof ∉ rs := fun he => hrs (List.mem_cons_of_mem r he)
    -- the loop goes on, or ends and leaves what is not complete
    have hends : ∀ s₁ : Intake, s₁ = endLoop ⟨s.input ++ r.bytes, false, s.taken⟩ →
        (rs.foldl read s₁).endLoop.taken = s.taken ++ (takeInput (s.input ++ r.bytes ++ arrived rs)).1 := by
      rintro _ rfl
      have hfirst : (s.input ++ r.bytes).length ≤ Connection.kMaxInlineBuffer := by
        rw [List.length_append] at hsize
        omega
      have hlen : (s.input ++ r.bytes ++ arrived rs).length < 2 ^ 62 := hsize.trans_lt (by decide)
      rw [@endLoop_open ⟨s.input ++ r.bytes, false, s.taken⟩ rfl hfirst]
      rcases takeInput_append (s.input ++ r.bytes) (arrived rs) hlen hplain with ⟨w, hw, -, hplain, hle, he⟩ | ⟨hw, he⟩
      · dsimp only
        rw [hw, he, ← List.append_assoc]
        exact ih rfl hrest hplain (hle.trans hsize)
      · dsimp only
        rw [hw, he]
        obtain ⟨htaken, hclosing⟩ := @foldl_closing ⟨[], true, s.taken ++ (takeInput (s.input ++ r.bytes)).1⟩ rfl rs
        exact (endLoop_closing hclosing).1.trans htaken
    cases r with
    | data b =>
      rw [List.foldl_cons, read]
      split_ifs
      · exact hends _ (by rw [h]; rfl)
      · exact @ih ⟨s.input ++ b, s.closing, s.taken⟩ h hrest hplain hsize
    | again => exact hends _ (by rw [← h]; simp [read, ReadResult.bytes])
    | eof => exact absurd List.mem_cons_self hrs

end Intake

open Intake

/-- The results of the loop that sees the end of the file, and those before them. -/
theorem rdropWhile_append_rtakeWhile (p : ReadResult → Bool) (rs : List ReadResult) : rs.rdropWhile p ++ rs.rtakeWhile p = rs := by
  induction rs using List.reverseRecOn with
  | nil => rfl
  | append_singleton rs r ih =>
    rw [List.rdropWhile_concat, List.rtakeWhile_concat]
    split_ifs
    · rw [← List.append_assoc, ih]
    · exact List.append_nil _

/-- What is complete at the end of the file has been dispatched just where the reads of the same loop have completed
nothing. -/
theorem eof_dispatches_iff (rs : List ReadResult) (hrs : ReadResult.eof ∉ rs)
    (hsize : (arrived rs).length < Connection.kMaxInlineBuffer) (hclean : ∀ t ∈ completed rs, ∃ argv, t = .command argv) :
    (dispatched rs = completed rs ↔
      (takeInput (((rs.rdropWhile ReadResult.fills).foldl read start).input ++ arrived (rs.rtakeWhile ReadResult.fills))).1 = []) ∧
      (PlainStream (arrived rs) → completed rs = (takeInput (arrived rs)).1) := by
  have hstart : Kept 0 start := ⟨le_rfl, fun h => by cases h⟩
  set head := rs.rdropWhile ReadResult.fills with hhead
  set tail := rs.rtakeWhile ReadResult.fills with htail
  have hsplit : head ++ tail = rs := rdropWhile_append_rtakeWhile ReadResult.fills rs
  have hfills : ∀ r ∈ tail, r.fills := fun r hr => List.mem_rtakeWhile_imp hr
  have hbytes : arrived rs = arrived head ++ arrived tail := by
    rw [← hsplit, arrived, List.flatMap_append]
    rfl
  rw [hbytes, List.length_append] at hsize
  have hkept : Kept (0 + (arrived head).length) (head.foldl read start) :=
    foldl_kept hstart (fun he => hrs (hsplit ▸ List.mem_append_left tail he)) (by omega)
  set s := head.foldl read start with hs
  have hrun : rs.foldl read start = { s with input := s.input ++ arrived tail } := by
    rw [← hsplit, List.foldl_append, ← hs, foldl_fills hfills]
  have hdispatched : dispatched rs = s.taken := by
    rw [dispatched, List.foldl_append, hrun]
    exact (@endLoop_closing ⟨s.input ++ arrived tail, true, s.taken⟩ rfl).1
  constructor
  · cases hc : s.closing with
    | true =>
      have hcompleted : completed rs = s.taken := by
        rw [completed, hrun]
        exact (@endLoop_closing ⟨s.input ++ arrived tail, s.closing, s.taken⟩ hc).1
      obtain ⟨m, hm⟩ := hkept.2 hc
      obtain ⟨argv, hcommand⟩ := hclean _ (hcompleted ▸ hm)
      cases hcommand
    | false =>
      have hfit : (s.input ++ arrived tail).length ≤ Connection.kMaxInlineBuffer := by
        have := hkept.1
        rw [List.length_append]
        omega
      have hcompleted : completed rs = s.taken ++ (takeInput (s.input ++ arrived tail)).1 := by
        rw [completed, hrun, @endLoop_open ⟨s.input ++ arrived tail, s.closing, s.taken⟩ hc hfit]
      rw [hdispatched, hcompleted]
      exact List.self_eq_append_right
  · intro hplain
    have hfit : (arrived rs).length ≤ Connection.kMaxInlineBuffer := by
      rw [hbytes, List.length_append]
      omega
    exact @foldl_plain start rs rfl hrs hplain hfit

/-- A request before the end of the file, in a read that does not fill the chunk. -/
theorem eof_dispatches_ping : dispatched [.data (ascii "PING\r\n")] = completed [.data (ascii "PING\r\n")] := by
  have hcompleted : completed [.data (ascii "PING\r\n")] = [.command [ascii "PING"]] := by decide +kernel
  refine (eof_dispatches_iff [.data (ascii "PING\r\n")] (by simp) (by decide +kernel) ?_).1.2 (by decide +kernel)
  rw [hcompleted]
  simp

/-- One chunk: a request, and blanks that begin the next one. -/
def pingAndBlanks : Bytes := ascii "PING\r\n" ++ List.replicate 16378 32

theorem parse_ping (w : Bytes) : parse (ascii "PING\r\n" ++ w) = .ok [ascii "PING"] 6 := by
  have hcrlf : findCrlf (ascii "PING\r\n") 0 = some 4 := by decide
  have hline := findCrlf_stable hcrlf w
  rw [parse, if_neg (by simp [ascii]), if_neg (by simp [ascii]), parseInline, hline]
  rfl

theorem parse_blanks {n : ℕ} (h : n ≤ 64 * 1024) : parse (List.replicate n 32) = .needMore := by
  have hten : (10 : UInt8) ∉ List.replicate n 32 := fun hmem => absurd (List.eq_of_mem_replicate hmem) (by decide)
  have hcrlf : findCrlf (List.replicate n 32) 0 = none := by
    cases hf : findCrlf (List.replicate n 32) 0 with
    | none => rfl
    | some at' => exact absurd (mem_of_findCrlf hf) hten
  have hfirst : (List.replicate n (32 : UInt8)).getD 0 0 ≠ 42 := by
    cases n with
    | zero => decide
    | succ n => simp [List.replicate_succ]
  unfold parse
  split_ifs
  · rfl
  · rw [parseInline, hcrlf, List.idxOf?_eq_none_iff.2 hten]
    dsimp only
    rw [if_neg (by rw [List.length_replicate]; omega)]

/-- The client sends one chunk that holds a request, and closes. -/
theorem eof_drops_ping : ¬∀ rs : List ReadResult, ReadResult.eof ∉ rs →
    (∀ r ∈ rs, ∀ b, r = .data b → 0 < b.length ∧ b.length ≤ kReadChunk) →
    (arrived rs).length < Connection.kMaxInlineBuffer → (∀ t ∈ completed rs, ∃ argv, t = .command argv) →
      dispatched rs = completed rs := by
  intro h
  have hlen : pingAndBlanks.length = kReadChunk := by
    rw [pingAndBlanks, List.length_append, List.length_replicate]
    rfl
  have htake : (takeInput pingAndBlanks).1 = [.command [ascii "PING"]] := by
    have hparse : parse pingAndBlanks = .ok [ascii "PING"] 6 := parse_ping _
    have hdrop : pingAndBlanks.drop 6 = List.replicate 16378 32 := @List.drop_left _ (ascii "PING\r\n") _
    rw [takeInput_ok (by rw [hlen]; decide) hparse, hdrop, takeInput_needMore (parse_blanks (by decide))]
    rfl
  have hread : [ReadResult.data pingAndBlanks].foldl Intake.read start = ⟨pingAndBlanks, false, []⟩ := by
    have hfills : ∀ r ∈ [ReadResult.data pingAndBlanks], r.fills := fun r hr => by
      rw [List.mem_singleton.1 hr]
      simp only [ReadResult.fills, hlen, le_refl, decide_true]
    rw [foldl_fills hfills]
    simp only [start, arrived, List.flatMap_singleton, ReadResult.bytes, List.nil_append]
  have hcompleted : completed [.data pingAndBlanks] = [.command [ascii "PING"]] := by
    rw [completed, hread, endLoop_open rfl (by rw [hlen]; decide), htake]
    rfl
  have hdispatched : dispatched [.data pingAndBlanks] = [] := by
    rw [dispatched, List.foldl_append, hread]
    exact (@endLoop_closing ⟨pingAndBlanks, true, []⟩ rfl).1
  have hclaim := h [.data pingAndBlanks] (by simp)
    (fun r hr b hb => by
      obtain rfl := ReadResult.data.inj ((List.mem_singleton.1 hr).symm.trans hb)
      rw [hlen]
      decide)
    (by simp only [arrived, List.flatMap_singleton, ReadResult.bytes, hlen]; decide) (by simp [hcompleted])
  rw [hdispatched, hcompleted] at hclaim
  cases hclaim

end BlazeKV
