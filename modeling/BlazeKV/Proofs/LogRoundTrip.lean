import BlazeKV.Proofs.AofReplay

/-! The loop of `load_persistence` over the records of any commands that a client can send:
what it parses, the empty commands among them, and what it leaves unread. -/

namespace BlazeKV

open RequestParser

/-- The loop over what is left of the file, for its parses alone. -/
def parsedLoop : ℕ → Bytes → List (List Bytes) × Bytes
  | 0, data => ([], data)
  | fuel + 1, data =>
    if data.length = 0 then ([], [])
    else match parse data with
      | .ok argv consumed =>
        let r := parsedLoop fuel (data.drop consumed)
        (argv :: r.1, r.2)
      | _ => ([], data)

def parsedOf (data : Bytes) : List (List Bytes) × Bytes := parsedLoop (data.length + 1) data

/-- The loop executes what it parses, but for empty commands. -/
theorem replay_eq_parsed {σ : Type} (exec : σ → List Bytes → σ) (data : Bytes) (s : σ) :
    replay exec data s = ((parsedOf data).1.filter (· ≠ [])).foldl exec s := by
  have hloop : ∀ fuel data s, replayLoop exec fuel data s =
      ((parsedLoop fuel data).1.filter (· ≠ [])).foldl exec s := by
    intro fuel
    induction fuel with
    | zero => exact fun _ _ => rfl
    | succ fuel ih =>
      intro data s
      rw [replayLoop, parsedLoop]
      split_ifs
      · rfl
      · cases parse data with
        | ok argv n =>
          dsimp only
          rw [ih]
          by_cases ha : argv ≠ [] <;> simp [ha]
        | needMore => rfl
        | protocolError e => rfl
  exact hloop _ _ _

theorem parsedLoop_ok {data : Bytes} {argv : List Bytes} {n : ℕ} (h : parse data = .ok argv n) (fuel : ℕ) :
    parsedLoop (fuel + 1) data =
      (argv :: (parsedLoop fuel (data.drop n)).1, (parsedLoop fuel (data.drop n)).2) := by
  have hne : data.length ≠ 0 := by
    intro h0
    rw [parse, if_pos h0] at h
    exact absurd h (by simp)
  rw [parsedLoop, if_neg hne, h]

/-- A record with too many arguments is where the loop ends. -/
theorem parsedLoop_long {c : List Bytes} (hc : ¬Fits c) (rest : Bytes) (fuel : ℕ) :
    parsedLoop fuel (encodeMultibulk c ++ rest) = ([], encodeMultibulk c ++ rest) := by
  cases fuel with
  | zero => rfl
  | succ fuel =>
    have hne : (encodeMultibulk c ++ rest).length ≠ 0 := by simp [encode_eq]
    rw [parsedLoop, if_neg hne, parse_encode_long c rest (not_le.1 hc)]

/-- The run lemma. -/
theorem parsedLoop_log {cs : List (List Bytes)} (hcs : ∀ c ∈ cs, Fits c) {fuel : ℕ} (hfuel : cs.length ≤ fuel)
    (hsize : (logOf cs).length < 2 ^ 62) : parsedLoop fuel (logOf cs) = (cs, []) := by
  induction cs generalizing fuel with
  | nil => cases fuel <;> rfl
  | cons c cs ih =>
    obtain ⟨fuel, rfl⟩ : ∃ f, fuel = f + 1 := ⟨fuel - 1, by simp at hfuel; omega⟩
    have hsplit : logOf (c :: cs) = encodeMultibulk c ++ logOf cs := by simp [logOf]
    rw [hsplit] at hsize ⊢
    rw [parsedLoop_ok (parse_encode c _ (hcs c List.mem_cons_self) hsize), List.drop_left]
    rw [List.length_append] at hsize
    rw [ih (fun c hc => hcs c (List.mem_cons_of_mem _ hc)) (by simpa using hfuel) (by omega)]

theorem parsedLoop_fits {cs : List (List Bytes)} {fuel : ℕ} (hsize : (logOf cs).length < 2 ^ 62)
    (h : parsedLoop fuel (logOf cs) = (cs, [])) : ∀ c ∈ cs, Fits c := by
  induction cs generalizing fuel with
  | nil => simp
  | cons c cs ih =>
    have hsplit : logOf (c :: cs) = encodeMultibulk c ++ logOf cs := by simp [logOf]
    rw [hsplit] at hsize h
    by_cases hc : Fits c
    · cases fuel with
      | zero => simp [parsedLoop] at h
      | succ fuel =>
        rw [parsedLoop_ok (parse_encode c _ hc hsize), List.drop_left] at h
        rw [List.length_append] at hsize
        obtain ⟨h1, h2⟩ := Prod.mk.inj h
        exact List.forall_mem_cons.2 ⟨hc, ih (by omega) (Prod.ext (List.cons.inj h1).2 h2)⟩
    · rw [parsedLoop_long hc] at h
      exact absurd (Prod.mk.inj h).1 (by simp)

/-- The loop parses the records back and reads every byte, just when no command has more
arguments than `parse` takes in this form. -/
theorem log_roundtrip_iff (cs : List (List Bytes)) (hsize : (logOf cs).length < 2 ^ 62) :
    parsedOf (logOf cs) = (cs, []) ↔ ∀ c ∈ cs, Fits c := by
  refine ⟨parsedLoop_fits hsize, fun h => parsedLoop_log h ?_ hsize⟩
  have := length_le_logOf cs
  omega

theorem log_roundtrip_set : parsedOf (logOf [[ascii "SET", [97], [13, 10, 0]], []]) =
    ([[ascii "SET", [97], [13, 10, 0]], []], []) :=
  (log_roundtrip_iff [[ascii "SET", [97], [13, 10, 0]], []] (by decide +kernel)).2 (by decide)

/-- The words of a request line. -/
theorem splitOnP_words (n : ℕ) :
    (((List.replicate n ([97, 32] : Bytes)).flatten.splitOnP isBlank).filter (· ≠ [])) = List.replicate n [97] := by
  induction n with
  | zero => rfl
  | succ n ih =>
    have hfirst : ([97] ++ 32 :: (List.replicate n ([97, 32] : Bytes)).flatten).splitOnP isBlank =
        [97] :: (List.replicate n ([97, 32] : Bytes)).flatten.splitOnP isBlank :=
      List.splitOnP_append_cons_of_forall_mem (by simp [isBlank]) 32 (by decide) _
    rw [List.replicate_succ, List.flatten_cons, List.replicate_succ, ← ih]
    exact congrArg (List.filter (· ≠ [])) hfirst

theorem parse_words (n : ℕ) : parse ((List.replicate (n + 1) ([97, 32] : Bytes)).flatten ++ crlf) =
    .ok (List.replicate (n + 1) [97]) ((List.replicate (n + 1) ([97, 32] : Bytes)).flatten.length + 2) := by
  have h13 : (13 : UInt8) ∉ (List.replicate (n + 1) ([97, 32] : Bytes)).flatten := by
    simp [List.mem_flatten, List.mem_replicate]
  have hcr := findCrlf_line [] h13 []
  rw [List.nil_append, List.append_nil, List.length_nil, Nat.zero_add] at hcr
  have hstar : ((List.replicate (n + 1) ([97, 32] : Bytes)).flatten ++ crlf).getD 0 0 ≠ 42 := by
    simp [List.replicate_succ]
  rw [parse, if_neg (by simp [List.replicate_succ]), if_neg hstar, parseInline, hcr]
  dsimp only
  rw [List.take_left, splitOnP_words]

/-- A line of 2^20 + 1 words. -/
theorem long_line_lost : ¬ ∀ cs : List (List Bytes), (∀ c ∈ cs, ∃ data n, parse data = .ok c n) →
    parsedOf (logOf cs) = (cs, []) := by
  intro h
  have hparsed := h [List.replicate (2 ^ 20 + 1) [97]] fun c hc => by
    rw [List.mem_singleton.1 hc]
    exact ⟨_, _, parse_words (2 ^ 20)⟩
  have hlong : ¬Fits (List.replicate (2 ^ 20 + 1) ([97] : Bytes)) := by
    rw [Fits, List.length_replicate]
    decide
  have hrest : logOf [List.replicate (2 ^ 20 + 1) ([97] : Bytes)] = encodeMultibulk (List.replicate (2 ^ 20 + 1) [97]) ++ [] := by
    rw [logOf, List.flatMap_singleton, List.append_nil]
  rw [parsedOf, hrest, parsedLoop_long hlong] at hparsed
  exact absurd (Prod.mk.inj hparsed).1 (List.cons_ne_nil _ _).symm

end BlazeKV
