import BlazeKV.Proofs.RespTorn
import BlazeKV.Spec.Aof

/-! Replay of the log over restarts. The log is opened for appending behind what a
crash left, so that a cut record is parsed together with the next one. -/

namespace BlazeKV

open RequestParser

/-- The commands that reach the log: those that route to a write. -/
def Loggable (c : List Bytes) : Prop := ∃ spec, route c = .ok spec ∧ spec.write = true

/-- The parser reads the record of the command. -/
def Fits (c : List Bytes) : Prop := (c.length : ℤ) ≤ kMaxCount

instance : DecidablePred Fits := fun c => inferInstanceAs (Decidable ((c.length : ℤ) ≤ kMaxCount))

theorem Loggable.find {c : List Bytes} (h : Loggable c) :
    ∃ spec ∈ CommandTable.specs, spec.name = lowercase (cmdName c) := by
  obtain ⟨spec, hr, -⟩ := h
  have hf := (route_ok hr).1
  exact ⟨spec, List.mem_of_find?_eq_some hf, by simpa using List.find?_some hf⟩

theorem Loggable.ne_nil {c : List Bytes} (h : Loggable c) : c ≠ [] := by
  rintro rfl
  obtain ⟨spec, hs, hn⟩ := h.find
  have : ∀ s ∈ CommandTable.specs, s.name ≠ [] := by decide +kernel
  exact this spec hs hn

theorem toLower_eq_self {c : UInt8} (h : isDigit c = true ∨ c = 36) : toLower c = c := by
  rw [toLower, if_neg]
  rcases h with h | rfl
  · simp only [isDigit, decide_eq_true_eq] at h
    omega
  · decide

/-- No name of the table starts with a digit or with a dollar sign. -/
theorem Loggable.name {w : Bytes} (h : Loggable [w]) {c : UInt8} (hc : c ∈ w.head?) :
    isDigit c = false ∧ c ≠ 36 := by
  obtain ⟨spec, hs, hn⟩ := h.find
  have htable : ∀ s ∈ CommandTable.specs, ∀ c ∈ s.name.head?, isDigit c = false ∧ c ≠ 36 := by decide +kernel
  obtain ⟨w', rfl⟩ : ∃ w', w = c :: w' := by
    cases w with
    | nil => exact absurd hc (by simp)
    | cons d w' => exact ⟨w', by rw [Option.some.inj hc]⟩
  have hname : toLower c ∈ spec.name.head? := by
    rw [hn]
    rfl
  have := htable spec hs _ hname
  by_contra hcon
  rw [not_and_or, Bool.not_eq_false, not_not] at hcon
  rw [toLower_eq_self hcon] at this
  rcases hcon with hcon | hcon
  · simp [hcon] at this
  · exact this.2 hcon

section Loop

variable {σ : Type} (exec : σ → List Bytes → σ)

theorem replayLoop_nil (fuel : ℕ) (s : σ) : replayLoop exec fuel [] s = s := by
  cases fuel <;> rfl

theorem replayLoop_ok {data : Bytes} {argv : List Bytes} {n : ℕ} (h : parse data = .ok argv n)
    (fuel : ℕ) (s : σ) : replayLoop exec (fuel + 1) data s =
      replayLoop exec fuel (data.drop n) (if argv ≠ [] then exec s argv else s) := by
  have hne : data.length ≠ 0 := by
    intro h0
    rw [parse, if_pos h0] at h
    exact absurd h (by simp)
  rw [replayLoop, if_neg hne, h]

theorem replayLoop_stop {data : Bytes} (h : ∀ argv n, parse data ≠ .ok argv n) (fuel : ℕ) (s : σ) :
    replayLoop exec fuel data s = s := by
  cases fuel with
  | zero => rfl
  | succ fuel =>
    rw [replayLoop]
    split_ifs
    · rfl
    · split
      · next argv n heq => exact absurd heq (h argv n)
      · rfl

/-- Records that fit are executed one after the other. -/
theorem replayLoop_log {cs : List (List Bytes)} (hcs : ∀ c ∈ cs, c ≠ [] ∧ Fits c) (rest : Bytes)
    (fuel : ℕ) (s : σ) (hsize : (logOf cs ++ rest).length < 2 ^ 62) :
    replayLoop exec (fuel + cs.length) (logOf cs ++ rest) s =
      replayLoop exec fuel rest (cs.foldl exec s) := by
  induction cs generalizing s with
  | nil => rfl
  | cons c cs ih =>
    obtain ⟨hne, hfit⟩ := hcs c List.mem_cons_self
    have hsplit : logOf (c :: cs) ++ rest = encodeMultibulk c ++ (logOf cs ++ rest) := by
      simp [logOf]
    rw [hsplit] at hsize ⊢
    rw [List.length_cons, ← Nat.add_assoc, replayLoop_ok exec (parse_encode c _ hfit hsize),
      List.drop_left, if_pos hne]
    rw [List.length_append] at hsize
    exact ih (fun c hc => hcs c (List.mem_cons_of_mem _ hc)) _ (by omega)

end Loop

theorem length_le_logOf (cs : List (List Bytes)) : cs.length ≤ (logOf cs).length := by
  induction cs with
  | nil => exact Nat.zero_le _
  | cons c cs ih =>
    have : 1 ≤ (encodeMultibulk c).length := by
      rw [encode_eq]
      simp
    simp only [logOf, List.flatMap_cons, List.length_append, List.length_cons] at ih ⊢
    omega

/-- The collecting replay. -/
def collect (cs : List (List Bytes)) (c : List Bytes) : List (List Bytes) := cs ++ [c]

theorem foldl_collect (cs s : List (List Bytes)) : cs.foldl collect s = s ++ cs := by
  induction cs generalizing s with
  | nil => simp
  | cons c cs ih => simp [ih, collect]

theorem replayLoop_eq_foldl {σ : Type} (exec : σ → List Bytes → σ) (fuel : ℕ) (data : Bytes)
    (s : σ) (cs : List (List Bytes)) : replayLoop exec fuel data (cs.foldl exec s) =
      (replayLoop collect fuel data cs).foldl exec s := by
  induction fuel generalizing data cs with
  | zero => rfl
  | succ fuel ih =>
    rw [replayLoop, replayLoop]
    split_ifs
    · rfl
    · cases parse data with
      | ok argv n =>
        dsimp only
        by_cases ha : argv ≠ []
        · rw [if_pos ha, if_pos ha, ← ih, collect, List.foldl_append]
          rfl
        · rw [if_neg ha, if_neg ha, ih]
      | needMore => rfl
      | protocolError e => rfl

/-- A replay executes the commands that are replayed. -/
theorem replay_eq_foldl {σ : Type} (exec : σ → List Bytes → σ) (data : Bytes) (s : σ) :
    replay exec data s = (replayed data).foldl exec s :=
  replayLoop_eq_foldl exec _ data s []

theorem prefix_collect (fuel : ℕ) (data : Bytes) (s : List (List Bytes)) :
    s <+: replayLoop collect fuel data s := by
  induction fuel generalizing data s with
  | zero => exact List.prefix_rfl
  | succ fuel ih =>
    rw [replayLoop]
    split_ifs
    · exact List.prefix_rfl
    · split
      · next argv n _ =>
        refine List.IsPrefix.trans ?_ (ih _ _)
        split_ifs
        · exact List.prefix_append _ _
        · exact List.prefix_rfl
      · exact List.prefix_rfl

/-- Behind records that fit, the replay goes on with enough rounds. -/
theorem replayed_log (cs : List (List Bytes)) (hcs : ∀ c ∈ cs, c ≠ [] ∧ Fits c) (rest : Bytes)
    (hsize : (logOf cs ++ rest).length < 2 ^ 62) :
    ∃ fuel, rest.length < fuel ∧ replayed (logOf cs ++ rest) = replayLoop collect fuel rest cs := by
  have hle := length_le_logOf cs
  refine ⟨(logOf cs ++ rest).length + 1 - cs.length, ?_, ?_⟩
  · rw [List.length_append]
    omega
  · have := replayLoop_log collect hcs rest ((logOf cs ++ rest).length + 1 - cs.length) [] hsize
    rw [foldl_collect, List.nil_append, Nat.sub_add_cancel (by rw [List.length_append]; omega)] at this
    exact this

/-- A replay stops at the first record that is too long. -/
theorem replayed_long {cs : List (List Bytes)} {rest : Bytes} (hcs : ∀ c ∈ cs, c ≠ [])
    (hsize : (logOf cs ++ rest).length < 2 ^ 62) (hlong : ¬∀ c ∈ cs, Fits c) :
    ∃ as c bs, cs = as ++ c :: bs ∧ replayed (logOf cs ++ rest) = as := by
  have hex : cs.find? (fun c => decide (kMaxCount < (c.length : ℤ))) ≠ none := by
    rw [Ne, List.find?_eq_none]
    intro hall
    exact hlong fun c hc => not_lt.1 (by simpa using hall c hc)
  obtain ⟨c, hc⟩ := Option.ne_none_iff_exists'.1 hex
  obtain ⟨hover, as, bs, rfl, has⟩ := List.find?_eq_some_iff_append.1 hc
  have hsplit : logOf (as ++ c :: bs) ++ rest =
      logOf as ++ (encodeMultibulk c ++ (logOf bs ++ rest)) := by simp [logOf]
  rw [hsplit] at hsize ⊢
  obtain ⟨fuel, -, hrep⟩ := replayed_log as
    (fun a ha => ⟨hcs a (by simp [ha]), not_lt.1 (by simpa using has a ha)⟩) _ hsize
  refine ⟨as, c, bs, rfl, ?_⟩
  rw [hrep, replayLoop_stop]
  intro argv n
  rw [parse_encode_long c _ (by simpa using hover)]
  simp

/-- A replay that gives the records back has read every one of them. -/
theorem fits_of_replayed {cs : List (List Bytes)} (more : List (List Bytes)) {rest : Bytes} (hcs : ∀ c ∈ cs, c ≠ [])
    (hsize : (logOf cs ++ rest).length < 2 ^ 62) (h : replayed (logOf cs ++ rest) = cs ++ more) :
    ∀ c ∈ cs, Fits c := by
  by_contra hlong
  obtain ⟨as, c, bs, rfl, hrep⟩ := replayed_long hcs hsize hlong
  rw [h] at hrep
  simpa using congrArg List.length hrep

theorem replayed_logOf {cs : List (List Bytes)} (hcs : ∀ c ∈ cs, c ≠ [] ∧ Fits c) (hsize : (logOf cs).length < 2 ^ 62) :
    replayed (logOf cs) = cs := by
  rw [← List.append_nil (logOf cs)] at hsize ⊢
  obtain ⟨fuel, -, hrep⟩ := replayed_log cs hcs [] hsize
  rw [hrep, replayLoop_nil]

/-- A replay of whole records executes some of them. -/
theorem mem_of_replayed {cs : List (List Bytes)} (hcs : ∀ c ∈ cs, c ≠ []) (hsize : (logOf cs).length < 2 ^ 62) :
    ∀ c ∈ replayed (logOf cs), c ∈ cs := by
  by_cases hfit : ∀ c ∈ cs, Fits c
  · rw [replayed_logOf (fun c hc => ⟨hcs c hc, hfit c hc⟩) hsize]
    exact fun c hc => hc
  · rw [← List.append_nil (logOf cs)] at hsize ⊢
    obtain ⟨as, c, bs, rfl, hrep⟩ := replayed_long hcs hsize hfit
    rw [hrep]
    exact fun a ha => List.mem_append_left _ ha

/-! The bytes behind a cut. -/

theorem logOf_cons_eq (d : List Bytes) (ds : List (List Bytes)) : logOf (d :: ds) =
    42 :: (decimal d.length ++ (crlf ++ (d.flatMap Reply.bulk ++ logOf ds))) := by
  simp [logOf, encode_eq]

theorem ne_dollar_of_digit {c : UInt8} (h : isDigit c = true) : c ≠ 36 := ne_of_isDigit h (by decide)

theorem afterCut_logOf (ds : List (List Bytes)) : AfterCut (logOf ds) := by
  cases ds with
  | nil => exact .inl rfl
  | cons d ds =>
    rw [logOf_cons_eq]
    have hdig := fun c => isDigit_of_mem_decimal (n := d.length) (c := c)
    cases hn : decimal d.length with
    | nil => exact absurd hn (decimal_ne_nil _)
    | cons b w =>
      rw [hn] at hdig
      refine .inr ?_
      cases w with
      | nil => exact ⟨b, 13, _, rfl, ne_dollar_of_digit (hdig b (by simp)), by decide⟩
      | cons c w =>
        exact ⟨b, c, _, rfl, ne_dollar_of_digit (hdig b (by simp)), ne_dollar_of_digit (hdig c (by simp))⟩

/-- An inline request of one word. -/
theorem parse_word {w : Bytes} {c : UInt8} (hc : c ∈ w.head?) (hstar : c ≠ 42) (h13 : 13 ∉ w)
    (hblank : ∀ c ∈ w, isBlank c = false) (s : Bytes) :
    parse (w ++ (crlf ++ s)) = .ok [w] (w.length + 2) := by
  obtain ⟨w', rfl⟩ : ∃ w', w = c :: w' := by
    cases w with
    | nil => exact absurd hc (by simp)
    | cons d w' => exact ⟨w', by rw [Option.some.inj hc]⟩
  have hcr : findCrlf (c :: w' ++ (crlf ++ s)) 0 = some (c :: w').length := by
    simpa using findCrlf_line [] h13 s
  have hsplit : (c :: w').splitOnP isBlank = [c :: w'] :=
    List.splitOnP_eq_singleton (by simpa using hblank)
  rw [parse, if_neg (by simp), if_neg (by simpa using hstar), parseInline, hcr]
  dsimp only
  rw [List.take_left, hsplit]
  simp

theorem parse_empty_line (s : Bytes) : parse (crlf ++ s) = .ok [] 2 := by
  have hcr : findCrlf (crlf ++ s) 0 = some 0 := by
    rw [findCrlf, List.drop_zero, findCrlfAux_crlf]
  rw [parse, if_neg (by simp [crlf]), if_neg (by simp [crlf]), parseInline, hcr]
  simp

theorem isBlank_of_digit {c : UInt8} (h : isDigit c = true) : isBlank c = false := by
  have h1 := ne_of_isDigit h (show isDigit 32 = false by decide)
  have h2 := ne_of_isDigit h (show isDigit 9 = false by decide)
  simp [isBlank, h1, h2]

/-- A record that has lost its first one or two bytes gives a command of one word,
which starts with a digit or with a dollar sign. -/
theorem collect_beheaded {d : List Bytes} (hd : d ≠ []) (ds s : List (List Bytes)) {k fuel : ℕ}
    (hk : k = 1 ∨ k = 2) (hfuel : 2 ≤ fuel) :
    ∃ w, (∃ c ∈ w.head?, isDigit c = true ∨ c = 36) ∧
      s ++ [[w]] <+: replayLoop collect fuel ((logOf (d :: ds)).drop k) s := by
  obtain ⟨fuel, rfl⟩ : ∃ f, fuel = f + 1 + 1 := ⟨fuel - 2, by omega⟩
  have hdig := fun c => isDigit_of_mem_decimal (n := d.length) (c := c)
  have h13 := not_mem_decimal_cr d.length
  have hword : ∀ (w : Bytes) (c : UInt8) (t : Bytes) (fuel : ℕ), c ∈ w.head? →
      isDigit c = true ∨ c = 36 → 13 ∉ w → (∀ c ∈ w, isBlank c = false) →
      s ++ [[w]] <+: replayLoop collect (fuel + 1) (w ++ (crlf ++ t)) s := by
    intro w c t fuel hc hd h13 hblank
    have hstar : c ≠ 42 := by
      rintro rfl
      exact absurd hd (by decide)
    rw [replayLoop_ok collect (parse_word hc hstar h13 hblank t)]
    exact prefix_collect _ _ _
  rw [logOf_cons_eq]
  cases hn : decimal d.length with
  | nil => exact absurd hn (decimal_ne_nil _)
  | cons b w =>
    rw [hn] at hdig h13
    have hblank : ∀ c ∈ b :: w, isBlank c = false := fun c hc => isBlank_of_digit (hdig c hc)
    rcases hk with rfl | rfl
    · have hb := hdig b List.mem_cons_self
      exact ⟨b :: w, ⟨b, rfl, .inl hb⟩, hword (b :: w) b _ _ rfl (.inl hb) h13 hblank⟩
    · cases w with
      | cons c w =>
        have hc := hdig c (by simp)
        exact ⟨c :: w, ⟨c, rfl, .inl hc⟩, hword (c :: w) c _ _ rfl (.inl hc)
          (fun h => h13 (List.mem_cons_of_mem _ h)) fun x hx => hblank x (List.mem_cons_of_mem _ hx)⟩
      | nil =>
        -- an empty line, and then the first line of the first argument
        obtain ⟨x, xs, rfl⟩ := List.exists_cons_of_ne_nil hd
        refine ⟨36 :: decimal x.length, ⟨36, rfl, .inr rfl⟩, ?_⟩
        change _ <+: replayLoop collect (fuel + 1 + 1) (crlf ++ ((x :: xs).flatMap Reply.bulk ++ logOf ds)) s
        rw [replayLoop_ok collect (parse_empty_line _), if_neg (by simp)]
        have hdata : (crlf ++ ((x :: xs).flatMap Reply.bulk ++ logOf ds)).drop 2 =
            (36 :: decimal x.length) ++ (crlf ++ (x ++ (crlf ++ (xs.flatMap Reply.bulk ++ logOf ds)))) := by
          simp [crlf, Reply.bulk]
        rw [hdata]
        refine hword _ 36 _ _ rfl (.inr rfl) ?_ ?_
        · simpa using not_mem_decimal_cr x.length
        · intro c hc
          rcases List.mem_cons.1 hc with rfl | hc
          · decide
          · exact isBlank_of_digit (isDigit_of_mem_decimal hc)

/-- The two restarts around a crash: the first one replays `cs` from a file that ends
in the cut record `p`, the second one `cs` and what was logged in between. -/
def RestartsExact (policy : FsyncPolicy) (cs : List (List Bytes)) (p : Bytes)
    (ds : List (List Bytes)) : Prop :=
  replayed (logOf cs ++ p) = cs ∧ replayed (logged policy (logOf cs ++ p) ds) = cs ++ ds

instance (policy : FsyncPolicy) (cs : List (List Bytes)) (p : Bytes) (ds : List (List Bytes)) :
    Decidable (RestartsExact policy cs p ds) := inferInstanceAs (Decidable (_ ∧ _))

section Restart

variable {cs ds : List (List Bytes)} {r : List Bytes} {p : Bytes}

/-- A cut record at the end of the file is skipped. -/
theorem replayed_cut (hcs : ∀ c ∈ cs, c ≠ [] ∧ Fits c) (hp : p <+: encodeMultibulk r)
    (hne : p ≠ encodeMultibulk r) (hsize : (logOf cs ++ p).length < 2 ^ 62) :
    replayed (logOf cs ++ p) = cs := by
  obtain ⟨fuel, -, hrep⟩ := replayed_log _ hcs p hsize
  rw [hrep]
  by_cases hp0 : p = []
  · rw [hp0, replayLoop_nil]
  · apply replayLoop_stop
    intro argv n h
    have hcut := parse_cut r hp hne hp0 (.inl rfl) (by
      rw [List.length_append] at hsize
      rw [List.append_nil]
      omega)
    rw [List.append_nil] at hcut
    exact (hcut argv n h).1 rfl

/-- Behind a cut record the log is not read back, unless the next command has the
star of a record in an argument. -/
theorem star_of_replayed (hcs : ∀ c ∈ cs, c ≠ [] ∧ Fits c) (hds : ∀ d ∈ ds, Loggable d)
    (hr : r ≠ []) (hp : p <+: encodeMultibulk r) (hne : p ≠ encodeMultibulk r) (hp0 : p ≠ [])
    (hds0 : ds ≠ []) (hsize : (logOf cs ++ (p ++ logOf ds)).length < 2 ^ 62)
    (h : replayed (logOf cs ++ (p ++ logOf ds)) = cs ++ ds) : ∃ a ∈ ds.headD [], 42 ∈ a := by
  obtain ⟨d, ds, rfl⟩ := List.exists_cons_of_ne_nil hds0
  obtain ⟨fuel, hfuel, hrep⟩ := replayed_log _ hcs _ hsize
  rw [hrep] at h
  have hsize' : (p ++ logOf (d :: ds)).length < 2 ^ 62 := by
    rw [List.length_append] at hsize
    omega
  have hcut := parse_cut r hp hne hp0 (afterCut_logOf _) hsize'
  cases hparse : parse (p ++ logOf (d :: ds)) with
  | needMore =>
    rw [replayLoop_stop collect (by simp [hparse])] at h
    simp at h
  | protocolError e =>
    rw [replayLoop_stop collect (by simp [hparse])] at h
    simp at h
  | ok argv n =>
    have hlen : (p ++ logOf (d :: ds)).length = p.length + (logOf (d :: ds)).length :=
      List.length_append
    have hpos : 0 < p.length := List.length_pos_iff.2 hp0
    have hlog := length_le_logOf (d :: ds)
    obtain ⟨fuel, rfl⟩ : ∃ f, fuel = f + 1 := ⟨fuel - 1, by omega⟩
    rw [replayLoop_ok collect hparse] at h
    obtain ⟨-, ⟨a, ha, hstar⟩ | ⟨rfl, hn⟩⟩ := hcut argv n hparse
    · rw [if_pos (List.ne_nil_of_mem ha)] at h
      have hpre := prefix_collect fuel ((p ++ logOf (d :: ds)).drop n) (collect cs argv)
      rw [h, collect, List.prefix_append_right_inj] at hpre
      obtain rfl : argv = d := by simpa using hpre
      exact ⟨a, ha, hstar⟩
    · -- the record was complete but for its line end, which the next one has lost
      obtain ⟨k, hk, rfl⟩ : ∃ k, (k = 1 ∨ k = 2) ∧ n = p.length + k := by
        rcases hn with rfl | rfl
        · exact ⟨1, .inl rfl, rfl⟩
        · exact ⟨2, .inr rfl, rfl⟩
      rw [if_pos hr, List.drop_append, List.drop_of_length_le (by omega), List.nil_append,
        Nat.add_sub_cancel_left] at h
      rw [List.length_cons] at hlog
      obtain ⟨w, ⟨c, hc, hbad⟩, hpre⟩ := collect_beheaded (hds d List.mem_cons_self).ne_nil ds
        (collect cs argv) hk (by omega : 2 ≤ fuel)
      rw [h, collect, List.append_assoc, List.prefix_append_right_inj] at hpre
      have hw : [w] ∈ d :: ds := hpre.subset (by simp)
      have hname := (hds [w] hw).name hc
      rcases hbad with hbad | hbad
      · simp [hbad] at hname
      · exact absurd hbad hname.2

/-- Both restarts are exact when no cut record is followed by others and every
record fits. Conversely an exact pair of restarts meets that, but for the case
that the first command after the crash has a star in an argument. -/
theorem restarts_exact (policy : FsyncPolicy) (hcs : ∀ c ∈ cs, Loggable c)
    (hds : ∀ d ∈ ds, Loggable d) (hr : Loggable r) (hp : p <+: encodeMultibulk r)
    (hne : p ≠ encodeMultibulk r) (hsize : (logged policy (logOf cs ++ p) ds).length < 2 ^ 62) :
    ((∀ c ∈ cs ++ ds, Fits c) ∧ (p = [] ∨ ds = []) → RestartsExact policy cs p ds) ∧
    (RestartsExact policy cs p ds → ((∀ c ∈ cs ++ ds, Fits c) ∧ (p = [] ∨ ds = [])) ∨
      (p ≠ [] ∧ ∃ a ∈ ds.headD [], 42 ∈ a)) := by
  rw [logged_eq, List.append_assoc] at hsize
  have hsize1 : (logOf cs ++ p).length < 2 ^ 62 := by
    simp only [List.length_append] at hsize ⊢
    omega
  have hcs0 : ∀ c ∈ cs, c ≠ [] := fun c hc => (hcs c hc).ne_nil
  have hds0 : ∀ d ∈ ds, d ≠ [] := fun d hd => (hds d hd).ne_nil
  have hlog : logOf cs ++ logOf ds = logOf (cs ++ ds) := by simp [logOf]
  have hall : ∀ c ∈ cs ++ ds, c ≠ [] := fun c hc => (List.mem_append.1 hc).elim (hcs0 c) (hds0 c)
  unfold RestartsExact
  rw [logged_eq, List.append_assoc]
  constructor
  · rintro ⟨hfit, hor⟩
    have hfirst := replayed_cut (fun c hc => ⟨hcs0 c hc, hfit c (List.mem_append_left _ hc)⟩) hp hne hsize1
    refine ⟨hfirst, ?_⟩
    rcases hor with rfl | rfl
    · rw [List.nil_append, hlog] at hsize ⊢
      rw [← List.append_nil (logOf _)] at hsize ⊢
      exact replayed_cut (r := r) (fun c hc => ⟨hall c hc, hfit c hc⟩) List.nil_prefix hne hsize
    · simpa [logOf] using hfirst
  · rintro ⟨hfirst, hsecond⟩
    have hfit := fits_of_replayed [] hcs0 hsize1 (by simpa using hfirst)
    by_cases hp0 : p = []
    · subst hp0
      rw [List.nil_append, hlog] at hsize hsecond
      rw [← List.append_nil (logOf _)] at hsize hsecond
      exact .inl ⟨fits_of_replayed [] hall hsize (by simpa using hsecond), .inl rfl⟩
    by_cases hds' : ds = []
    · subst hds'
      exact .inl ⟨by simpa using hfit, .inr rfl⟩
    · exact .inr ⟨hp0, star_of_replayed (fun c hc => ⟨hcs0 c hc, hfit c hc⟩) hds hr.ne_nil hp hne hp0
        hds' hsize hsecond⟩

end Restart

/-- One command before the crash, nothing left of the next one, and one after it. -/
theorem restarts_exact_clean : RestartsExact .everySec [[ascii "SET", [97], [49]]] []
    [[ascii "DEL", [97]]] :=
  (restarts_exact (r := [ascii "DEL", [97]]) .everySec (by simpa using ⟨_, rfl, rfl⟩)
    (by simpa using ⟨_, rfl, rfl⟩) ⟨_, rfl, rfl⟩ List.nil_prefix (by decide) (by decide)).1
    ⟨by decide, .inl rfl⟩

/-- A crash in the middle of `SET a 1` hides the `DEL a` that is logged next. -/
theorem torn_tail_hides_log : ¬ ∀ (policy : FsyncPolicy) (cs ds : List (List Bytes)) (r : List Bytes)
    (p : Bytes), (∀ c ∈ cs, Loggable c) → (∀ d ∈ ds, Loggable d) → Loggable r →
    p <+: encodeMultibulk r → p ≠ encodeMultibulk r →
    (logged policy (logOf cs ++ p) ds).length < 2 ^ 62 → RestartsExact policy cs p ds := by
  intro h
  have := h .always [] [[ascii "DEL", [97]]] [ascii "SET", [97], [49]] (ascii "*3") (by simp)
    (by simpa using ⟨_, rfl, rfl⟩) ⟨_, rfl, rfl⟩ (by decide) (by decide) (by decide)
  revert this
  decide

end BlazeKV
