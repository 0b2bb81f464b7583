import BlazeKV.Proofs.InFlight
import BlazeKV.Proofs.RespParse
import BlazeKV.Spec.Feed

/-! A stream of requests that arrives in pieces. What the parser makes of a beginning of
the stream it also makes of the whole, for multibulk requests always. -/

namespace BlazeKV

namespace RequestParser

variable {u v : Bytes}

theorem findCrlfAux_append {s : Bytes} {pos n : ℕ} (h : findCrlfAux s pos = some n) (v : Bytes) :
    findCrlfAux (s ++ v) pos = some n := by
  induction s generalizing pos with
  | nil => exact absurd h (by simp [findCrlfAux])
  | cons a s ih =>
    cases s with
    | nil => exact absurd h (by simp [findCrlfAux])
    | cons b s =>
      rw [findCrlfAux] at h
      simp only [List.cons_append, findCrlfAux]
      split_ifs at h with hc
      · rw [if_pos hc]
        exact h
      · rw [if_neg hc]
        exact ih h

theorem findCrlfAux_bound {s : Bytes} {pos n : ℕ} (h : findCrlfAux s pos = some n) :
    n + 2 ≤ pos + s.length ∧ s[n - pos]? = some 13 ∧ s[n - pos + 1]? = some 10 := by
  induction s generalizing pos with
  | nil => exact absurd h (by simp [findCrlfAux])
  | cons a s ih =>
    cases s with
    | nil => exact absurd h (by simp [findCrlfAux])
    | cons b s =>
      rw [findCrlfAux] at h
      split_ifs at h with hc
      · obtain rfl := Option.some.inj h
        simp [hc.1, hc.2]
      · obtain ⟨hb, h1, h2⟩ := ih h
        have hle := le_of_findCrlfAux h
        have hsub : n - pos = (n - (pos + 1)) + 1 := by omega
        refine ⟨by simp only [List.length_cons] at hb ⊢; omega, ?_, ?_⟩
        · rw [hsub, List.getElem?_cons_succ]
          exact h1
        · rw [hsub, List.getElem?_cons_succ]
          exact h2

theorem findCrlf_stable {pos n : ℕ} (h : findCrlf u pos = some n) (v : Bytes) : findCrlf (u ++ v) pos = some n := by
  have hpos : pos ≤ u.length := by
    by_contra hlt
    rw [findCrlf, List.drop_eq_nil_of_le (by omega)] at h
    exact absurd h (by simp [findCrlfAux])
  rw [findCrlf, List.drop_append_of_le_length hpos]
  exact findCrlfAux_append h v

theorem findCrlf_bound {pos n : ℕ} (h : findCrlf u pos = some n) : pos ≤ n ∧ n + 2 ≤ u.length := by
  have hle := le_of_findCrlfAux h
  have hb := (findCrlfAux_bound h).1
  rw [List.length_drop] at hb
  omega

theorem view_stable {start n : ℕ} (h : start + n ≤ u.length) (v : Bytes) : view (u ++ v) start n = view u start n := by
  rw [view, view, List.drop_append_of_le_length (by omega), List.take_append_of_le_length]
  rw [List.length_drop]
  omega

theorem parseInt_lt {s : Bytes} {z : ℤ} (h : parseInt s = some z) : z < 2 ^ 63 := by
  unfold parseInt at h
  cases s with
  | nil => cases h
  | cons c s =>
    dsimp only at h
    split_ifs at h with hc hv hv <;>
    · obtain rfl := Option.some.inj h
      have hfits := hv.2.2
      simp only [fitsInt64, decide_eq_true_eq] at hfits
      exact hfits.2

/-- What is not `needMore` stays as it is when bytes are added. -/
def Stable (p q : Parse) : Prop := p ≠ .needMore → q = p

theorem parseBulks_stable {count pos : ℕ} {argv : List Bytes} (hu : u.length < 2 ^ 62) :
    Stable (parseBulks u count pos argv) (parseBulks (u ++ v) count pos argv) := by
  induction count generalizing pos argv with
  | zero => exact fun _ => rfl
  | succ count ih =>
    rw [parseBulks, parseBulks]
    by_cases hpos : pos ≥ u.length
    · rw [if_pos hpos]
      exact fun h => absurd rfl h
    have hpos' : ¬pos ≥ (u ++ v).length := by
      rw [List.length_append]
      omega
    have hget : (u ++ v).getD pos 0 = u.getD pos 0 := by
      simp only [List.getD_eq_getElem?_getD]
      rw [List.getElem?_append_left (by omega)]
    rw [if_neg hpos, if_neg hpos', hget]
    split_ifs with hd
    · exact fun _ => rfl
    cases hf : findCrlf u (pos + 1) with
    | none => exact fun h => absurd rfl h
    | some at' =>
      obtain ⟨hle, hlen⟩ := findCrlf_bound hf
      rw [findCrlf_stable hf v]
      dsimp only
      rw [view_stable (by omega)]
      cases hb : parseInt (view u (pos + 1) (at' - pos - 1)) with
      | none => exact fun _ => rfl
      | some blen =>
        have hblen := parseInt_lt hb
        dsimp only
        split_ifs with hneg h1 h2 h2
        · exact fun _ => rfl
        · exact fun h => absurd rfl h
        · exact fun h => absurd rfl h
        · rw [List.length_append] at h2
          omega
        · have hwrap : u64 (at' + 2) = at' + 2 ∧ u64 (at' + 2 + blen.toNat) = at' + 2 + blen.toNat ∧
              u64 (at' + 2 + blen.toNat + 2) = at' + 2 + blen.toNat + 2 :=
            ⟨u64_of_lt (by omega), u64_of_lt (by omega), u64_of_lt (by omega)⟩
          rw [hwrap.1, hwrap.2.1, hwrap.2.2] at h1
          rw [hwrap.1, hwrap.2.1, hwrap.2.2, view_stable (by omega)]
          exact ih

theorem parseMultibulk_stable (hu : u.length < 2 ^ 62) : Stable (parseMultibulk u) (parseMultibulk (u ++ v)) := by
  unfold parseMultibulk
  cases hf : findCrlf u 0 with
  | none => exact fun h => absurd rfl h
  | some at' =>
    have hb := findCrlf_bound hf
    rw [findCrlf_stable hf v]
    dsimp only
    rw [view_stable (by omega)]
    cases parseInt (view u 1 (at' - 1)) with
    | none => exact fun _ => rfl
    | some count =>
      dsimp only
      split_ifs
      · exact fun _ => rfl
      · exact parseBulks_stable hu

/-- A request is consumed from the buffer, at least one byte of it. -/
theorem parseBulks_consumed {count pos : ℕ} {argv argv' : List Bytes} {n : ℕ} (hu : u.length < 2 ^ 62)
    (hpos : pos ≤ u.length) (h : parseBulks u count pos argv = .ok argv' n) : pos ≤ n ∧ n ≤ u.length := by
  induction count generalizing pos argv with
  | zero =>
    obtain ⟨-, rfl⟩ := Parse.ok.inj h
    exact ⟨le_refl _, hpos⟩
  | succ count ih =>
    rw [parseBulks] at h
    split_ifs at h with h1 h2
    split at h
    · cases h
    · next at' hf =>
      obtain ⟨hle, hlen⟩ := findCrlf_bound hf
      split at h
      · cases h
      · next blen hb =>
        have hblen := parseInt_lt hb
        dsimp only at h
        split_ifs at h with hneg hend
        rw [u64_of_lt (n := at' + 2) (by omega), u64_of_lt (n := at' + 2 + blen.toNat) (by omega),
          u64_of_lt (n := at' + 2 + blen.toNat + 2) (by omega)] at h hend
        have := ih (by omega) h
        omega

theorem parse_consumed {argv : List Bytes} {n : ℕ} (hu : u.length < 2 ^ 62) (h : parse u = .ok argv n) :
    0 < n ∧ n ≤ u.length := by
  unfold parse at h
  split_ifs at h with h0 hstar
  · unfold parseMultibulk at h
    split at h
    · cases h
    · next at' hf =>
      have hb := findCrlf_bound hf
      split at h
      · cases h
      · split_ifs at h
        have := parseBulks_consumed hu (by omega) h
        omega
  · unfold parseInline at h
    split at h
    · next at' hf =>
      have hb := findCrlf_bound hf
      obtain ⟨-, rfl⟩ := Parse.ok.inj h
      omega
    · split at h
      · next nl hnl =>
        obtain ⟨-, rfl⟩ := Parse.ok.inj h
        have := (List.idxOf?_eq_some_iff.1 hnl).1
        omega
      · split_ifs at h

theorem findCrlfAux_begin {s : Bytes} {pos n : ℕ} (h : findCrlfAux (s ++ v) pos = some n)
    (hn : n + 2 ≤ pos + s.length) : findCrlfAux s pos = some n := by
  induction s generalizing pos with
  | nil =>
    have := le_of_findCrlfAux h
    simp only [List.length_nil] at hn
    omega
  | cons a s ih =>
    cases s with
    | nil =>
      have := le_of_findCrlfAux h
      simp only [List.length_cons, List.length_nil] at hn
      omega
    | cons b s =>
      simp only [List.cons_append, findCrlfAux] at h ⊢
      split_ifs at h with hc
      · rw [if_pos hc, h]
      · rw [if_neg hc]
        exact ih h (by simp only [List.length_cons] at hn ⊢; omega)

/-- The first line of an inline request: its line feed is within 64 KiB, and ends the first
CRLF of all that follows, if there is one. -/
def PlainLine (d : Bytes) : Prop :=
  d.head? = some 42 ∨ ∀ nl, d.idxOf? 10 = some nl →
    nl ≤ 64 * 1024 ∧ ∀ at', findCrlf d 0 = some at' → nl = at' + 1

theorem mem_of_findCrlf {d : Bytes} {n : ℕ} (h : findCrlf d 0 = some n) : (10 : UInt8) ∈ d := by
  have := (findCrlfAux_bound h).2.2
  rw [List.drop_zero] at this
  exact List.mem_of_getElem? this

theorem parseInline_stable (hline : ∀ nl, (u ++ v).idxOf? 10 = some nl →
    nl ≤ 64 * 1024 ∧ ∀ at', findCrlf (u ++ v) 0 = some at' → nl = at' + 1) :
    Stable (parseInline u) (parseInline (u ++ v)) := by
  unfold parseInline
  cases hf : findCrlf u 0 with
  | some at' =>
    have hb := findCrlf_bound hf
    rw [findCrlf_stable hf v]
    dsimp only
    rw [List.take_append_of_le_length (by omega)]
    exact fun _ => rfl
  | none =>
    cases hnl : u.idxOf? 10 with
    | some nl =>
      obtain ⟨hlt, hat, hfirst⟩ := List.idxOf?_eq_some_iff.1 hnl
      have hwhole : (u ++ v).idxOf? 10 = some nl := by
        refine List.idxOf?_eq_some_iff.2 ⟨by rw [List.length_append]; omega, ?_, fun j hj => ?_⟩
        · rw [List.getElem_append_left hlt]
          exact hat
        · rw [List.getElem_append_left (hj.trans hlt)]
          exact hfirst j hj
      have hcr : findCrlf (u ++ v) 0 = none := by
        cases hc : findCrlf (u ++ v) 0 with
        | none => rfl
        | some at' =>
          have := (hline nl hwhole).2 at' hc
          rw [findCrlf, List.drop_zero] at hc hf
          rw [findCrlfAux_begin hc (by omega)] at hf
          cases hf
      rw [hcr, hwhole]
      dsimp only
      rw [List.take_append_of_le_length (by omega)]
      exact fun _ => rfl
    | none =>
      dsimp only
      by_cases hlong : u.length > 64 * 1024
      · have hno : (10 : UInt8) ∉ u := List.idxOf?_eq_none_iff.1 hnl
        have hwhole : (u ++ v).idxOf? 10 = none := by
          cases hw : (u ++ v).idxOf? 10 with
          | none => rfl
          | some nl =>
            obtain ⟨hlt, hat, -⟩ := List.idxOf?_eq_some_iff.1 hw
            have hle := (hline nl hw).1
            rw [List.getElem_append_left (by omega)] at hat
            exact absurd (hat ▸ List.getElem_mem _) hno
        have hcr : findCrlf (u ++ v) 0 = none := by
          cases hc : findCrlf (u ++ v) 0 with
          | none => rfl
          | some at' => exact absurd (mem_of_findCrlf hc) (List.idxOf?_eq_none_iff.1 hwhole)
        rw [hcr, hwhole]
        dsimp only
        rw [if_pos hlong, if_pos (by rw [List.length_append]; omega)]
        exact fun _ => rfl
      · rw [if_neg hlong]
        exact fun h => absurd rfl h

/-- What the parser makes of a beginning of a stream it makes of the whole. -/
theorem parse_stable (hu : u.length < 2 ^ 62) (hline : PlainLine (u ++ v)) : Stable (parse u) (parse (u ++ v)) := by
  cases u with
  | nil => exact fun h => absurd rfl h
  | cons c u =>
    unfold parse
    have h1 : ¬(c :: u).length = 0 := by simp
    have h2 : ¬(c :: u ++ v).length = 0 := by simp
    have hhead : (c :: u ++ v).getD 0 0 = (c :: u).getD 0 0 := rfl
    rw [if_neg h1, if_neg h2, hhead]
    split_ifs with hstar
    · exact parseMultibulk_stable hu
    · refine parseInline_stable (hline.resolve_left fun h => hstar ?_)
      exact Option.some.inj h

theorem findCrlf_take {d : Bytes} {at' n : ℕ} (h : findCrlf d 0 = some at') (hn : n ≤ at' + 1) :
    findCrlf (d.take n) 0 = none := by
  cases hf : findCrlf (d.take n) 0 with
  | none => rfl
  | some k =>
    have hb := (findCrlf_bound hf).2
    have hk := findCrlf_stable hf (d.drop n)
    rw [List.take_append_drop, h] at hk
    have hle := List.length_take_le n d
    have := Option.some.inj hk
    omega

/-- Only a stream without a plain line is parsed in one way from a beginning and in another
way from the whole. -/
theorem plainLine_iff {d : Bytes} (hd : d.length < 2 ^ 62) :
    PlainLine d ↔ ∀ n, Stable (parse (d.take n)) (parse d) := by
  constructor
  · intro h n
    have := parse_stable (u := d.take n) (v := d.drop n) ((List.length_take_le' _ _).trans_lt hd)
      (by rwa [List.take_append_drop])
    rwa [List.take_append_drop] at this
  · intro h
    by_contra hplain
    rw [PlainLine, not_or] at hplain
    obtain ⟨hstar, hline⟩ := hplain
    push Not at hline
    obtain ⟨nl, hnl, hbad⟩ := hline
    obtain ⟨hlt, hat, hfirst⟩ := List.idxOf?_eq_some_iff.1 hnl
    have hinline : ∀ n, 0 < n → parse (d.take n) = parseInline (d.take n) := by
      intro n hn
      obtain ⟨c, t, rfl⟩ : ∃ c t, d = c :: t := List.exists_cons_of_length_pos (by omega)
      obtain ⟨n, rfl⟩ := Nat.exists_eq_succ_of_ne_zero (by omega : n ≠ 0)
      have hc : c ≠ 42 := fun h => hstar (by rw [h]; rfl)
      simp [parse, hc]
    have hwhole : parse d = parseInline d := by
      have := hinline d.length (by omega)
      rwa [List.take_length] at this
    by_cases hlong : 64 * 1024 < nl
    · -- The line is refused before its end arrives.
      have hlen : (d.take nl).length = nl := List.length_take_of_le (by omega)
      have hno : (d.take nl).idxOf? 10 = none := by
        refine List.idxOf?_eq_none_iff.2 fun hm => ?_
        obtain ⟨j, hj, he⟩ := List.mem_iff_getElem.1 hm
        rw [List.getElem_take] at he
        exact hfirst j (by omega) he
      have hcr : findCrlf (d.take nl) 0 = none := by
        cases hf : findCrlf (d.take nl) 0 with
        | none => rfl
        | some k => exact absurd (mem_of_findCrlf hf) (List.idxOf?_eq_none_iff.1 hno)
      have hu : parse (d.take nl) = .protocolError (ascii "inline request too long") := by
        rw [hinline nl (by omega), parseInline, hcr, hno]
        dsimp only
        rw [if_pos (by rw [hlen]; exact hlong)]
      have := h nl (by rw [hu]; simp)
      rw [hu, hwhole, parseInline] at this
      split at this
      · cases this
      · rw [hnl] at this
        cases this
    · obtain ⟨at', hcr, hne⟩ := hbad (not_lt.1 hlong)
      have hb := findCrlf_bound hcr
      have h13 : d[at']? = some 13 ∧ d[at' + 1]? = some 10 := by
        have := findCrlfAux_bound hcr
        simpa using this.2
      have hlt' : nl < at' := by
        by_contra hge
        rcases Nat.lt_or_ge (at' + 1) nl with hgt | hle
        · refine hfirst (at' + 1) hgt ?_
          have := h13.2
          rw [List.getElem?_eq_getElem (by omega)] at this
          exact Option.some.inj this
        · obtain rfl : nl = at' := by omega
          have := h13.1
          rw [List.getElem?_eq_getElem hlt, hat] at this
          cases this
      have hu : ∃ argv, parse (d.take (nl + 1)) = .ok argv (nl + 1) := by
        have hidx : (d.take (nl + 1)).idxOf? 10 = some nl := by
          refine List.idxOf?_eq_some_iff.2 ⟨by rw [List.length_take]; omega, ?_, fun j hj => ?_⟩
          · rw [List.getElem_take]
            exact hat
          · rw [List.getElem_take]
            exact hfirst j hj
        rw [hinline (nl + 1) (by omega), parseInline, findCrlf_take hcr (by omega), hidx]
        exact ⟨_, rfl⟩
      obtain ⟨argv, hu⟩ := hu
      have := h (nl + 1) (by rw [hu]; simp)
      rw [hu, hwhole, parseInline, hcr] at this
      have := (Parse.ok.inj this).2
      omega

end RequestParser

open RequestParser

theorem takeLoop_fuel {buf : Bytes} {fuel : ℕ} (hlen : buf.length < 2 ^ 62) (h : buf.length < fuel) :
    takeLoop fuel buf = takeInput buf := by
  have hall : ∀ (n : ℕ) (buf : Bytes), buf.length ≤ n → buf.length < 2 ^ 62 → ∀ f f', buf.length < f →
      buf.length < f' → takeLoop f buf = takeLoop f' buf := by
    intro n
    induction n with
    | zero =>
      intro buf hn _ f f' hf hf'
      obtain rfl := List.length_eq_zero_iff.1 (Nat.le_zero.1 hn)
      obtain ⟨f, rfl⟩ := Nat.exists_eq_succ_of_ne_zero (by omega : f ≠ 0)
      obtain ⟨f', rfl⟩ := Nat.exists_eq_succ_of_ne_zero (by omega : f' ≠ 0)
      rfl
    | succ n ih =>
      intro buf hn hlen f f' hf hf'
      obtain ⟨f, rfl⟩ := Nat.exists_eq_succ_of_ne_zero (by omega : f ≠ 0)
      obtain ⟨f', rfl⟩ := Nat.exists_eq_succ_of_ne_zero (by omega : f' ≠ 0)
      rw [takeLoop, takeLoop]
      cases hp : parse buf with
      | needMore => rfl
      | protocolError e => rfl
      | ok argv consumed =>
        have hc := parse_consumed hlen hp
        have hd : (buf.drop consumed).length = buf.length - consumed := List.length_drop
        dsimp only
        rw [ih (buf.drop consumed) (by omega) (by omega) f f' (by omega) (by omega)]
  exact hall buf.length buf (le_refl _) hlen _ _ h (Nat.lt_succ_self _)

theorem takeInput_needMore {buf : Bytes} (h : parse buf = .needMore) : takeInput buf = ([], some buf) := by
  rw [takeInput, takeLoop, h]

theorem takeInput_error {buf e : Bytes} (h : parse buf = .protocolError e) :
    takeInput buf = ([.malformed (Reply.error (ascii "ERR Protocol error: " ++ e))], none) := by
  rw [takeInput, takeLoop, h]

theorem takeInput_ok {buf : Bytes} {argv : List Bytes} {n : ℕ} (hlen : buf.length < 2 ^ 62)
    (h : parse buf = .ok argv n) : takeInput buf =
      (if argv = [] then (takeInput (buf.drop n)).1 else .command argv :: (takeInput (buf.drop n)).1,
        (takeInput (buf.drop n)).2) := by
  have hc := parse_consumed hlen h
  have hd : (buf.drop n).length = buf.length - n := List.length_drop
  rw [takeInput, takeLoop, h]
  dsimp only
  rw [takeLoop_fuel (by omega) (by omega)]

/-- What is left of a stream after some of its requests. -/
inductive Rest : Bytes → Bytes → Prop
  | refl (d : Bytes) : Rest d d
  | next {d d' : Bytes} {argv : List Bytes} {n : ℕ} (h : parse d = .ok argv n) (h' : Rest (d.drop n) d') : Rest d d'

/-- Every inline request of a stream has a plain line. -/
def PlainStream (d : Bytes) : Prop := ∀ d', Rest d d' → PlainLine d'

theorem PlainStream.line {d : Bytes} (h : PlainStream d) : PlainLine d := h d (.refl d)

theorem PlainStream.next {d : Bytes} (h : PlainStream d) {argv : List Bytes} {n : ℕ} (hp : parse d = .ok argv n) :
    PlainStream (d.drop n) := fun d' hd => h d' (.next hp hd)

/-- The loop over a beginning of a stream, and over what it leaves with the rest. -/
theorem takeInput_append (u v : Bytes) (hlen : (u ++ v).length < 2 ^ 62) (h : PlainStream (u ++ v)) :
    (∃ w, (takeInput u).2 = some w ∧ parse w = .needMore ∧ PlainStream (w ++ v) ∧ (w ++ v).length ≤ (u ++ v).length ∧
      (takeInput (u ++ v)).1 = (takeInput u).1 ++ (takeInput (w ++ v)).1) ∨
    ((takeInput u).2 = none ∧ takeInput (u ++ v) = takeInput u) := by
  induction hn : u.length using Nat.strongRecOn generalizing u with
  | _ n ih =>
    have hu : u.length < 2 ^ 62 := by
      rw [List.length_append] at hlen
      omega
    have hstable := parse_stable hu h.line
    cases hp : parse u with
    | needMore =>
      rw [takeInput_needMore hp]
      exact .inl ⟨u, rfl, hp, h, le_refl _, rfl⟩
    | protocolError e =>
      have hq : parse (u ++ v) = .protocolError e := (hstable (by simp [hp])).trans hp
      rw [takeInput_error hp, takeInput_error hq]
      exact .inr ⟨rfl, rfl⟩
    | ok argv consumed =>
      have hc := parse_consumed hu hp
      have hq : parse (u ++ v) = .ok argv consumed := (hstable (by simp [hp])).trans hp
      have hdrop : (u ++ v).drop consumed = u.drop consumed ++ v := List.drop_append_of_le_length hc.2
      have hnext := h.next hq
      rw [hdrop] at hnext
      rw [takeInput_ok hu hp, takeInput_ok hlen hq, hdrop]
      have hlt : (u.drop consumed ++ v).length ≤ (u ++ v).length := by
        simp only [List.length_append, List.length_drop]
        omega
      rcases ih (u.drop consumed).length (by rw [List.length_drop]; omega) (u.drop consumed) (by omega) hnext rfl with
        ⟨w, hw, hm, hplain, hle, he⟩ | ⟨hw, he⟩
      · refine .inl ⟨w, hw, hm, hplain, by omega, ?_⟩
        rw [he]
        split_ifs <;> rfl
      · exact .inr ⟨hw, by rw [he]⟩

/-- The run lemma: reads over a buffer that holds no whole request. -/
theorem feed_flatten (reads : List Bytes) (buf : Bytes) (hbuf : parse buf = .needMore)
    (hlen : (buf ++ reads.flatten).length < 2 ^ 62) (h : PlainStream (buf ++ reads.flatten)) :
    feed buf reads = (takeInput (buf ++ reads.flatten)).1 := by
  induction reads generalizing buf with
  | nil =>
    rw [List.flatten_nil, List.append_nil, takeInput_needMore hbuf]
    rfl
  | cons data reads ih =>
    rw [List.flatten_cons, ← List.append_assoc] at hlen h ⊢
    rw [feed]
    rcases takeInput_append (buf ++ data) reads.flatten hlen h with ⟨w, hw, hm, hplain, hle, he⟩ | ⟨hw, he⟩
    · rw [hw, he]
      exact congrArg _ (ih w hm (by omega) hplain)
    · rw [hw, he]
      exact List.append_nil _

/-- One round of `process_input` takes what `takeInput` takes first. -/
theorem processInput_takes {ι : Type} [DecidableEq ι] (shardFor : Bytes → ι) (shards : List ι) (self : ι) (sh : Shard)
    (env : Env) (cid : ℕ) (c : Connection) (hc : c.closing = false) :
    (((sh.processInput shardFor shards self env cid c).1.ledger cid).requests.map Request.taken) =
      (sh.ledger cid).requests.map Request.taken ++ match parse c.input with
        | .needMore => []
        | .protocolError e => [.malformed (Reply.error (ascii "ERR Protocol error: " ++ e))]
        | .ok argv _ => if argv = [] then [] else [.command argv] := by
  have hnote : ∀ (sh : Shard) (r : Request), ((sh.note cid (·.request r)).ledger cid).requests =
      (sh.ledger cid).requests ++ [r] := fun sh r => by simp [Shard.note, Ledger.request]
  unfold Shard.processInput
  rw [if_neg (by simp [hc])]
  cases parse c.input with
  | needMore =>
    rw [requests_endInput, List.append_nil]
  | protocolError e =>
    dsimp only
    rw [requests_endInput, hnote, List.map_append]
    rfl
  | ok argv consumed =>
    dsimp only
    by_cases ha : argv = []
    · rw [if_pos ha, if_pos ha, List.append_nil]
      rfl
    · rw [if_neg ha, if_neg ha]
      have henq : ∀ (sh' : Shard) (c' : Connection) (pr : PendingReply) (a : Answer),
          ((sh'.enqueue cid c' pr (.command argv a)).ledger cid).requests.map Request.taken =
            (sh'.ledger cid).requests.map Request.taken ++ [.command argv] := by
        intro sh' c' pr a
        unfold Shard.enqueue
        rw [hnote, List.map_append]
        rfl
      unfold Shard.dispatch
      cases plan shardFor self argv with
      | refuse e => exact henq _ _ _ _
      | inline => exact henq _ _ _ _
      | forward target => exact henq _ _ _ _
      | fanOut keys => exact henq _ _ _ _

/-- A stream whose inline requests all have plain lines is taken in the same way in
however many reads it arrives. -/
theorem reads_agree (reads : List Bytes) (hlen : reads.flatten.length ≤ Connection.kMaxInlineBuffer)
    (h : PlainStream reads.flatten) : feed [] reads = feed [] [reads.flatten] := by
  have hsmall : reads.flatten.length < 2 ^ 62 := by
    simp only [Connection.kMaxInlineBuffer] at hlen
    omega
  have hone : [reads.flatten].flatten = reads.flatten := by simp
  rw [feed_flatten reads [] rfl (by rwa [List.nil_append]) (by rwa [List.nil_append]),
    feed_flatten [reads.flatten] [] rfl (by rwa [hone, List.nil_append]) (by rwa [hone, List.nil_append]), hone]

/-- `PING` in two reads. -/
theorem reads_agree_ping : feed [] [ascii "PI", ascii "NG\r\n"] = feed [] [ascii "PING\r\n"] := by
  refine reads_agree [ascii "PI", ascii "NG\r\n"] (by decide) fun d' hd => ?_
  have hfirst : parse (ascii "PING\r\n") = .ok [ascii "PING"] 6 := by decide +kernel
  have hend : parse [] = .needMore := rfl
  have hcases : d' = ascii "PING\r\n" ∨ d' = [] := by
    cases hd with
    | refl => exact .inl rfl
    | next h h' =>
      obtain ⟨-, rfl⟩ := Parse.ok.inj (hfirst.symm.trans h)
      cases h' with
      | refl => exact .inr rfl
      | next h'' => cases hend.symm.trans h''
  rcases hcases with rfl | rfl
  · refine .inr fun nl hnl => ?_
    have h10 : (ascii "PING\r\n").idxOf? 10 = some 5 := by decide +kernel
    have hcr : findCrlf (ascii "PING\r\n") 0 = some 4 := by decide +kernel
    obtain rfl := Option.some.inj (h10.symm.trans hnl)
    exact ⟨by decide, fun at' h => by rw [← Option.some.inj (hcr.symm.trans h)]⟩
  · exact .inr fun nl hnl => absurd hnl (by simp)

/-- A bare line feed ends a request, unless a CRLF has already arrived behind it. -/
theorem bare_line_feed : ¬ ∀ reads : List Bytes, reads.flatten.length ≤ Connection.kMaxInlineBuffer →
    feed [] reads = feed [] [reads.flatten] := by
  intro h
  exact absurd (h [ascii "PING\n", ascii "PING\r\n"] (by decide)) (by decide +kernel)

end BlazeKV
