import BlazeKV.Proofs.Deadlines

/-! The deadline that the options of `SET` ask for, in unbounded arithmetic. -/

namespace BlazeKV

open Keyspace

/-- An unsigned integer of any length in decimal digits. -/
def numeral (s : Bytes) : Option ℕ := if s ≠ [] ∧ s.all isDigit then some (digitsValue s) else none

theorem parseInt_numeral {s : Bytes} {n : ℕ} (h : numeral s = some n) :
    parseInt s = if n < 2 ^ 63 then some (n : ℤ) else none := by
  unfold numeral at h
  split_ifs at h with hs
  obtain rfl := Option.some.inj h
  obtain ⟨hne, hdig⟩ := hs
  cases s with
  | nil => exact absurd rfl hne
  | cons c s =>
    have hc : c ≠ 45 := by
      rintro rfl
      simp [isDigit] at hdig
    have hfits : fitsInt64 (digitsValue (c :: s) : ℤ) = decide (digitsValue (c :: s) < 2 ^ 63) := by
      rw [Bool.eq_iff_iff]
      simp only [fitsInt64, decide_eq_true_eq, Bool.decide_and, Bool.and_eq_true]
      omega
    simp only [parseInt, hc, if_false, hfits]
    by_cases hlt : digitsValue (c :: s) < 2 ^ 63
    · rw [if_pos ⟨by simp, hdig, by simpa using hlt⟩, if_pos hlt]
    · rw [if_neg fun h => hlt (by simpa using h.2.2), if_neg hlt]

/-- The milliseconds of a deadline that `EX`, `PX`, `EXAT` or `PXAT` asks for with `n`. -/
def exactDeadline (now : ℕ) (opt : Bytes) (n : ℕ) : ℕ :=
  if opt = ascii "ex" then now + n * 1000
  else if opt = ascii "px" then now + n
  else if opt = ascii "exat" then n * 1000
  else n

theorem exactDeadline_pos {now : ℕ} {opt : Bytes} {n : ℕ} (h : 0 < n) : 0 < exactDeadline now opt n := by
  unfold exactDeadline
  split_ifs <;> omega

theorem toU64_natCast {n : ℕ} (h : n < 2 ^ 64) : toU64 (n : ℤ) = n := by
  unfold toU64
  omega

theorem u64_add_u64 (a b : ℕ) : u64 (a + u64 b) = u64 (a + b) := Nat.add_mod_mod _ _ _

namespace Cmd

/-- The handler computes that deadline modulo `2 ^ 64`. -/
theorem expireOpt_eq {now : ℕ} {opt : Bytes} {n : ℕ} (h : n < 2 ^ 63) :
    expireOpt now opt (n : ℤ) = u64 (exactDeadline now opt n) := by
  have hn : toU64 (n : ℤ) = n := toU64_natCast (by omega)
  unfold expireOpt exactDeadline
  rw [hn, u64_add_u64]
  split_ifs
  · rfl
  · rfl
  · rfl
  · exact (Nat.mod_eq_of_lt (by omega)).symm

/-- The last of the options that set a deadline, and its argument. -/
def lastExpire : List Bytes → Option (Bytes × Bytes)
  | [] => none
  | a :: rest =>
    if isExpireOpt (lowercase a) then
      match rest with
      | [] => none
      | b :: rest => some ((lastExpire rest).getD (lowercase a, b))
    else lastExpire rest

/-- The option words, without the arguments of those that take one. -/
def optionWords : List Bytes → List Bytes
  | [] => []
  | a :: rest =>
    lowercase a :: if isExpireOpt (lowercase a) then
      match rest with
      | [] => []
      | _ :: rest => optionWords rest
    else optionWords rest

section Words

variable {a b : Bytes} {rest : List Bytes}

theorem lastExpire_word (h : isExpireOpt (lowercase a) = false) : lastExpire (a :: rest) = lastExpire rest := by
  rw [lastExpire.eq_def]
  simp [h]

theorem lastExpire_expire (h : isExpireOpt (lowercase a)) :
    lastExpire (a :: b :: rest) = some ((lastExpire rest).getD (lowercase a, b)) := by
  simp [lastExpire, h]

theorem optionWords_word (h : isExpireOpt (lowercase a) = false) :
    optionWords (a :: rest) = lowercase a :: optionWords rest := by
  rw [optionWords.eq_def]
  simp [h]

theorem optionWords_expire (h : isExpireOpt (lowercase a)) :
    optionWords (a :: b :: rest) = lowercase a :: optionWords rest := by
  simp [optionWords, h]

end Words

/-- The words that are a flag. -/
def flagWords : List Bytes := [ascii "nx", ascii "xx", ascii "keepttl", ascii "get"]

theorem not_expire_of_flag {w : Bytes} (h : w ∈ flagWords) : isExpireOpt w = false := by
  revert w
  decide

theorem not_flag_of_expire {w : Bytes} (h : isExpireOpt w) : w ∉ flagWords := fun hw => by
  simp [not_expire_of_flag hw] at h

/-- The flag of `SET` that a word sets. -/
def SetOpts.flag (o : SetOpts) (w : Bytes) : Bool :=
  if w = ascii "nx" then o.nx else if w = ascii "xx" then o.xx else if w = ascii "keepttl" then o.keepttl else o.get

theorem flag_set (o : SetOpts) {w : Bytes} (hw : w ∈ flagWords) :
    SetOpts.flag { o with nx := true } w = (o.flag w || decide (w = ascii "nx")) ∧
    SetOpts.flag { o with xx := true } w = (o.flag w || decide (w = ascii "xx")) ∧
    SetOpts.flag { o with keepttl := true } w = (o.flag w || decide (w = ascii "keepttl")) ∧
    SetOpts.flag { o with get := true } w = (o.flag w || decide (w = ascii "get")) := by
  simp only [flagWords, List.mem_cons, List.not_mem_nil, or_false] at hw
  rcases hw with rfl | rfl | rfl | rfl <;> simp +decide [SetOpts.flag]

/-- What one word of the options does: it sets its flag, or gives a deadline. -/
theorem setOpts_cons {now : ℕ} {o o' : SetOpts} {a : Bytes} {rest : List Bytes}
    (h : setOpts now o (a :: rest) = .ok o') :
    (∃ o1, lowercase a ∈ flagWords ∧ setOpts now o1 rest = .ok o' ∧ o1.deadline = o.deadline ∧
      ∀ w ∈ flagWords, o1.flag w = (o.flag w || decide (w = lowercase a))) ∨
    ∃ b tail n, rest = b :: tail ∧ isExpireOpt (lowercase a) ∧ parseInt b = some n ∧ 0 < n ∧
      setOpts now { o with deadline := expireOpt now (lowercase a) n } tail = .ok o' := by
  rw [setOpts.eq_def] at h
  dsimp only at h
  split_ifs at h with h1 h2 h3 h4 h5
  · exact .inl ⟨_, by simp [h1, flagWords], h, rfl, fun w hw => h1 ▸ (flag_set o hw).1⟩
  · exact .inl ⟨_, by simp [h2, flagWords], h, rfl, fun w hw => h2 ▸ (flag_set o hw).2.1⟩
  · exact .inl ⟨_, by simp [h3, flagWords], h, rfl, fun w hw => h3 ▸ (flag_set o hw).2.2.1⟩
  · exact .inl ⟨_, by simp [h4, flagWords], h, rfl, fun w hw => h4 ▸ (flag_set o hw).2.2.2⟩
  · split at h
    · cases h
    · next b tail =>
      split at h
      · cases h
      · next n hn =>
        split_ifs at h with h0
        exact .inr ⟨b, tail, n, rfl, h5, hn, by omega, h⟩

/-- The deadline `d` is that of the last option that gives one, or `d0` where none does. -/
inductive DeadlineOf (now d0 : ℕ) (opts : List Bytes) (d : ℕ) : Prop
  | none (h : lastExpire opts = none) (hd : d = d0)
  | some (opt text : Bytes) (n : ℤ) (h : lastExpire opts = some (opt, text)) (hopt : isExpireOpt opt)
      (hn : parseInt text = some n) (hpos : 0 < n) (hd : d = expireOpt now opt n)

/-- Accepted options: the last deadline counts, and every flag that stands among the words. -/
theorem setOpts_spec {now : ℕ} {o o' : SetOpts} {opts : List Bytes} (h : setOpts now o opts = .ok o') :
    DeadlineOf now o.deadline opts o'.deadline ∧
      ∀ w ∈ flagWords, o'.flag w = (o.flag w || decide (w ∈ optionWords opts)) := by
  induction hlen : opts.length using Nat.strong_induction_on generalizing o opts with
  | _ len ih =>
    cases opts with
    | nil =>
      obtain rfl := Except.ok.inj h
      exact ⟨.none rfl rfl, fun w _ => by simp [optionWords]⟩
    | cons a rest =>
      rw [List.length_cons] at hlen
      rcases setOpts_cons h with ⟨o1, hflag, h1, hd, hw⟩ | ⟨b, tail, n, rfl, hopt, hn, hpos, h1⟩
      · have hno := not_expire_of_flag hflag
        obtain ⟨hdl, hwords⟩ := ih rest.length (by omega) h1 rfl
        rw [hd] at hdl
        refine ⟨?_, fun w hmem => ?_⟩
        · cases hdl with
          | none h' hd' => exact .none (by rw [lastExpire_word hno, h']) hd'
          | some opt text n h' hopt hn hpos hd' => exact .some opt text n (by rw [lastExpire_word hno, h']) hopt hn hpos hd'
        · rw [hwords w hmem, hw w hmem, optionWords_word hno, Bool.or_assoc]
          simp
      · rw [List.length_cons] at hlen
        obtain ⟨hdl, hwords⟩ := ih tail.length (by omega) h1 rfl
        refine ⟨?_, fun w hmem => ?_⟩
        · cases hdl with
          | none h' hd' => exact .some _ b n (by rw [lastExpire_expire hopt, h', Option.getD_none]) hopt hn hpos hd'
          | some opt text m h' hopt' hm hpos' hd' =>
            exact .some opt text m (by rw [lastExpire_expire hopt, h', Option.getD_some]) hopt' hm hpos' hd'
        · have hne : w ≠ lowercase a := by
            rintro rfl
            exact not_flag_of_expire hopt hmem
          rw [hwords w hmem, optionWords_expire hopt]
          simp [hne, SetOpts.flag]

/-- A deadline among the options of `SET` is written in digits. -/
theorem setArgs_deadline {env : Env} {argv : List Bytes} {o : SetOpts} (h : setArgs env argv = .ok o) {opt text : Bytes}
    (hlast : lastExpire (argv.drop 3) = some (opt, text)) {n : ℕ} (hn : numeral text = some n) :
    n < 2 ^ 63 ∧ o.deadline = u64 (exactDeadline env.now opt n) := by
  cases (setOpts_spec h).1 with
  | none h' hd => simp [h'] at hlast
  | some opt' text' m h' hopt hm hpos hd =>
    obtain ⟨rfl, rfl⟩ := Prod.mk.inj (Option.some.inj (hlast.symm.trans h'))
    rw [parseInt_numeral hn] at hm
    split_ifs at hm with hlt
    obtain rfl := Option.some.inj hm
    exact ⟨hlt, by rw [hd, expireOpt_eq hlt]⟩

/-- The flags of accepted options are those that stand among the words. -/
theorem setArgs_flag {env : Env} {argv : List Bytes} {o : SetOpts} (h : setArgs env argv = .ok o) {w : Bytes}
    (hw : w ∈ flagWords) : o.flag w = decide (w ∈ optionWords (argv.drop 3)) := by
  rw [(setOpts_spec h).2 w hw]
  simp [SetOpts.flag]

/-- What ends the loop over the options is an error reply. -/
theorem setOpts_error {now : ℕ} {o : SetOpts} {opts : List Bytes} {e : Bytes} (h : setOpts now o opts = .error e) :
    isError e := by
  fun_induction setOpts now o opts with
  | case1 => cases h
  | case2 _ _ _ _ _ ih => exact ih h
  | case3 _ _ _ _ _ _ ih => exact ih h
  | case4 _ _ _ _ _ _ _ ih => exact ih h
  | case5 _ _ _ _ _ _ _ _ ih => exact ih h
  | case6 => exact Except.error.inj h ▸ rfl
  | case7 => exact Except.error.inj h ▸ rfl
  | case8 => exact Except.error.inj h ▸ rfl
  | case9 _ _ _ _ _ _ _ _ _ _ _ _ _ ih => exact ih h
  | case10 => exact Except.error.inj h ▸ rfl

theorem setWrite_dict (o : SetOpts) (db : Keyspace) (key val : Bytes) :
    (setWrite o db key val).dict = (db.set key (.string val)).dict := by
  unfold setWrite
  dsimp only
  split_ifs <;> rfl

/-- `NX` finds a string, or `XX` finds nothing. -/
def SetOpts.refuses (o : SetOpts) (live : Option Object) : Bool :=
  (o.nx && (live.bind Object.string?).isSome) || (o.xx && live.isNone)

/-- `SET` by what is live at the key. -/
theorem set_eq {env : Env} {argv : List Bytes} {o : SetOpts} (h : setArgs env argv = .ok o) (db : Keyspace) :
    set env argv db =
      if o.refuses (db.peek env.now (arg argv 1)) then
        .clean (db.lookup env.now (arg argv 1)).1
          (if o.get then replyOpt ((db.peek env.now (arg argv 1)).bind Object.string?) else Reply.nullBulk)
      else
        .marked (setWrite o (db.lookup env.now (arg argv 1)).1 (arg argv 1) (arg argv 2))
          (if o.get then replyOpt ((db.peek env.now (arg argv 1)).bind Object.string?)
            else Reply.simpleString (ascii "OK")) := by
  unfold setArgs at h
  simp only [set, h, lookup_snd, SetOpts.refuses]
  cases hp : db.peek env.now (arg argv 1) with
  | some x =>
    rw [lookup_of_peek _ _ _ _ hp]
    by_cases hnx : o.nx <;> by_cases hxx : o.xx <;> simp [hnx, hxx, lookup_of_peek _ _ _ _ hp]
  | none =>
    have hdict := lookup_none hp
    have hagain : (db.lookup env.now (arg argv 1)).1.lookup env.now (arg argv 1) =
        ((db.lookup env.now (arg argv 1)).1, none) := by
      simp [lookup_eq (db.lookup env.now (arg argv 1)).1, peek, hdict]
    by_cases hnx : o.nx <;> by_cases hxx : o.xx <;> simp [hnx, hxx, hagain, replyOpt]

end Cmd

end BlazeKV
