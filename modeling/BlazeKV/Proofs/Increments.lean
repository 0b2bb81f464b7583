import BlazeKV.Proofs.CommandEffects

/-! Adding to a stored number. `incr_by` looks before it adds; `HINCRBY` does not, and `DECRBY`
negates its argument before `incr_by` can look at it. -/

namespace BlazeKV

open Keyspace

theorem parseInt_fits {s : Bytes} {v : ℤ} (h : parseInt s = some v) : fitsInt64 v := by
  cases s with
  | nil => cases h
  | cons c s =>
    simp only [parseInt] at h
    split_ifs at h with h1 h2 h3 <;> simp_all

theorem i64_of_fits {v : ℤ} (h : fitsInt64 v) : i64 v = v := by
  simp only [fitsInt64, decide_eq_true_eq, Bool.decide_and, Bool.and_eq_true] at h
  exact Int.bmod_eq_of_le (by omega) (by omega)

theorem neg_fits {v : ℤ} (h : fitsInt64 v) : fitsInt64 (-v) ↔ v ≠ -2 ^ 63 := by
  simp only [fitsInt64, decide_eq_true_eq, Bool.decide_and, Bool.and_eq_true] at h ⊢
  omega

/-- The commands that add to a number. -/
def counters : List Bytes := [ascii "incr", ascii "decr", ascii "incrby", ascii "decrby", ascii "hincrby"]

section Exact

variable (now : ℕ) (argv : List Bytes) (db : Keyspace)

/-- What the command has to add; `none` where its argument is no 64-bit integer. -/
def addend : Option ℤ :=
  let name := lowercase (cmdName argv)
  if name = ascii "incr" then some 1
  else if name = ascii "decr" then some (-1)
  else if name = ascii "incrby" then parseInt (arg argv 2)
  else if name = ascii "decrby" then (parseInt (arg argv 2)).map (-·)
  else parseInt (arg argv 3)

def stringNumber : Option ℤ :=
  match found Object.string? (db.peek now (arg argv 1)) with
  | .absent => some 0
  | .wrongType => none
  | .present s => parseInt s

def fieldNumber : Option ℤ :=
  match found Object.hash? (db.peek now (arg argv 1)) with
  | .absent => some 0
  | .wrongType => none
  | .present h => Cmd.fieldInt h (arg argv 2)

/-- The number that is there, as far as there is one. -/
def oldNumber : Option ℤ :=
  if lowercase (cmdName argv) = ascii "hincrby" then fieldNumber now argv db else stringNumber now argv db

/-- The exact result where there is one in 64 bits. -/
def exactSum (old add : Option ℤ) : Option ℤ :=
  (old.bind fun cur => add.map (cur + ·)).filter fun v => fitsInt64 v

/-- The key or field holds the decimal form of a number. -/
def HoldsNumber (v : ℤ) : Prop :=
  if lowercase (cmdName argv) = ascii "hincrby" then
    ∃ h, db.dict.find (arg argv 1) = some (.hash h) ∧ h.find (arg argv 2) = some (intToString v)
  else db.dict.find (arg argv 1) = some (.string (intToString v))

end Exact

namespace Cmd

/-- The exact values of what `incr_by` computes, in its order. -/
def incrBySums (delta cur : ℤ) : List ℤ :=
  if delta > 0 then (maxInt64 - delta) :: if cur > maxInt64 - delta then [] else [cur + delta]
  else if delta < 0 then (minInt64 - delta) :: if cur < minInt64 - delta then [] else [cur + delta]
  else [cur + delta]

variable {env : Env} {argv : List Bytes} {db : Keyspace}

theorem incrBySums_fit {delta cur : ℤ} (hd : fitsInt64 delta) (hc : fitsInt64 cur) :
    ∀ x ∈ incrBySums delta cur, fitsInt64 x := by
  simp only [fitsInt64, decide_eq_true_eq, Bool.decide_and, Bool.and_eq_true] at hd hc ⊢
  have hmax : maxInt64 = 2 ^ 63 - 1 := rfl
  have hmin : minInt64 = -2 ^ 63 := rfl
  intro x hx
  unfold incrBySums at hx
  split_ifs at hx <;> simp only [List.mem_cons, List.not_mem_nil, or_false] at hx <;> omega

/-- The check of `incr_by` refuses the sums that do not fit. -/
theorem overflow_iff {delta cur : ℤ} (hd : fitsInt64 delta) (hc : fitsInt64 cur) :
    ((delta > 0 ∧ cur > maxInt64 - delta) ∨ (delta < 0 ∧ cur < minInt64 - delta)) ↔ fitsInt64 (cur + delta) = false := by
  rw [Bool.eq_false_iff]
  simp only [fitsInt64, decide_eq_true_eq, Bool.decide_and, Bool.and_eq_true, ne_eq] at hd hc ⊢
  have hmax : maxInt64 = 2 ^ 63 - 1 := rfl
  have hmin : minInt64 = -2 ^ 63 := rfl
  omega

theorem stringNumber_fits {now : ℕ} {cur : ℤ} (h : stringNumber now argv db = some cur) : fitsInt64 cur := by
  unfold stringNumber at h
  split at h
  · exact Option.some.inj h ▸ rfl
  · cases h
  · exact parseInt_fits h

/-- A result is the exact one, or an error that leaves what is live. -/
def Counted (env : Env) (db : Keyspace) (r : Result) (holds : ℤ → Prop) : Option ℤ → Prop
  | some v => r.reply = Reply.integer v ∧ holds v
  | none => isError r.reply ∧ LiveEquiv env.now db r.db

theorem incrBy_counted {delta : ℤ} (hd : fitsInt64 delta) : Counted env db (incrBy delta env argv db)
    (fun v => (incrBy delta env argv db).db.dict.find (arg argv 1) = some (.string (intToString v)))
    (exactSum (stringNumber env.now argv db) (some delta)) := by
  have hl : LiveEquiv env.now db (db.lookup env.now (arg argv 1)).1 := .lookup_right _ _ _
  have hrun : ∀ cur, fitsInt64 cur → stringNumber env.now argv db = some cur →
      incrBy delta env argv db =
        (if fitsInt64 (cur + delta) then
          .marked ((db.lookup env.now (arg argv 1)).1.set (arg argv 1) (.string (intToString (cur + delta))))
            (Reply.integer (cur + delta))
        else .clean (db.lookup env.now (arg argv 1)).1
          (Reply.error (ascii "ERR increment or decrement would overflow"))) := by
    intro cur hc hnum
    unfold stringNumber at hnum
    simp only [incrBy, getString, getAs_eq]
    have hover := overflow_iff hd hc
    cases hf : found Object.string? (db.peek env.now (arg argv 1)) with
    | wrongType => simp [hf] at hnum
    | absent =>
      simp only [hf, Option.some.injEq] at hnum
      subst hnum
      simp only [hover]
      cases fitsInt64 (0 + delta) <;> simp
    | present s =>
      simp only [hf] at hnum
      simp only [hnum, hover]
      cases fitsInt64 (cur + delta) <;> simp
  cases hnum : stringNumber env.now argv db with
  | none =>
    unfold stringNumber at hnum
    simp only [incrBy, getString, getAs_eq]
    cases hf : found Object.string? (db.peek env.now (arg argv 1)) with
    | absent => simp [hf] at hnum
    | wrongType => exact ⟨rfl, hl⟩
    | present s =>
      simp only [hf] at hnum
      dsimp only
      rw [hnum]
      exact ⟨rfl, hl⟩
  | some cur =>
    rw [hrun cur (stringNumber_fits hnum) hnum]
    cases hfit : fitsInt64 (cur + delta) with
    | false =>
      simp only [exactSum, Option.bind_some, Option.map_some, Option.filter, hfit, Bool.false_eq_true, if_false]
      exact ⟨rfl, hl⟩
    | true =>
      simp only [exactSum, Option.bind_some, Option.map_some, Option.filter, hfit, if_true]
      exact ⟨rfl, by simp⟩

/-- `HINCRBY` on a sum that fits, or on no number. -/
theorem hincrby_counted (hfit : ∀ cur d, fieldNumber env.now argv db = some cur → parseInt (arg argv 3) = some d →
      fitsInt64 (cur + d)) : Counted env db (hincrby env argv db)
    (fun v => ∃ h, (hincrby env argv db).db.dict.find (arg argv 1) = some (.hash h) ∧
      h.find (arg argv 2) = some (intToString v))
    (exactSum (fieldNumber env.now argv db) (parseInt (arg argv 3))) := by
  have hl : LiveEquiv env.now db (db.lookup env.now (arg argv 1)).1 := .lookup_right _ _ _
  simp only [hincrby, makeHash, getOrMake_eq]
  cases hp : parseInt (arg argv 3) with
  | none =>
    have hnone : exactSum (fieldNumber env.now argv db) none = none := by
      cases fieldNumber env.now argv db <;> rfl
    rw [hnone]
    exact ⟨rfl, .refl _⟩
  | some d =>
    unfold fieldNumber at hfit ⊢
    cases hf : found Object.hash? (db.peek env.now (arg argv 1)) with
    | wrongType => exact ⟨rfl, hl⟩
    | absent =>
      have h0 : fieldInt .empty (arg argv 2) = some 0 := by simp [fieldInt]
      have hfits := hfit 0 d (by rw [hf]) hp
      simp only [h0, exactSum, Option.bind_some, Option.map_some, Option.filter, hfits, if_true]
      rw [i64_of_fits hfits]
      exact ⟨rfl, _, by simp; rfl, by simp⟩
    | present h =>
      dsimp only
      cases hc : fieldInt h (arg argv 2) with
      | none => exact ⟨rfl, hl⟩
      | some cur =>
        have hfits := hfit cur d (by rw [hf]; exact hc) hp
        obtain ⟨o, ho, -⟩ := (found_present _).1 hf
        simp only [exactSum, Option.bind_some, Option.map_some, Option.filter, hfits, if_true]
        rw [i64_of_fits hfits, lookup_of_peek _ _ _ _ ho]
        refine ⟨rfl, h.insert (arg argv 2) (intToString (cur + d)), ?_, by simp⟩
        simp [find_of_peek _ _ _ _ ho]

end Cmd

section Commands

variable (env : Env) (argv : List Bytes) (db : Keyspace)

/-- The exact values of the signed sums and the negation that a command computes. -/
def counterSums : List ℤ :=
  let old := oldNumber env.now argv db
  if lowercase (cmdName argv) = ascii "hincrby" then
    ((addend argv).bind fun d => old.map (· + d)).toList
  else if lowercase (cmdName argv) = ascii "decrby" then
    (parseInt (arg argv 2)).elim [] fun n => -n :: old.elim [] (Cmd.incrBySums (i64 (-n)))
  else (addend argv).elim [] fun d => old.elim [] (Cmd.incrBySums d)

/-- The command replies with the exact result and stores it, or with an error where there is
none, and nothing that it computes leaves the 64 bits. -/
def CountsExactly : Prop :=
  let r := execCore env argv db
  (match exactSum (oldNumber env.now argv db) (addend argv) with
    | some v => r.reply = Reply.integer v ∧ HoldsNumber argv r.db v
    | none => isError r.reply ∧ LiveEquiv env.now db r.db) ∧
  ∀ v ∈ counterSums env argv db, fitsInt64 v

variable {env argv db} {spec : CommandSpec}

theorem counts_of (hr : route argv = .ok spec) (hn : lowercase (cmdName argv) ≠ ascii "hincrby")
    (h : Cmd.Counted env db (spec.fn env argv db)
      (fun v => (spec.fn env argv db).db.dict.find (arg argv 1) = some (.string (intToString v)))
      (exactSum (stringNumber env.now argv db) (addend argv)))
    (hsums : ∀ v ∈ counterSums env argv db, fitsInt64 v) : CountsExactly env argv db := by
  refine ⟨?_, hsums⟩
  simp only [execCore, hr, oldNumber, HoldsNumber, if_neg hn]
  unfold Cmd.Counted at h
  split at h <;> simp_all

theorem incrBySums_elim {d : ℤ} (hd : fitsInt64 d) (now : ℕ) :
    ∀ v ∈ (stringNumber now argv db).elim [] (Cmd.incrBySums d), fitsInt64 v := by
  cases hold : stringNumber now argv db with
  | none => simp
  | some cur => exact Cmd.incrBySums_fit hd (Cmd.stringNumber_fits hold)

theorem exactSum_none (old : Option ℤ) : exactSum old none = none := by
  cases old <;> rfl

/-- A command that hands `delta` to `incr_by`. -/
theorem fixed_counts (hr : route argv = .ok spec) (hn : lowercase (cmdName argv) ≠ ascii "hincrby") (delta : ℤ)
    (hd : fitsInt64 delta) (hfn : spec.fn env argv db = Cmd.incrBy delta env argv db) (hadd : addend argv = some delta)
    (hsums : counterSums env argv db = (stringNumber env.now argv db).elim [] (Cmd.incrBySums delta)) :
    CountsExactly env argv db := by
  refine counts_of hr hn ?_ ?_
  · rw [hfn, hadd]
    exact Cmd.incrBy_counted hd
  · rw [hsums]
    exact incrBySums_elim hd env.now

/-- Every counter command counts exactly, unless it is a `DECRBY` of the least integer or an
`HINCRBY` whose sum does not fit. -/
theorem counts_exactly_iff (hr : route argv = .ok spec) (hn : spec.name ∈ counters) : CountsExactly env argv db ↔
    ¬(spec.name = ascii "decrby" ∧ parseInt (arg argv 2) = some (-2 ^ 63)) ∧
    ¬(spec.name = ascii "hincrby" ∧ ∃ cur d, fieldNumber env.now argv db = some cur ∧
      parseInt (arg argv 3) = some d ∧ fitsInt64 (cur + d) = false) := by
  have hname : lowercase (cmdName argv) = spec.name := ((find_mem (route_ok hr).1).2).symm
  constructor
  · rintro ⟨-, hsums⟩
    constructor
    · rintro ⟨hs, hp⟩
      rw [hs] at hname
      have := hsums (2 ^ 63) (by simp +decide [counterSums, hname, hp])
      exact absurd this (by decide)
    · rintro ⟨hs, cur, d, hc, hp, hf⟩
      rw [hs] at hname
      have := hsums (cur + d) (by simp +decide [counterSums, addend, oldNumber, hname, hp, hc])
      rw [hf] at this
      cases this
  · rintro ⟨hdec, hhash⟩
    simp only [counters, List.mem_cons, List.not_mem_nil, or_false] at hn
    rcases hn with hn | hn | hn | hn | hn <;> rw [hn] at hname <;> obtain rfl := route_spec hr hn rfl
    · exact fixed_counts hr (by simp +decide [hname]) 1 (by decide) rfl (by simp [addend, hname])
        (by simp +decide [counterSums, addend, oldNumber, hname])
    · exact fixed_counts hr (by simp +decide [hname]) (-1) (by decide) rfl (by simp +decide [addend, hname])
        (by simp +decide [counterSums, addend, oldNumber, hname])
    · have hadd : addend argv = parseInt (arg argv 2) := by simp +decide [addend, hname]
      have hne : lowercase (cmdName argv) ≠ ascii "hincrby" := by simp +decide [hname]
      cases hp : parseInt (arg argv 2) with
      | none =>
        refine counts_of hr hne ?_ (by simp +decide [counterSums, hname, hadd, hp])
        rw [hadd, hp, exactSum_none]
        simp [Cmd.incrby, hp, Cmd.Counted, Result.clean, errNotInt, LiveEquiv.refl]
      | some d =>
        exact fixed_counts hr hne d (parseInt_fits hp) (by simp [Cmd.incrby, hp]) (hadd.trans hp)
          (by simp +decide [counterSums, oldNumber, hname, hadd, hp])
    · have hadd : addend argv = (parseInt (arg argv 2)).map (-·) := by simp +decide [addend, hname]
      have hne : lowercase (cmdName argv) ≠ ascii "hincrby" := by simp +decide [hname]
      cases hp : parseInt (arg argv 2) with
      | none =>
        refine counts_of hr hne ?_ (by simp +decide [counterSums, hname, hp])
        rw [hadd, hp, Option.map_none, exactSum_none]
        simp [Cmd.decrby, hp, Cmd.Counted, Result.clean, errNotInt, LiveEquiv.refl]
      | some n =>
        have hfits := parseInt_fits hp
        have hneg : fitsInt64 (-n) := (neg_fits hfits).2 fun hmin => hdec ⟨rfl, by rw [hp, hmin]⟩
        refine counts_of hr hne ?_ ?_
        · have hrun : Cmd.decrby env argv db = Cmd.incrBy (-n) env argv db := by
            simp only [Cmd.decrby, hp, i64_of_fits hneg]
          simp only [hadd, hp, Option.map_some, hrun]
          exact Cmd.incrBy_counted hneg
        · have hsums : counterSums env argv db =
              -n :: (stringNumber env.now argv db).elim [] (Cmd.incrBySums (-n)) := by
            simp +decide [counterSums, oldNumber, hname, hp, i64_of_fits hneg]
          rw [hsums]
          exact List.forall_mem_cons.2 ⟨hneg, incrBySums_elim hneg env.now⟩
    · have hadd : addend argv = parseInt (arg argv 3) := by simp +decide [addend, hname]
      have hfit : ∀ cur d, fieldNumber env.now argv db = some cur → parseInt (arg argv 3) = some d →
          fitsInt64 (cur + d) := by
        intro cur d hc hp
        by_contra hf
        exact hhash ⟨rfl, cur, d, hc, hp, by simpa using hf⟩
      have hcounted := Cmd.hincrby_counted hfit
      refine ⟨?_, ?_⟩
      · simp only [execCore, hr, oldNumber, HoldsNumber, if_pos hname, hadd]
        unfold Cmd.Counted at hcounted
        split at hcounted <;> simp_all
      · intro v hv
        simp only [counterSums, oldNumber, if_pos hname, hadd, Option.mem_toList, Option.bind_eq_some_iff,
          Option.map_eq_some_iff] at hv
        obtain ⟨d, hp, cur, hc, rfl⟩ := hv
        exact hfit cur d hc hp

end Commands

/-- `HINCRBY h f 9223372036854775807` on no hash. -/
theorem counts_exactly_hincrby : CountsExactly (.quiet 0)
    [ascii "HINCRBY", [104], [102], ascii "9223372036854775807"] .empty := by
  have hr : route [ascii "HINCRBY", [104], [102], ascii "9223372036854775807"] =
    .ok ⟨ascii "hincrby", Cmd.hincrby, 4, true, 1, 1, 1⟩ := rfl
  refine (counts_exactly_iff hr (by decide)).2 ⟨by decide, ?_⟩
  rintro ⟨-, cur, d, hc, hp, hf⟩
  have hcur : fieldNumber 0 [ascii "HINCRBY", [104], [102], ascii "9223372036854775807"] .empty = some 0 := by
    decide +kernel
  obtain rfl := Option.some.inj (hcur.symm.trans hc)
  have hd : parseInt (arg [ascii "HINCRBY", [104], [102], ascii "9223372036854775807"] 3) = some (2 ^ 63 - 1) := by
    decide +kernel
  obtain rfl := Option.some.inj (hp.symm.trans hd)
  exact absurd hf (by decide)

/-- `DECRBY a -9223372036854775808` on no key replies with its own argument. -/
theorem decrby_wraps : ¬ ∀ (env : Env) (argv : List Bytes) (db : Keyspace) (spec : CommandSpec),
    route argv = .ok spec → spec.name ∈ counters → CountsExactly env argv db := by
  intro h
  have hcounts := (h (.quiet 0) [ascii "DECRBY", [97], ascii "-9223372036854775808"] .empty
    ⟨ascii "decrby", Cmd.decrby, 3, true, 1, 1, 1⟩ rfl (by decide)).1
  have hsum : exactSum (oldNumber 0 [ascii "DECRBY", [97], ascii "-9223372036854775808"] .empty)
    (addend [ascii "DECRBY", [97], ascii "-9223372036854775808"]) = none := by decide +kernel
  rw [show (Env.quiet 0).now = 0 from rfl, hsum] at hcounts
  exact absurd hcounts.1 (by decide +kernel)

end BlazeKV
