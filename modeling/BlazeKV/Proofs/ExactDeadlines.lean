import BlazeKV.Proofs.CommandEffects
import BlazeKV.Proofs.Replies
import BlazeKV.Proofs.SetOptions

/-! Deadlines far away. The handlers compute a deadline in 64 bits without looking at the carry,
and `ttl_ms` casts what remains to a signed type. -/

namespace BlazeKV

open Keyspace

/-- The commands that take a deadline. -/
def timers : List Bytes :=
  [ascii "expire", ascii "pexpire", ascii "expireat", ascii "setex", ascii "psetex", ascii "set"]

/-- The unit of a command's deadline, in the words of `SET`, and the text of its number. -/
def timer (argv : List Bytes) : Option (Bytes × Bytes) :=
  let name := lowercase (cmdName argv)
  if name = ascii "set" then Cmd.lastExpire (argv.drop 3)
  else some
    (if name = ascii "pexpire" ∨ name = ascii "psetex" then ascii "px"
     else if name = ascii "expireat" then ascii "exat"
     else ascii "ex", arg argv 2)

section Statement

variable (env : Env) (argv : List Bytes) (db : Keyspace)

/-- The command replies with an error and changes nothing, or its key has exactly the deadline `D`,
and at every later reading `PTTL` replies with what remains of it. -/
def HonoursDeadline (D : ℕ) : Prop :=
  let r := execCore env argv db
  (isError r.reply ∧ r.db = db) ∨
  ((r.db.dict.find (arg argv 1)).isSome ∧ r.db.expires.find (arg argv 1) = some D ∧
    ∀ later : Env, env.now ≤ later.now → (execCore later [ascii "PTTL", arg argv 1] r.db).reply =
      Reply.integer (if later.now < D then (D : ℤ) - later.now else -2))

/-- The command does not take the number, or `SET` another of its options. -/
def refusesNumber (n : ℕ) : Prop :=
  if lowercase (cmdName argv) = ascii "set" then ∀ o, Cmd.setArgs env argv ≠ .ok o else 2 ^ 63 ≤ n

/-- There is a key to expire, or `SET` is not refused by `NX` or `XX`. -/
def setsDeadline : Prop :=
  if lowercase (cmdName argv) = ascii "set" then
    ∀ o, Cmd.setArgs env argv = .ok o → o.refuses (db.peek env.now (arg argv 1)) = false
  else lowercase (cmdName argv) ∈ [ascii "setex", ascii "psetex"] ∨ (db.peek env.now (arg argv 1)).isSome

/-- The live key already has the deadline. -/
def hadDeadline (D : ℕ) : Prop :=
  (db.peek env.now (arg argv 1)).isSome ∧ db.expires.find (arg argv 1) = some D

end Statement

section Pttl

variable {db : Keyspace} {key : Bytes}

theorem pttl_reply {o : Object} {D : ℕ} (hd : db.dict.find key = some o) (he : db.expires.find key = some D) (env : Env) :
    (execCore env [ascii "PTTL", key] db).reply =
      Reply.integer (if env.now < D then i64 (u64 (D - env.now)) else -2) := by
  have hr : route [ascii "PTTL", key] = .ok ⟨ascii "pttl", Cmd.pttl, 2, false, 1, 1, 1⟩ := rfl
  have hdead : db.dead env.now key = decide (D ≤ env.now) := by simp [dead, he]
  have harg : arg [ascii "PTTL", key] 1 = key := rfl
  simp only [execCore, hr, Cmd.pttl, Result.clean_reply, Cmd.ttlMs_snd, harg, live, peek, hdead]
  by_cases h : D ≤ env.now
  · simp [h, not_lt.2 h]
  · simp [h, hd, he, not_le.1 h]

theorem i64_lt (v : ℤ) : i64 v < 2 ^ 63 := by
  have := Int.bmod_lt (x := v) (m := 2 ^ 64) (by decide)
  simpa [i64] using this

theorem i64_u64_of_lt {n : ℕ} (h : n < 2 ^ 63) : i64 (u64 n : ℤ) = n := by
  have hu : u64 n = n := Nat.mod_eq_of_lt (by omega)
  rw [hu]
  exact Int.bmod_eq_of_le (by omega) (by omega)

end Pttl

section Commands

variable {env : Env} {argv : List Bytes} {db : Keyspace} {D n : ℕ}

/-- What is stored has to be the exact deadline, and near enough for a signed remainder. -/
theorem honours_iff (herr : isError (execCore env argv db).reply = false) : HonoursDeadline env argv db D ↔
    ((execCore env argv db).db.dict.find (arg argv 1)).isSome ∧
      (execCore env argv db).db.expires.find (arg argv 1) = some D ∧ D < env.now + 2 ^ 63 := by
  constructor
  · rintro (⟨h, -⟩ | ⟨hd, he, hall⟩)
    · rw [herr] at h
      cases h
    · obtain ⟨o, ho⟩ := Option.isSome_iff_exists.1 hd
      refine ⟨hd, he, ?_⟩
      have hnow := hall env (le_refl _)
      rw [pttl_reply ho he env] at hnow
      have heq := (integer_append_inj (congrArg (· ++ []) hnow)).1
      by_contra hfar
      rw [if_pos (by omega), if_pos (by omega)] at heq
      have := i64_lt (u64 (D - env.now) : ℤ)
      omega
  · rintro ⟨hd, he, hnear⟩
    obtain ⟨o, ho⟩ := Option.isSome_iff_exists.1 hd
    refine .inr ⟨hd, he, fun later hle => ?_⟩
    rw [pttl_reply ho he later]
    split_ifs with hlt
    · rw [i64_u64_of_lt (by omega)]
      congr 1
      omega
    · rfl

/-- The condition under which a deadline is honoured. -/
def Honourable (env : Env) (argv : List Bytes) (db : Keyspace) (n D : ℕ) : Prop :=
  refusesNumber env argv n ∨ D < env.now + 2 ^ 63 ∧
    (setsDeadline env argv db ∧ D < 2 ^ 64 ∨ ¬setsDeadline env argv db ∧ hadDeadline env argv db D)

theorem honours_of_taken (href : ¬refusesNumber env argv n) (herr : isError (execCore env argv db).reply = false)
    (h : (((execCore env argv db).db.dict.find (arg argv 1)).isSome ∧
      (execCore env argv db).db.expires.find (arg argv 1) = some D) ↔
        setsDeadline env argv db ∧ D < 2 ^ 64 ∨ ¬setsDeadline env argv db ∧ hadDeadline env argv db D) :
    HonoursDeadline env argv db D ↔ Honourable env argv db n D := by
  rw [honours_iff herr, Honourable, ← h]
  tauto

theorem refuses_plain (h : lowercase (cmdName argv) ≠ ascii "set") : refusesNumber env argv n ↔ 2 ^ 63 ≤ n := by
  rw [refusesNumber, if_neg h]

theorem u64_eq_iff : u64 D = D ↔ D < 2 ^ 64 := by
  unfold u64
  omega

theorem expireBy_honours (deadline : ℕ → ℕ → ℕ) (hs : lowercase (cmdName argv) ∉ [ascii "set", ascii "setex", ascii "psetex"])
    (hr : ∃ spec, route argv = .ok spec ∧ spec.fn = Cmd.expireBy deadline) (hnum : numeral (arg argv 2) = some n)
    (hD : deadline env.now n = u64 D) : HonoursDeadline env argv db D ↔ Honourable env argv db n D := by
  obtain ⟨spec, hr, hfn⟩ := hr
  simp only [List.mem_cons, List.not_mem_nil, or_false, not_or] at hs
  have hp := parseInt_numeral hnum
  by_cases hlt : n < 2 ^ 63
  · rw [if_pos hlt] at hp
    have hn : (max 0 (n : ℤ)).toNat = n := by omega
    refine honours_of_taken (by rw [refuses_plain hs.1]; omega) ?_ ?_
    · simp only [execCore, hr, hfn, Cmd.expireBy, hp, hn, Cmd.setExpire, existsKey, lookup_snd]
      cases (db.peek env.now (arg argv 1)).isSome <;> rfl
    · simp only [execCore, hr, hfn, Cmd.expireBy, hp, hn, hD, Cmd.setExpire, existsKey, lookup_snd, setsDeadline, hs,
        if_false, List.mem_cons, List.not_mem_nil, or_false, false_or, hadDeadline]
      cases hpeek : db.peek env.now (arg argv 1) with
      | none =>
        simp [lookup_none hpeek]
      | some o =>
        rw [lookup_of_peek _ _ _ _ hpeek]
        simp [find_of_peek _ _ _ _ hpeek, u64_eq_iff]
  · rw [if_neg hlt] at hp
    refine iff_of_true (.inl ?_) (.inl ((refuses_plain hs.1).2 (not_lt.1 hlt)))
    simp only [execCore, hr, hfn, Cmd.expireBy, hp]
    exact ⟨rfl, rfl⟩

theorem setex_honours {spec : CommandSpec} (hr : route argv = .ok spec) (hfn : spec.fn = Cmd.setex)
    (hs : lowercase (cmdName argv) = ascii "setex" ∨ lowercase (cmdName argv) = ascii "psetex")
    (hnum : numeral (arg argv 2) = some n) (hpos : 0 < n)
    (hD : D = if lowercase (cmdName argv) = ascii "psetex" then env.now + n else env.now + n * 1000) :
    HonoursDeadline env argv db D ↔ Honourable env argv db n D := by
  have hp := parseInt_numeral hnum
  have hset : lowercase (cmdName argv) ≠ ascii "set" := by
    rcases hs with hs | hs <;> rw [hs] <;> decide
  have hsets : setsDeadline env argv db := by
    rw [setsDeadline, if_neg hset]
    rcases hs with hs | hs <;> simp [hs]
  by_cases hlt : n < 2 ^ 63
  · rw [if_pos hlt] at hp
    have hle : ¬(n : ℤ) ≤ 0 := by omega
    have hn : toU64 (n : ℤ) = n := toU64_natCast (by omega)
    have hspan : u64 (env.now + if lowercase (cmdName argv) = ascii "psetex" then toU64 (n : ℤ)
        else u64 (toU64 (n : ℤ) * 1000)) = u64 D := by
      rw [hD, hn]
      split_ifs
      · rfl
      · exact u64_add_u64 _ _
    refine honours_of_taken (by rw [refuses_plain hset]; omega) ?_ ?_
    · simp only [execCore, hr, hfn, Cmd.setex, hp, if_neg hle]
      rfl
    · simp only [execCore, hr, hfn, Cmd.setex, hp, if_neg hle, hspan]
      simp [hsets, u64_eq_iff]
  · rw [if_neg hlt] at hp
    refine iff_of_true (.inl ?_) (.inl ((refuses_plain hset).2 (not_lt.1 hlt)))
    simp only [execCore, hr, hfn, Cmd.setex, hp]
    exact ⟨rfl, rfl⟩

/-- What `SET` leaves as a deadline, when the options ask for `D`. -/
theorem setWrite_exact {o : Cmd.SetOpts} {db : Keyspace} {key val : Bytes} (hD : o.deadline = u64 D) (hpos : 0 < D)
    (hdb : ∀ d, db.expires.find key = some d → d < 2 ^ 64) :
    (Cmd.setWrite o db key val).expires.find key = some D ↔ D < 2 ^ 64 := by
  have hu : u64 D = D % 2 ^ 64 := rfl
  unfold Cmd.setWrite
  by_cases h0 : o.deadline = 0
  · have hfar : ¬D < 2 ^ 64 := by omega
    simp only [h0, ne_eq, not_true_eq_false, if_false]
    refine iff_of_false (fun h => hfar ?_) hfar
    have hkept : db.deadlineOrZero key < 2 ^ 64 := by
      unfold deadlineOrZero
      cases he : db.expires.find key with
      | none => simp
      | some d => exact hdb d he
    split_ifs at h <;> simp at h
    all_goals omega
  · simp only [ne_eq, h0, not_false_iff, if_true, find_expires_setDeadline, Option.some.injEq]
    omega

theorem set_honours {spec : CommandSpec} (hr : route argv = .ok spec) (hfn : spec.fn = Cmd.set)
    (hname : lowercase (cmdName argv) = ascii "set") {opt text : Bytes}
    (hlast : Cmd.lastExpire (argv.drop 3) = some (opt, text)) (hnum : numeral text = some n) (hpos : 0 < n)
    (hdb : ∀ d, db.expires.find (arg argv 1) = some d → d < 2 ^ 64) (hD : D = exactDeadline env.now opt n) :
    HonoursDeadline env argv db D ↔ Honourable env argv db n D := by
  cases ho : Cmd.setArgs env argv with
  | error e =>
    refine iff_of_true (.inl ?_) (.inl (by simp [refusesNumber, hname, ho]))
    have he : isError e := Cmd.setOpts_error ho
    unfold Cmd.setArgs at ho
    simp only [execCore, hr, hfn, Cmd.set, ho]
    exact ⟨he, rfl⟩
  | ok o =>
    have hset := Cmd.set_eq ho db
    have hsets : setsDeadline env argv db ↔ o.refuses (db.peek env.now (arg argv 1)) = false := by
      simp [setsDeadline, hname, ho]
    have hrun : (execCore env argv db).db = (Cmd.set env argv db).db ∧
        (execCore env argv db).reply = (Cmd.set env argv db).reply := by
      simp only [execCore, hr, hfn, and_self]
    refine honours_of_taken (by simp [refusesNumber, hname, ho]) ?_ ?_
    · rw [hrun.2, hset]
      cases hlive : o.refuses (db.peek env.now (arg argv 1)) <;> cases o.get <;> simp [Result.marked, Result.clean]
    · rw [hrun.1, hset, hsets]
      cases hlive : o.refuses (db.peek env.now (arg argv 1)) with
      | true =>
        simp only [if_true, Result.clean_db, Bool.true_eq_false, false_and, not_false_iff, true_and, false_or, hadDeadline]
        cases hpeek : db.peek env.now (arg argv 1) with
        | none => simp [lookup_none hpeek]
        | some x =>
          rw [lookup_of_peek _ _ _ _ hpeek]
          simp [find_of_peek _ _ _ _ hpeek]
      | false =>
        have hdl := (Cmd.setArgs_deadline ho hlast hnum).2
        rw [← hD] at hdl
        have hpos' : 0 < D := hD ▸ exactDeadline_pos hpos
        have hkeep : ∀ d, (db.lookup env.now (arg argv 1)).1.expires.find (arg argv 1) = some d → d < 2 ^ 64 := by
          intro d hd
          rw [lookup_find_expires] at hd
          split_ifs at hd
          exact hdb d hd
        have hfound : ((Cmd.setWrite o (db.lookup env.now (arg argv 1)).1 (arg argv 1) (arg argv 2)).dict.find
            (arg argv 1)).isSome := by
          rw [Cmd.setWrite_dict]
          simp
        simp only [Bool.false_eq_true, if_false, Result.marked_db, setWrite_exact hdl hpos' hkeep, hfound, true_and,
          not_true_eq_false, false_and, or_false]

/-- A deadline is exact and `PTTL` tells it, unless it is out of reach: the milliseconds leave the
64 bits, or are further away than a signed number says; or there is nothing to set it on. -/
theorem deadline_honoured_iff {spec : CommandSpec} {opt text : Bytes} (hr : route argv = .ok spec)
    (hn : spec.name ∈ timers) (ht : timer argv = some (opt, text)) (hnum : numeral text = some n) (hpos : 0 < n)
    (hdb : ∀ k d, db.expires.find k = some d → d < 2 ^ 64) :
    HonoursDeadline env argv db (exactDeadline env.now opt n) ↔
      refusesNumber env argv n ∨ exactDeadline env.now opt n < env.now + 2 ^ 63 ∧
        (setsDeadline env argv db ∧ exactDeadline env.now opt n < 2 ^ 64 ∨
          ¬setsDeadline env argv db ∧ hadDeadline env argv db (exactDeadline env.now opt n)) := by
  have hname : lowercase (cmdName argv) = spec.name := ((find_mem (route_ok hr).1).2).symm
  simp only [timers, List.mem_cons, List.not_mem_nil, or_false] at hn
  rcases hn with hn | hn | hn | hn | hn | hn <;> rw [hn] at hname <;> have hspec := route_spec hr hn rfl <;>
    simp +decide only [timer, hname, if_true, if_false, Option.some.injEq, Prod.mk.injEq, or_false, or_true, or_self] at ht
  · obtain ⟨rfl, rfl⟩ := ht
    refine expireBy_honours (fun now secs => u64 (now + u64 (secs * 1000))) (by rw [hname]; decide)
      ⟨spec, hr, by rw [hspec]; rfl⟩ hnum ?_
    exact u64_add_u64 _ _
  · obtain ⟨rfl, rfl⟩ := ht
    exact expireBy_honours (fun now ms => u64 (now + ms)) (by rw [hname]; decide)
      ⟨spec, hr, by rw [hspec]; rfl⟩ hnum rfl
  · obtain ⟨rfl, rfl⟩ := ht
    exact expireBy_honours (fun _ at' => u64 (at' * 1000)) (by rw [hname]; decide)
      ⟨spec, hr, by rw [hspec]; rfl⟩ hnum rfl
  · obtain ⟨rfl, rfl⟩ := ht
    exact setex_honours hr (by rw [hspec]) (.inl hname) hnum hpos (by simp +decide [hname, exactDeadline])
  · obtain ⟨rfl, rfl⟩ := ht
    exact setex_honours hr (by rw [hspec]) (.inr hname) hnum hpos (by simp +decide [hname, exactDeadline])
  · exact set_honours hr (by rw [hspec]) hname ht hnum hpos (fun d => hdb _ d) rfl

end Commands

/-- `SET a b EX 10` at the reading 5. -/
theorem deadline_honoured_set : HonoursDeadline (.quiet 5) [ascii "SET", [97], [98], ascii "EX", ascii "10"] .empty 10005 := by
  have hr : route [ascii "SET", [97], [98], ascii "EX", ascii "10"] = .ok ⟨ascii "set", Cmd.set, -3, true, 1, 1, 1⟩ := rfl
  have ho : Cmd.setArgs (.quiet 5) [ascii "SET", [97], [98], ascii "EX", ascii "10"] = .ok ⟨10005, false, false, false, false⟩ := by
    rfl
  have ht : timer [ascii "SET", [97], [98], ascii "EX", ascii "10"] = some (ascii "ex", ascii "10") := by decide
  have hn : numeral (ascii "10") = some 10 := by decide
  refine (deadline_honoured_iff hr (by decide) ht hn (by decide) (by simp)).2
    (.inr ⟨by decide, .inl ⟨?_, by decide⟩⟩)
  intro o ho'
  obtain rfl := Except.ok.inj (ho.symm.trans ho')
  decide +kernel

/-- `SETEX a 9223372036854775807 b` at the reading 5 sets a deadline of 18446744073709550621. -/
theorem setex_deadline_wraps : ¬ ∀ (env : Env) (argv : List Bytes) (db : Keyspace) (spec : CommandSpec)
    (opt text : Bytes) (n : ℕ), route argv = .ok spec → spec.name ∈ timers → timer argv = some (opt, text) →
      numeral text = some n → 0 < n → (∀ k d, db.expires.find k = some d → d < 2 ^ 64) →
        HonoursDeadline env argv db (exactDeadline env.now opt n) := by
  intro h
  have hhon := h (.quiet 5) [ascii "SETEX", [97], ascii "9223372036854775807", [98]] .empty
    ⟨ascii "setex", Cmd.setex, 4, true, 1, 1, 1⟩ (ascii "ex") (ascii "9223372036854775807") 9223372036854775807
    rfl (by decide) rfl (by decide +kernel) (by decide) (by simp)
  rcases hhon with ⟨h, -⟩ | ⟨-, h, -⟩
  · exact absurd h (by decide +kernel)
  · exact absurd h (by decide +kernel)

end BlazeKV
