import BlazeKV.Proofs.ExactDeadlines

/-! `SET` with any options on any key. `NX` looks for a string only. -/

namespace BlazeKV

open Keyspace

/-- A positive number is written in digits. -/
theorem numeral_of_pos {s : Bytes} {n : ℤ} (h : parseInt s = some n) (hpos : 0 < n) : numeral s = some n.toNat := by
  cases s with
  | nil => cases h
  | cons c s =>
    simp only [parseInt] at h
    by_cases hc : c = 45
    · simp only [hc, if_true] at h
      split_ifs at h
      obtain rfl := Option.some.inj h
      omega
    · simp only [hc, if_false] at h
      split_ifs at h with hs
      obtain rfl := Option.some.inj h
      rw [numeral, if_pos ⟨hs.1, hs.2.1⟩, Int.toNat_natCast]

namespace Cmd

variable (env : Env) (argv : List Bytes) (db : Keyspace)

/-- The deadline that the options give, exactly. -/
def givenDeadline : Option ℕ :=
  (lastExpire (argv.drop 3)).bind fun e => (numeral e.2).map (exactDeadline env.now e.1)

/-- A flag is among the options. -/
def hasWord (w : Bytes) : Bool := w ∈ optionWords (argv.drop 3)

/-- `NX` finds a key, or `XX` finds none. -/
def mustRefuse : Bool :=
  (hasWord argv (ascii "nx") && (db.peek env.now (arg argv 1)).isSome) ||
    (hasWord argv (ascii "xx") && (db.peek env.now (arg argv 1)).isNone)

/-- What `SET` has to do with options that it accepts. -/
structure SetObeys : Prop where
  nx : hasWord argv (ascii "nx") → (db.peek env.now (arg argv 1)).isSome →
    (execCore env argv db).db.live env.now (arg argv 1) = db.live env.now (arg argv 1)
  xx : hasWord argv (ascii "xx") →
    ∀ k, ((execCore env argv db).db.live env.now k).isSome → (db.live env.now k).isSome
  writes : mustRefuse env argv db = false →
    (execCore env argv db).db.dict.find (arg argv 1) = some (.string (arg argv 2)) ∧
    (execCore env argv db).db.expires.find (arg argv 1) = (givenDeadline env argv <|>
      if hasWord argv (ascii "keepttl") then (db.live env.now (arg argv 1)).bind Prod.snd else none)
  get : hasWord argv (ascii "get") →
    (execCore env argv db).reply = replyOpt ((db.peek env.now (arg argv 1)).bind Object.string?)

/-- `NX` meets a live key that holds no string. -/
def nxMeetsOther : Bool :=
  hasWord argv (ascii "nx") && (db.peek env.now (arg argv 1)).any fun o => o.string?.isNone

variable {env argv db} {o : SetOpts}

theorem flags_of (h : setArgs env argv = .ok o) : hasWord argv (ascii "nx") = o.nx ∧ hasWord argv (ascii "xx") = o.xx ∧
    hasWord argv (ascii "keepttl") = o.keepttl ∧ hasWord argv (ascii "get") = o.get :=
  ⟨(setArgs_flag h (by decide)).symm, (setArgs_flag h (by decide)).symm, (setArgs_flag h (by decide)).symm,
    (setArgs_flag h (by decide)).symm⟩

/-- The handler refuses what it has to, but for `NX` on a key that holds no string. -/
theorem refuses_iff (h : setArgs env argv = .ok o) (hnx : nxMeetsOther env argv db = false) :
    o.refuses (db.peek env.now (arg argv 1)) = mustRefuse env argv db := by
  obtain ⟨h1, h2, -, -⟩ := flags_of h
  simp only [nxMeetsOther, mustRefuse, SetOpts.refuses, h1, h2] at hnx ⊢
  cases hp : db.peek env.now (arg argv 1) with
  | none => simp
  | some x => cases hs : x.string? <;> simp_all

/-- The deadline of the options, as it is stored. -/
theorem given_stored (h : setArgs env argv = .ok o) :
    (givenDeadline env argv = none ∧ o.deadline = 0) ∨
      ∃ D, givenDeadline env argv = some D ∧ 0 < D ∧ o.deadline = u64 D := by
  cases (setOpts_spec h).1 with
  | none hl hd => exact .inl ⟨by simp [givenDeadline, hl], hd⟩
  | some opt text n hl hopt hn hpos hd =>
    have hnum := numeral_of_pos hn hpos
    refine .inr ⟨exactDeadline env.now opt n.toNat, by simp [givenDeadline, hl, hnum], exactDeadline_pos (by omega), ?_⟩
    exact (setArgs_deadline h hl hnum).2

/-- The deadline after the write: the given one modulo `2 ^ 64`, unless that is zero. -/
theorem setWrite_expires (o : SetOpts) (db : Keyspace) (key val : Bytes) :
    (setWrite o db key val).expires.find key =
      if o.deadline ≠ 0 then some o.deadline
      else if o.keepttl ∧ db.deadlineOrZero key ≠ 0 then some (db.deadlineOrZero key) else none := by
  unfold setWrite
  by_cases h0 : o.deadline = 0
  · by_cases hk : o.keepttl
    · by_cases hz : db.deadlineOrZero key = 0 <;> simp [h0, hk, hz]
    · simp [h0, hk]
  · simp [h0]

/-- What a live key keeps under `KEEPTTL`. -/
theorem kept_deadline {env : Env} {argv : List Bytes} {db : Keyspace} (hlive : (db.peek env.now (arg argv 1)).isSome) :
    (if db.deadlineOrZero (arg argv 1) ≠ 0 then some (db.deadlineOrZero (arg argv 1)) else none) =
      (db.live env.now (arg argv 1)).bind Prod.snd := by
  obtain ⟨x, hx⟩ := Option.isSome_iff_exists.1 hlive
  have hl : db.live env.now (arg argv 1) = some (x, db.expires.find (arg argv 1)) := by simp [live, hx]
  cases he : db.expires.find (arg argv 1) with
  | none => simp [hl, he, deadlineOrZero]
  | some d =>
    have hpos : 0 < d := deadline_pos (by rw [hl, he])
    simp [hl, he, deadlineOrZero, hpos.ne']

/-- A key with no value still has a deadline, and `KEEPTTL` keeps it. -/
def takesOrphan (env : Env) (argv : List Bytes) (db : Keyspace) : Bool :=
  givenDeadline env argv = none && hasWord argv (ascii "keepttl") &&
    ((db.dict.find (arg argv 1)).isNone && db.deadlineOrZero (arg argv 1) ≠ 0)

/-- What `KEEPTTL` keeps for a key that is not live. -/
theorem orphan_deadline (hp : db.peek env.now (arg argv 1) = none) :
    (db.lookup env.now (arg argv 1)).1.deadlineOrZero (arg argv 1) =
      if (db.dict.find (arg argv 1)).isNone then db.deadlineOrZero (arg argv 1) else 0 := by
  simp only [deadlineOrZero, lookup_find_expires]
  cases hd : db.dict.find (arg argv 1) with
  | none => simp
  | some x =>
    have hdead : db.dead env.now (arg argv 1) = true := by
      by_contra hn
      simp [peek, hd, hn] at hp
    simp [hdead]

section Run

variable {spec : CommandSpec}

theorem set_run (hr : route argv = .ok spec) (hn : spec.name = ascii "set") (env : Env) (db : Keyspace) :
    (execCore env argv db).db = (set env argv db).db ∧ (execCore env argv db).reply = (set env argv db).reply := by
  have hspec := route_spec hr hn rfl
  simp only [execCore, hr, hspec, and_self]

/-- A refused `SET` does what it has to. -/
theorem obeys_of_refused (hr : route argv = .ok spec) (hn : spec.name = ascii "set") (ho : setArgs env argv = .ok o)
    (hnx : nxMeetsOther env argv db = false) (href : mustRefuse env argv db) : SetObeys env argv db := by
  have hset := set_eq ho db
  rw [refuses_iff ho hnx, if_pos href] at hset
  obtain ⟨hdb, hreply⟩ := set_run hr hn env db
  rw [hset, Result.clean_db] at hdb
  rw [hset, Result.clean_reply] at hreply
  constructor
  · intro _ _
    rw [hdb, live_lookup]
  · intro _ k hk
    rwa [hdb, live_lookup] at hk
  · intro hno
    simp [href] at hno
  · intro hget
    rw [hreply, ← (flags_of ho).2.2.2, hget, if_pos rfl]

/-- The deadline after a `SET` that is not refused is the one asked for, unless that leaves 64 bits
or is left over from another key. -/
theorem deadline_iff (ho : setArgs env argv = .ok o) (hdb : ∀ k d, db.expires.find k = some d → d < 2 ^ 64) :
    (setWrite o (db.lookup env.now (arg argv 1)).1 (arg argv 1) (arg argv 2)).expires.find (arg argv 1) =
        (givenDeadline env argv <|> if hasWord argv (ascii "keepttl") then (db.live env.now (arg argv 1)).bind Prod.snd
          else none) ↔
      (∀ D, givenDeadline env argv = some D → D < 2 ^ 64) ∧ takesOrphan env argv db = false := by
  rcases given_stored ho with ⟨hg, h0⟩ | ⟨D, hg, hpos, hD⟩
  · rw [setWrite_expires, hg]
    simp only [h0, ne_eq, not_true_eq_false, if_false, takesOrphan, hg, (flags_of ho).2.2.1]
    cases hp : db.peek env.now (arg argv 1) with
    | some x =>
      have hsome : (db.peek env.now (arg argv 1)).isSome := by simp [hp]
      have hk := kept_deadline hsome
      rw [lookup_of_peek _ _ _ _ hp, ← hk]
      cases o.keepttl <;> simp [find_of_peek _ _ _ _ hp]
    | none =>
      rw [orphan_deadline hp]
      have hl : db.live env.now (arg argv 1) = none := by simp [live, hp]
      simp only [hl]
      cases o.keepttl <;> cases hd : (db.dict.find (arg argv 1)).isNone <;> simp
  · have hkeep : ∀ d, (db.lookup env.now (arg argv 1)).1.expires.find (arg argv 1) = some d → d < 2 ^ 64 := by
      intro d hd
      rw [lookup_find_expires] at hd
      split_ifs at hd
      exact hdb _ d hd
    simpa [hg, takesOrphan] using @setWrite_exact D o _ _ (arg argv 2) hD hpos hkeep

/-- An accepted `SET` that is not refused. -/
theorem obeys_of_written (hr : route argv = .ok spec) (hn : spec.name = ascii "set") (ho : setArgs env argv = .ok o)
    (hnx : nxMeetsOther env argv db = false) (href : mustRefuse env argv db = false)
    (hdb : ∀ k d, db.expires.find k = some d → d < 2 ^ 64) : SetObeys env argv db ↔
      (∀ D, givenDeadline env argv = some D → D < 2 ^ 64) ∧ takesOrphan env argv db = false := by
  have hset := set_eq ho db
  rw [refuses_iff ho hnx, href] at hset
  obtain ⟨hdb', hreply⟩ := set_run hr hn env db
  rw [hset] at hdb' hreply
  simp only [Bool.false_eq_true, if_false, Result.marked_db, Result.marked_reply] at hdb' hreply
  rw [← deadline_iff ho hdb, ← hdb']
  constructor
  · exact fun h => (h.writes href).2
  · intro hdl
    refine ⟨fun h hp => ?_, fun h k hk => ?_, fun _ => ⟨?_, hdl⟩, fun h => ?_⟩
    · simp [mustRefuse, h, hp] at href
    · by_cases hk' : k = arg argv 1
      · subst hk'
        have hboth : (hasWord argv (ascii "nx") → db.peek env.now (arg argv 1) = none) ∧
            (hasWord argv (ascii "xx") → (db.peek env.now (arg argv 1)).isSome) := by
          simpa [mustRefuse] using href
        simpa [live] using hboth.2 h
      · have htame : Tame (· = arg argv 1) env.now db (set env argv db) := set_tame db env argv rfl
        have honly := htame.only k hk'
        rw [(set_run hr hn env db).1, live_congr honly.1 honly.2] at hk
        exact hk
    · rw [hdb', setWrite_dict]
      simp
    · rw [hreply, ← (flags_of ho).2.2.2, h, if_pos rfl]

/-- With `NX` on a live key of another type the key is overwritten all the same. -/
theorem nx_overwrites (hr : route argv = .ok spec) (hn : spec.name = ascii "set") (ho : setArgs env argv = .ok o)
    (hnx : nxMeetsOther env argv db) : ¬SetObeys env argv db := by
  intro h
  simp only [nxMeetsOther, Bool.and_eq_true, Option.any_eq_true, Option.isNone_iff_eq_none] at hnx
  obtain ⟨hw, x, hp, hx⟩ := hnx
  have hset := set_eq ho db
  have href : o.refuses (db.peek env.now (arg argv 1)) = false := by simp [SetOpts.refuses, hp, hx]
  rw [href] at hset
  have hkept := h.nx hw (by simp [hp])
  rw [(set_run hr hn env db).1, hset] at hkept
  have hpeek := find_of_peek _ _ _ _ ((peek_of_live_eq hkept).trans hp)
  simp only [Bool.false_eq_true, if_false, Result.marked_db, setWrite_dict, find_dict_set, if_true] at hpeek
  obtain rfl := Option.some.inj hpeek
  cases hx

/-- `SET` does what its options ask for exactly when `NX` does not meet a live key of another type and,
unless it has to refuse, the deadline fits 64 bits and none is left over from a key without a value. -/
theorem set_obeys_iff (hr : route argv = .ok spec) (hn : spec.name = ascii "set") (ho : setArgs env argv = .ok o)
    (hdb : ∀ k d, db.expires.find k = some d → d < 2 ^ 64) : SetObeys env argv db ↔
      nxMeetsOther env argv db = false ∧ (mustRefuse env argv db ∨
        (∀ D, givenDeadline env argv = some D → D < 2 ^ 64) ∧ takesOrphan env argv db = false) := by
  cases hnx : nxMeetsOther env argv db with
  | true => exact iff_of_false (nx_overwrites hr hn ho hnx) (by simp)
  | false =>
    cases href : mustRefuse env argv db with
    | true => exact iff_of_true (obeys_of_refused hr hn ho hnx href) ⟨rfl, .inl rfl⟩
    | false => simp [obeys_of_written hr hn ho hnx href hdb]

end Run

/-- `set a b PX 10 GET keepttl` on a string. -/
theorem set_obeys_px : SetObeys (.quiet 5) [ascii "set", [97], [98], ascii "PX", ascii "10", ascii "GET", ascii "keepttl"]
    ((Keyspace.empty.set [97] (.string [99])).setDeadline [97] 7) := by
  have hr : route [ascii "set", [97], [98], ascii "PX", ascii "10", ascii "GET", ascii "keepttl"] =
    .ok ⟨ascii "set", Cmd.set, -3, true, 1, 1, 1⟩ := rfl
  have ho : setArgs (.quiet 5) [ascii "set", [97], [98], ascii "PX", ascii "10", ascii "GET", ascii "keepttl"] =
    .ok ⟨15, false, false, true, true⟩ := rfl
  refine (set_obeys_iff hr rfl ho ?_).2 ⟨by decide, .inr ⟨?_, by decide⟩⟩
  · intro k d hd
    simp only [find_expires_setDeadline, find_expires_set, find_expires_empty, ite_self] at hd
    split_ifs at hd
    obtain rfl := Option.some.inj hd
    decide
  · intro D hD
    have hg : givenDeadline (.quiet 5) [ascii "set", [97], [98], ascii "PX", ascii "10", ascii "GET", ascii "keepttl"] =
      some 15 := by decide
    obtain rfl := Option.some.inj (hg.symm.trans hD)
    decide

/-- `set a b NX` on a list puts the string in its place. -/
theorem set_nx_replaces_list : ¬ ∀ (env : Env) (argv : List Bytes) (db : Keyspace) (spec : CommandSpec) (o : SetOpts),
    route argv = .ok spec → spec.name = ascii "set" → setArgs env argv = .ok o →
      (∀ k d, db.expires.find k = some d → d < 2 ^ 64) → SetObeys env argv db := by
  intro h
  have hob := h (.quiet 5) [ascii "set", [97], [98], ascii "NX"] (Keyspace.empty.set [97] (.list [[120]]))
    ⟨ascii "set", Cmd.set, -3, true, 1, 1, 1⟩ ⟨0, true, false, false, false⟩ rfl rfl rfl (by simp)
  have hkept := hob.nx (by decide) (by decide +kernel)
  exact absurd (congrArg (Option.map fun e => e.1.string?) hkept) (by decide +kernel)

end Cmd

end BlazeKV
