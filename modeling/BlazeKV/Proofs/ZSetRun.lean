import BlazeKV.Lib.Machine
import BlazeKV.Proofs.KeyspaceOps
import BlazeKV.Proofs.ZSetAgree
import BlazeKV.Spec.Registry

/-! Runs of `ZADD`, `ZINCRBY` and `ZREM`. The two structures of every sorted set
agree unless a NaN is stored: by a score that reads `nan`, or by an increment that
adds opposite infinities. -/

namespace BlazeKV

open Cmd

/-- Every sorted set of a keyspace is coherent. -/
def GoodObject : Object → Prop
  | .zset z => z.Coherent
  | _ => True

theorem good_of_zset? {o : Object} (h : GoodObject o) {z : ZSet} (hz : o.zset? = some z) :
    z.Coherent := by
  cases o with
  | zset z' => exact Option.some.inj hz ▸ h
  | _ => exact absurd hz (by simp [Object.zset?])

def opposite (x y : Double) : Prop := x.isInf = true ∧ y.isInf = true ∧ x.negative ≠ y.negative

instance (x y : Double) : Decidable (opposite x y) :=
  inferInstanceAs (Decidable (x.isInf = true ∧ y.isInf = true ∧ x.negative ≠ y.negative))

/-- A round of `ZADD` stores a number, if it stores a score at all. -/
def Numeric (f : ZAddFlags) (z : ZSet) (score : Double) (member : Bytes) : Prop :=
  match z.dict.find member with
  | none => f.xx = true ∨ score.isNaN = false
  | some cur => f.nx = true ∨ (score.isNaN = false ∧ (f.incr = true → ¬ opposite score cur))

instance (f : ZAddFlags) (z : ZSet) (score : Double) (member : Bytes) :
    Decidable (Numeric f z score member) := by
  unfold Numeric
  split <;> infer_instance

/-- Every round of a `ZADD` that is reached is numeric in the state it meets. -/
def NumericLoop (f : ZAddFlags) (levels : Levels) : ZAddState → List (Bytes × Bytes) → Prop
  | _, [] => True
  | st, (s, member) :: rest =>
    match parseDouble s with
    | none => True
    | some score =>
      Numeric f st.z score member ∧ NumericLoop f levels (zaddRound f levels st score member) rest

instance NumericLoop.decidable (f : ZAddFlags) (levels : Levels) :
    ∀ st pairs, Decidable (NumericLoop f levels st pairs)
  | _, [] => inferInstanceAs (Decidable True)
  | st, (s, member) :: rest => by
    unfold NumericLoop
    cases parseDouble s with
    | none => exact inferInstanceAs (Decidable True)
    | some score =>
      have := NumericLoop.decidable f levels (zaddRound f levels st score member) rest
      exact inferInstanceAs (Decidable (_ ∧ _))

section Rounds

variable {f : ZAddFlags} {levels : Levels} {st : ZAddState} {score : Double} {member : Bytes}

theorem isNaN_add_false {x y : Double} (hx : x.isNaN = false) (hy : y.isNaN = false)
    (h : ¬ opposite x y) : (x.add y).isNaN = false := by
  rw [← Bool.not_eq_true, Lib.Binary64.isNaN_add]
  rintro (h' | h' | h')
  · simp [hx] at h'
  · simp [hy] at h'
  · exact h h'

theorem ZSet.Coherent.number {z : ZSet} (h : z.Coherent) {cur : Double}
    (hcur : z.dict.find member = some cur) : cur.isNaN = false := by
  obtain ⟨xs, hR, hd⟩ := h
  exact hR.number _ ((hd member cur).1 hcur)

theorem isInf_zero : Lib.Binary64.zero.isInf = false := by decide

theorem zaddRound_coherent (h : st.z.Coherent) (hn : Numeric f st.z score member) :
    (zaddRound f levels st score member).z.Coherent := by
  unfold Numeric at hn
  unfold zaddRound
  cases hcur : st.z.dict.find member with
  | none =>
    rw [hcur] at hn
    dsimp only
    by_cases hxx : f.xx = true
    · simpa [hxx] using h
    have hs := hn.resolve_left hxx
    have hnum : (if f.incr = true then score.add .zero else score).isNaN = false := by
      split_ifs
      · exact isNaN_add_false hs Lib.Binary64.isNaN_zero (by simp [opposite, isInf_zero])
      · exact hs
    rw [if_neg hxx]
    exact h.set hnum
  | some cur =>
    rw [hcur] at hn
    dsimp only at hn ⊢
    by_cases hnx : f.nx = true
    · simpa [hnx] using h
    obtain ⟨hs, hopp⟩ := hn.resolve_left hnx
    have hnum : (if f.incr = true then score.add cur else score).isNaN = false := by
      split_ifs with hi
      · exact isNaN_add_false hs (h.number hcur) (hopp hi)
      · exact hs
    rw [if_neg hnx]
    generalize (if f.incr = true then score.add cur else score) = v at hnum ⊢
    split_ifs
    · exact h
    · exact h
    · exact h
    · exact h.set hnum

theorem zaddLoop_coherent (pairs : List (Bytes × Bytes)) (h : st.z.Coherent)
    (hn : NumericLoop f levels st pairs) : (zaddLoop f levels st pairs).1.z.Coherent := by
  induction pairs generalizing st with
  | nil => exact h
  | cons p rest ih =>
    obtain ⟨s, member⟩ := p
    unfold NumericLoop at hn
    unfold zaddLoop
    cases hs : parseDouble s with
    | none => exact h
    | some score =>
      rw [hs] at hn
      exact ih (zaddRound_coherent h hn.1) hn.2

theorem countLoop_remove_coherent {z : ZSet} (ms : List Bytes) (h : z.Coherent) :
    (countLoop ZSet.remove z ms).1.Coherent := by
  unfold countLoop
  generalize 0 = n
  induction ms generalizing z n with
  | nil => exact h
  | cons m ms ih => exact ih h.remove _

end Rounds

section Commands

variable {env : Env} {argv : List Bytes} {db : Keyspace}

/-- The sorted set that `ZADD` and `ZINCRBY` find or make. -/
def zsetAt (env : Env) (argv : List Bytes) (db : Keyspace) : Option ZSet :=
  (makeZSet db env.now (arg argv 1)).2

def noFlags : ZAddFlags := ⟨false, false, false, false, false, false⟩

def NumericZAdd (env : Env) (argv : List Bytes) (db : Keyspace) : Prop :=
  let (f, rest) := zaddFlags noFlags (argv.drop 2)
  rest.length % 2 = 0 → ∀ z ∈ zsetAt env argv db,
    NumericLoop f env.levels ⟨z, 0, 0, none⟩ (pairs rest)

def NumericZIncrBy (env : Env) (argv : List Bytes) (db : Keyspace) : Prop :=
  ∀ delta ∈ parseDouble (arg argv 2), ∀ z ∈ zsetAt env argv db,
    Numeric { noFlags with incr := true } z delta (arg argv 3)

/-- The condition on one command: no score that it would store is `nan`, and no
increment meets the opposite infinity. -/
def NumericStep (db : Keyspace) (c : Env × List Bytes) : Prop :=
  match route c.2 with
  | .error _ => True
  | .ok spec =>
    if spec.name = ascii "zadd" then NumericZAdd c.1 c.2 db
    else if spec.name = ascii "zincrby" then NumericZIncrBy c.1 c.2 db
    else True

instance (env : Env) (argv : List Bytes) (db : Keyspace) : Decidable (NumericZAdd env argv db) := by
  unfold NumericZAdd
  split
  infer_instance

instance (env : Env) (argv : List Bytes) (db : Keyspace) : Decidable (NumericZIncrBy env argv db) :=
  inferInstanceAs (Decidable (∀ delta ∈ parseDouble (arg argv 2), _))

instance (db : Keyspace) : DecidablePred (NumericStep db) := by
  intro c
  unfold NumericStep
  split <;> infer_instance

def ZSetCommand (argv : List Bytes) : Prop :=
  lowercase (cmdName argv) ∈ [ascii "zadd", ascii "zincrby", ascii "zrem"]

instance : DecidablePred ZSetCommand := fun argv =>
  inferInstanceAs (Decidable (lowercase (cmdName argv) ∈ _))

theorem zsetAt_coherent (h : db.All GoodObject) {z : ZSet} (hz : zsetAt env argv db = some z) :
    z.Coherent := by
  rcases getOrMake_snd_all h hz with rfl | ⟨o, ho, hv⟩
  · exact ZSet.coherent_empty
  · exact good_of_zset? ho hv

theorem makeZSet_all (h : db.All GoodObject) :
    (makeZSet db env.now (arg argv 1)).1.All GoodObject :=
  getOrMake_fst_all h ZSet.coherent_empty

theorem zadd_good (h : db.All GoodObject) (hn : NumericZAdd env argv db) :
    (zadd env argv db).db.All GoodObject := by
  unfold zadd
  unfold NumericZAdd noFlags at hn
  generalize zaddFlags ⟨false, false, false, false, false, false⟩ (argv.drop 2) = r at hn ⊢
  obtain ⟨f, rest⟩ := r
  dsimp only at hn ⊢
  have hdb : (makeZSet db env.now (arg argv 1)).1.All GoodObject := makeZSet_all h
  have hz : ∀ z, zsetAt env argv db = some z → z.Coherent := fun z => zsetAt_coherent h
  unfold zsetAt at hn hz
  by_cases hrest : rest = [] ∨ rest.length % 2 ≠ 0
  · rw [if_pos hrest]
    exact h
  rw [if_neg hrest]
  rw [not_or, not_not] at hrest
  generalize makeZSet db env.now (arg argv 1) = m at hn hdb hz ⊢
  obtain ⟨db', _ | z⟩ := m
  · exact hdb
  have hc := zaddLoop_coherent _ (hz z rfl) (hn hrest.2 z rfl)
  dsimp only
  generalize zaddLoop f env.levels ⟨z, 0, 0, none⟩ (pairs rest) = st at hc ⊢
  have hw : (db'.write (arg argv 1) (.zset st.1.z)).All GoodObject := Keyspace.All.write hdb hc
  split_ifs
  · exact hw
  · exact Keyspace.All.erase hw
  · exact hw

theorem zincrby_good (h : db.All GoodObject) (hn : NumericZIncrBy env argv db) :
    (zincrby env argv db).db.All GoodObject := by
  unfold zincrby
  unfold NumericZIncrBy at hn
  have hdb : (makeZSet db env.now (arg argv 1)).1.All GoodObject := makeZSet_all h
  have hz : ∀ z, zsetAt env argv db = some z → z.Coherent := fun z => zsetAt_coherent h
  unfold zsetAt at hn hz
  cases hs : parseDouble (arg argv 2) with
  | none => exact h
  | some delta =>
    replace hn := hn delta hs
    dsimp only
    generalize makeZSet db env.now (arg argv 1) = m at hn hdb hz ⊢
    obtain ⟨db', _ | z⟩ := m
    · exact hdb
    have hc := hz z rfl
    have hnum := hn z rfl
    refine Keyspace.All.write hdb (hc.set ?_)
    unfold Numeric at hnum
    cases hcur : z.dict.find (arg argv 3) with
    | none =>
      rw [hcur] at hnum
      refine isNaN_add_false Lib.Binary64.isNaN_zero (hnum.resolve_left (by simp [noFlags])) ?_
      simp [opposite, isInf_zero]
    | some cur =>
      rw [hcur] at hnum
      obtain ⟨hd, hopp⟩ := hnum.resolve_left (by simp [noFlags])
      refine isNaN_add_false (hc.number hcur) hd fun ⟨h1, h2, h3⟩ => hopp rfl ⟨h2, h1, h3.symm⟩

theorem zrem_good (h : db.All GoodObject) : (zrem env argv db).db.All GoodObject := by
  unfold zrem getZSet
  have hdb : (getAs Object.zset? db env.now (arg argv 1)).1.All GoodObject := by
    rw [getAs_fst]
    exact h.lookup
  have hz : ∀ z, (getAs Object.zset? db env.now (arg argv 1)).2 = .present z →
      ∃ o, db.peek env.now (arg argv 1) = some o ∧ o.zset? = some z := fun z => getAs_present
  generalize getAs Object.zset? db env.now (arg argv 1) = m at hdb hz ⊢
  obtain ⟨db', found⟩ := m
  cases found with
  | absent => exact hdb
  | wrongType => exact hdb
  | present z =>
    obtain ⟨o, ho, hv⟩ := hz z rfl
    have hc := good_of_zset? (h _ o (db.find_of_peek _ _ o ho)) hv
    have hr := countLoop_remove_coherent (argv.drop 2) hc
    dsimp only
    generalize countLoop ZSet.remove z (argv.drop 2) = r at hr ⊢
    have hw : (db'.write (arg argv 1) (.zset r.1)).All GoodObject := Keyspace.All.write hdb hr
    split_ifs
    · exact Keyspace.All.erase hw
    · exact hw

theorem execCore_good (hc : ZSetCommand argv) (h : db.All GoodObject)
    (hn : NumericStep db (env, argv)) : (execCore env argv db).db.All GoodObject := by
  rw [execCore_db, execReplay]
  unfold NumericStep at hn
  cases hr : route argv with
  | error e => exact h
  | ok spec =>
    simp only [hr] at hn ⊢
    obtain ⟨hf, -⟩ := route_ok hr
    simp only [ZSetCommand, List.mem_cons, List.not_mem_nil, or_false] at hc
    rcases hc with hc | hc | hc <;> rw [hc] at hf
    · obtain rfl : (⟨ascii "zadd", zadd, -4, true, 1, 1, 1⟩ : CommandSpec) = spec := Option.some.inj hf
      exact zadd_good h hn
    · obtain rfl : (⟨ascii "zincrby", zincrby, 4, true, 1, 1, 1⟩ : CommandSpec) = spec :=
        Option.some.inj hf
      exact zincrby_good h hn
    · obtain rfl : (⟨ascii "zrem", zrem, -3, true, 1, 1, 1⟩ : CommandSpec) = spec :=
        Option.some.inj hf
      exact zrem_good h

end Commands

theorem run_good {db : Keyspace} (cmds : List (Env × List Bytes)) (hz : ∀ c ∈ cmds, ZSetCommand c.2)
    (h : db.All GoodObject) (hok : Lib.RunOk execStep NumericStep db cmds) :
    (Lib.runTotal execStep db cmds).1.All GoodObject := by
  induction cmds generalizing db with
  | nil => exact h
  | cons c cmds ih =>
    have hstep := execCore_good (hz c List.mem_cons_self) h hok.1
    exact ih (fun c hc => hz c (List.mem_cons_of_mem _ hc)) hstep hok.2

/-- In a run whose commands all meet the condition, every sorted set holds the same
pairs in both structures. -/
theorem zset_structures_agree (cmds : List (Env × List Bytes)) (hz : ∀ c ∈ cmds, ZSetCommand c.2)
    (hok : Lib.RunOk execStep NumericStep .empty cmds) (k : Bytes) (z : ZSet)
    (hk : (Lib.runTotal execStep .empty cmds).1.dict.find k = some (.zset z)) : z.Agree :=
  (run_good cmds hz Keyspace.all_empty hok k _ hk : z.Coherent).agree

theorem zset_structures_agree_run :
    ∃ z, (Lib.runTotal execStep .empty
      [(.quiet 0, [ascii "ZADD", [122], ascii "CH", ascii "1", [97], ascii "-2.5", [98]]),
       (.quiet 1, [ascii "ZINCRBY", [122], ascii "inf", [97]]),
       (.quiet 2, [ascii "ZREM", [122], [98]])]).1.dict.find [122] = some (.zset z) ∧ z.Agree := by
  obtain ⟨o, ho⟩ := Option.isSome_iff_exists.1 (by decide +kernel : (((Lib.runTotal execStep .empty
      [(.quiet 0, [ascii "ZADD", [122], ascii "CH", ascii "1", [97], ascii "-2.5", [98]]),
       (.quiet 1, [ascii "ZINCRBY", [122], ascii "inf", [97]]),
       (.quiet 2, [ascii "ZREM", [122], [98]])]).1.dict.find [122]).bind Object.zset?).isSome = true)
  obtain ⟨o', ho', hz⟩ := Option.bind_eq_some_iff.1 ho
  cases o' with
  | zset z => exact ⟨z, ho', zset_structures_agree _ (by decide) (by decide +kernel) _ _ ho'⟩
  | _ => exact absurd hz (by simp [Object.zset?])

/-- A member that was added with the score `nan` and then moved is twice in the
skip list. -/
theorem nan_score_splits_zset : ¬ ∀ cmds : List (Env × List Bytes), (∀ c ∈ cmds, ZSetCommand c.2) →
    ∀ k z, (Lib.runTotal execStep .empty cmds).1.dict.find k = some (.zset z) → z.Agree := by
  intro h
  replace h := h [(.quiet 0, [ascii "ZADD", [122], ascii "nan", [97]]),
    (.quiet 0, [ascii "ZADD", [122], ascii "1", [97]])] (by decide) [122]
  have htwice : (((Lib.runTotal execStep .empty
      [(.quiet 0, [ascii "ZADD", [122], ascii "nan", [97]]),
       (.quiet 0, [ascii "ZADD", [122], ascii "1", [97]])]).1.dict.find [122]).bind
        Object.zset?).map (fun z => z.sl.entries.map Prod.fst) = some [[97], [97]] := by
    decide +kernel
  obtain ⟨z, hz, htwice⟩ := Option.map_eq_some_iff.1 htwice
  obtain ⟨o, ho, hz⟩ := Option.bind_eq_some_iff.1 hz
  cases o with
  | zset z' =>
    obtain rfl := Option.some.inj hz
    have hnodup := (h z' ho).1
    rw [htwice] at hnodup
    exact absurd hnodup (by decide)
  | _ => exact absurd hz (by simp [Object.zset?])

end BlazeKV
