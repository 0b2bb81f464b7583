import BlazeKV.Proofs.CheckedCommands
import BlazeKV.Proofs.SkipSafety
import BlazeKV.Proofs.ZSetAgree
import BlazeKV.Spec.Checked.ZSets

/-! The sorted-set commands meet no fault on sets whose skip list is well formed, and leave it so. Scores
may be NaN: the order of the list plays no part. -/

namespace BlazeKV

open Lib

/-- The skip list is well formed, in whatever order its scores are. -/
def ZSet.Linked (z : ZSet) : Prop := ∃ L, z.sl.Rep L

def LinkedObject : Object → Prop
  | .zset z => z.Linked
  | _ => True

section ZSet

variable {z : ZSet} {levels : Levels} {member : Bytes} {score : Double} {env : Env} {argv : List Bytes} {db : Keyspace}

theorem ZSet.linked_empty : ZSet.empty.Linked := by
  obtain ⟨L, hR, -⟩ := SkipList.represents_new.rep
  exact ⟨L, hR⟩

theorem linked_of_zset? {o : Object} (h : LinkedObject o) (hz : o.zset? = some z) : z.Linked := by
  cases o with
  | zset z' => exact Option.some.inj hz ▸ h
  | _ => exact absurd hz (by simp [Object.zset?])

theorem slInsert_runs {sl : SkipList} (h : ∃ L, sl.Rep L) (levels : Levels) (member : Bytes) (score : Double) :
    Checked.insert sl member score (levels sl.next + 1) = .ok (ZSet.slInsert sl levels member score) ∧
      ∃ L, (ZSet.slInsert sl levels member score).Rep L := by
  obtain ⟨L, hR⟩ := h
  obtain ⟨sl', L', hi, hc, hR'⟩ := hR.insert_runs member score (Nat.succ_pos (levels sl.next)) (levels sl.next).isLt
  have he : ZSet.slInsert sl levels member score = sl' := by
    rw [ZSet.slInsert, hi]
    rfl
  exact ⟨he ▸ hc, L', he ▸ hR'⟩

theorem slErase_runs {sl : SkipList} (h : ∃ L, sl.Rep L) (member : Bytes) (score : Double) :
    ∃ b, Checked.erase sl member score = .ok (ZSet.slErase sl member score, b) ∧ ∃ L, (ZSet.slErase sl member score).Rep L := by
  obtain ⟨L, hR⟩ := h
  obtain ⟨sl', b, L', hi, hc, hR'⟩ := hR.erase_runs member score
  have he : ZSet.slErase sl member score = sl' := by
    rw [ZSet.slErase, hi]
    rfl
  exact ⟨b, he ▸ hc, L', he ▸ hR'⟩

theorem ZSet.Linked.set_runs (h : z.Linked) (levels : Levels) (member : Bytes) (score : Double) :
    Checked.zsetSet z levels member score = .ok (z.set levels member score) ∧ (z.set levels member score).1.Linked := by
  unfold Checked.zsetSet ZSet.set
  cases z.dict.find member with
  | none =>
    obtain ⟨hi, hR⟩ := slInsert_runs h levels member score
    exact ⟨by simp [hi], hR⟩
  | some cur =>
    obtain ⟨b, he, hR⟩ := slErase_runs h member cur
    obtain ⟨hi, hR'⟩ := slInsert_runs hR levels member score
    dsimp only
    split_ifs
    · exact ⟨rfl, h⟩
    · exact ⟨by simp [he, hi], hR'⟩

theorem ZSet.Linked.remove_runs (h : z.Linked) (member : Bytes) :
    Checked.zsetRemove z member = .ok (z.remove member) ∧ (z.remove member).1.Linked := by
  unfold Checked.zsetRemove ZSet.remove
  cases z.dict.find member with
  | none => exact ⟨rfl, h⟩
  | some cur =>
    obtain ⟨b, he, hR⟩ := slErase_runs h member cur
    exact ⟨by simp [he], hR⟩

theorem getZSet_linked (h : db.All LinkedObject) {now : ℕ} {key : Bytes} (hz : (Cmd.getZSet db now key).2 = .present z) :
    z.Linked := by
  obtain ⟨o, ho, hv⟩ := getAs_present hz
  exact linked_of_zset? (h key o (db.find_of_peek now key o ho)) hv

theorem makeZSet_linked (h : db.All LinkedObject) {now : ℕ} {key : Bytes} (hz : (Cmd.makeZSet db now key).2 = some z) :
    z.Linked := by
  rcases getOrMake_snd_all h hz with rfl | ⟨o, ho, hv⟩
  · exact ZSet.linked_empty
  · exact linked_of_zset? ho hv

end ZSet

namespace Checked

open Cmd (ZAddFlags ZAddState Bound ScoreOpts)

section ZSets

variable {argv : List Bytes} {env : Env} {db : Keyspace}

theorem zaddFlags_eq (fuel i : ℕ) (f : ZAddFlags) (hi : i ≤ argv.length) (hf : argv.length - i < fuel) :
    ∃ j, i ≤ j ∧ j ≤ argv.length ∧ zaddFlags argv fuel i f = .ok ((Cmd.zaddFlags f (argv.drop i)).1, j) ∧
      (Cmd.zaddFlags f (argv.drop i)).2 = argv.drop j := by
  induction fuel generalizing i f with
  | zero => omega
  | succ fuel ih =>
    unfold zaddFlags
    by_cases h : i < argv.length
    · have harg : arg argv i = argv[i] := by simp [arg, List.getD, h]
      rw [List.drop_eq_getElem_cons h, ← harg, if_pos h, argAt_of_lt h]
      simp only [ok_bind, Cmd.zaddFlags]
      cases Cmd.zaddFlag f (lowercase (arg argv i)) with
      | none =>
        refine ⟨i, le_rfl, hi, rfl, ?_⟩
        rw [List.drop_eq_getElem_cons h, ← harg]
      | some f' =>
        obtain ⟨j, h1, h2, h3, h4⟩ := ih (i + 1) f' h (by omega)
        exact ⟨j, by omega, h2, h3, h4⟩
    · rw [if_neg h, List.drop_eq_nil_of_le (by omega)]
      exact ⟨i, le_rfl, hi, rfl, (List.drop_eq_nil_of_le (by omega)).symm⟩

theorem zaddRound_runs {st : ZAddState} (h : st.z.Linked) (f : ZAddFlags) (levels : Levels) (score : Double) (member : Bytes) :
    zaddRound f levels st score member = .ok (Cmd.zaddRound f levels st score member) ∧
      (Cmd.zaddRound f levels st score member).z.Linked := by
  have hset := fun s => h.set_runs levels member s
  unfold zaddRound Cmd.zaddRound
  cases st.z.dict.find member with
  | none =>
    dsimp only
    generalize (if f.incr = true then score.add .zero else score) = v
    rw [(hset v).1]
    split_ifs
    · exact ⟨rfl, h⟩
    · exact ⟨rfl, (hset v).2⟩
  | some cur =>
    dsimp only
    generalize (if f.incr = true then score.add cur else score) = v
    rw [(hset v).1]
    split_ifs
    · exact ⟨rfl, h⟩
    · exact ⟨rfl, h⟩
    · exact ⟨rfl, h⟩
    · exact ⟨rfl, h⟩
    · exact ⟨rfl, (hset v).2⟩

theorem zaddLoop_runs (f : ZAddFlags) (levels : Levels) (fuel i : ℕ) {st : ZAddState} (h : st.z.Linked)
    (hf : argv.length - i < fuel) : zaddLoop f levels argv fuel i st = .ok (Cmd.zaddLoop f levels st (pairs (argv.drop i))) ∧
      (Cmd.zaddLoop f levels st (pairs (argv.drop i))).1.z.Linked := by
  induction fuel generalizing i st with
  | zero => omega
  | succ fuel ih =>
    unfold zaddLoop
    by_cases hi : i + 1 < argv.length
    · have h0 : arg argv i = argv[i] := by simp [arg, List.getD, show i < argv.length by omega]
      have h1 : arg argv (i + 1) = argv[i + 1] := by simp [arg, List.getD, hi]
      rw [if_pos hi, argAt_of_lt (show i < argv.length by omega), argAt_of_lt hi, List.drop_eq_getElem_cons (show i < argv.length by omega),
        List.drop_eq_getElem_cons hi, ← h0, ← h1]
      simp only [ok_bind, pairs, Cmd.zaddLoop]
      cases parseDouble (arg argv i) with
      | none => exact ⟨rfl, h⟩
      | some score =>
        obtain ⟨hr, hl⟩ := zaddRound_runs h f levels score (arg argv (i + 1))
        obtain ⟨he, hz⟩ := ih (i + 2) hl (by omega)
        exact ⟨by simp [hr, he], hz⟩
    · have hnil : pairs (argv.drop i) = [] := by
        rcases hd : argv.drop i with _ | ⟨a, _ | ⟨b, rest⟩⟩
        · rfl
        · rfl
        · have := congrArg List.length hd
          rw [List.length_drop] at this
          simp only [List.length_cons] at this
          omega
      rw [if_neg hi, hnil]
      exact ⟨rfl, h⟩

theorem zadd_runs (hdb : db.All LinkedObject) (h : 2 ≤ argv.length) : zadd env argv db = .ok (Cmd.zadd env argv db) := by
  unfold zadd Cmd.zadd
  obtain ⟨j, h1, h2, he, hrest⟩ := zaddFlags_eq (argv.length + 1) 2 ⟨false, false, false, false, false, false⟩ h (by omega)
  rw [he, ok_bind]
  generalize Cmd.zaddFlags ⟨false, false, false, false, false, false⟩ (argv.drop 2) = r at hrest
  obtain ⟨f, rest⟩ := r
  simp only at hrest
  subst hrest
  simp only [argAt_of_lt (show 1 < argv.length by omega), ok_bind, openZSet_eq, List.drop_eq_nil_iff, List.length_drop, ge_iff_le]
  split_ifs
  · rfl
  have hz : ∀ z, (Cmd.makeZSet db env.now (arg argv 1)).2 = some z → z.Linked := fun z => makeZSet_linked hdb
  generalize Cmd.makeZSet db env.now (arg argv 1) = m at hz
  obtain ⟨db', _ | z⟩ := m
  · rfl
  have hloop := (@zaddLoop_runs argv f env.levels (argv.length + 1) j ⟨z, 0, 0, none⟩ (hz z rfl) (by omega)).1
  simp only [hloop, ok_bind]
  split_ifs <;> rfl

theorem zrem_runs (hdb : db.All LinkedObject) (h : 2 ≤ argv.length) : zrem env argv db = .ok (Cmd.zrem env argv db) := by
  simp only [zrem, Cmd.zrem, argAt_of_lt (show 1 < argv.length by omega), ok_bind, readZSet_eq, forFrom_eq]
  have hz : ∀ z, (Cmd.getZSet db env.now (arg argv 1)).2 = .present z → z.Linked := fun z => getZSet_linked hdb
  generalize Cmd.getZSet db env.now (arg argv 1) = m at hz
  obtain ⟨db', _ | _ | z⟩ := m
  · rfl
  · rfl
  dsimp only
  rw [(foldlM_ok (fun r : ZSet × ℕ => r.1.Linked) (argv.drop 2) (s := (z, 0)) (hz z rfl)
    (f := fun r m => ((r.1.remove m).1, if (r.1.remove m).2 then r.2 + 1 else r.2)) fun r hr m _ => by
      obtain ⟨he, hl⟩ := hr.remove_runs m
      exact ⟨by simp [he], hl⟩).1, ok_bind]
  rfl

theorem zscore_runs (h : 3 ≤ argv.length) : zscore env argv db = .ok (Cmd.zscore env argv db) := by
  simp only [zscore, Cmd.zscore, argAt_of_lt (show 1 < argv.length by omega), argAt_of_lt (show 2 < argv.length by omega), ok_bind, readZSet_eq]
  obtain ⟨db', _ | _ | z⟩ := Cmd.getZSet db env.now (arg argv 1) <;> rfl

theorem zcard_runs (h : 2 ≤ argv.length) : zcard env argv db = .ok (Cmd.zcard env argv db) := by
  rw [zcard, sizeBy_runs (fun db now key => @readZSet_eq db now key) _ h, Cmd.zcard]
  obtain ⟨db', _ | _ | z⟩ := Cmd.getZSet db env.now (arg argv 1) <;> rfl

theorem zrank_runs (hdb : db.All LinkedObject) (h : 3 ≤ argv.length) : zrank env argv db = .ok (Cmd.zrank env argv db) := by
  simp only [zrank, Cmd.zrank, argAt_of_lt (show 1 < argv.length by omega), argAt_of_lt (show 2 < argv.length by omega), ok_bind, readZSet_eq]
  have hz : ∀ z, (Cmd.getZSet db env.now (arg argv 1)).2 = .present z → z.Linked := fun z => getZSet_linked hdb
  generalize Cmd.getZSet db env.now (arg argv 1) = m at hz
  obtain ⟨db', _ | _ | z⟩ := m
  · rfl
  · rfl
  dsimp only
  cases z.dict.find (arg argv 2) with
  | none => rfl
  | some s =>
    obtain ⟨L, hR⟩ := hz z rfl
    obtain ⟨k, hk, hc⟩ := hR.rankOf_runs (arg argv 2) s
    simp only [hk, hc, ok_bind, Option.getD_some]
    rfl

theorem zincrby_runs (hdb : db.All LinkedObject) (h : 4 ≤ argv.length) : zincrby env argv db = .ok (Cmd.zincrby env argv db) := by
  simp only [zincrby, Cmd.zincrby, argAt_of_lt (show 1 < argv.length by omega), argAt_of_lt (show 2 < argv.length by omega),
    argAt_of_lt (show 3 < argv.length by omega), ok_bind, openZSet_eq]
  cases parseDouble (arg argv 2) with
  | none => rfl
  | some delta =>
    have hz : ∀ z, (Cmd.makeZSet db env.now (arg argv 1)).2 = some z → z.Linked := fun z => makeZSet_linked hdb
    generalize Cmd.makeZSet db env.now (arg argv 1) = m at hz
    obtain ⟨db', _ | z⟩ := m
    · rfl
    · simp only [((hz z rfl).set_runs _ _ _).1, ok_bind]
      rfl

theorem zrangeItem_runs {z : ZSet} (hz : z.Linked) (rev withscores : Bool) (out : Bytes) (i : ℕ) :
    zrangeItem z rev withscores out i = .ok (out ++ Cmd.zrangeItem z rev withscores i) := by
  obtain ⟨L, hR⟩ := hz
  obtain ⟨o, ho, hc, hnode⟩ := hR.atRank_runs (u32 (if rev then z.size - i else i + 1))
  simp only [zrangeItem, Cmd.zrangeItem, hc, ho, ok_bind]
  cases o with
  | none => simp
  | some x => simp [hnode x rfl]

/-- The loop over the options of `ZRANGE` finds the two words wherever they stand. -/
theorem zrangeOpts_eq (args : List Bytes) (o : Bool × Bool) :
    args.foldl (fun o a => if lowercase a = ascii "withscores" then (true, o.2)
      else if lowercase a = ascii "rev" then (o.1, true) else o) o =
    (o.1 || (args.map lowercase).contains (ascii "withscores"), o.2 || (args.map lowercase).contains (ascii "rev")) := by
  have hne : ascii "withscores" ≠ ascii "rev" := by decide
  induction args generalizing o with
  | nil => simp
  | cons a args ih =>
    rw [List.foldl_cons, ih, List.map_cons, List.contains_cons, List.contains_cons]
    by_cases h1 : lowercase a = ascii "withscores"
    · simp [h1, beq_eq_false_iff_ne.2 hne.symm]
    · by_cases h2 : lowercase a = ascii "rev"
      · simp [h2, hne.symm, beq_eq_false_iff_ne.2 hne]
      · simp [h1, h2, beq_eq_false_iff_ne.2 (Ne.symm h1), beq_eq_false_iff_ne.2 (Ne.symm h2)]

theorem zrange_runs (hdb : db.All LinkedObject) (h : 4 ≤ argv.length) : zrange env argv db = .ok (Cmd.zrange env argv db) := by
  have hopts := foldlM_pure (ε := Fault) (argv.drop 4) ((false, false) : Bool × Bool)
    (f := fun o a => if lowercase a = ascii "withscores" then (true, o.2)
      else if lowercase a = ascii "rev" then (o.1, true) else o)
    (g := fun o a => .ok (if lowercase a = ascii "withscores" then (true, o.2)
      else if lowercase a = ascii "rev" then (o.1, true) else o)) fun _ _ _ => rfl
  rw [zrangeOpts_eq] at hopts
  simp only [zrange, Cmd.zrange, argAt_of_lt (show 1 < argv.length by omega), forFrom_eq, pure_eq_ok, hopts, ok_bind, readZSet_eq,
    readRange_eq h, Bool.false_or]
  generalize ((argv.drop 4).map lowercase).contains (ascii "withscores") = withscores
  generalize ((argv.drop 4).map lowercase).contains (ascii "rev") = rev
  have hz : ∀ z, (Cmd.getZSet db env.now (arg argv 1)).2 = .present z → z.Linked := fun z => getZSet_linked hdb
  generalize Cmd.getZSet db env.now (arg argv 1) = m at hz
  obtain ⟨db', _ | _ | z⟩ := m
  · cases parseInt (arg argv 2) <;> cases parseInt (arg argv 3) <;> rfl
  · rfl
  cases parseInt (arg argv 2) with
  | none => rfl
  | some start =>
    cases parseInt (arg argv 3) with
    | none => rfl
    | some stop =>
      have hloop := fun hdr xs => foldlM_pure (ε := Fault) xs hdr
        (g := zrangeItem z rev withscores) fun out i _ => zrangeItem_runs (hz z rfl) rev withscores out i
      simp only [List.foldl_append_eq_append] at hloop
      dsimp only [Option.bind_some, Option.map_some]
      simp only [hloop, ok_bind, List.flatMap_def]
      split_ifs <;> rfl

theorem parseBound_eq (s : Bytes) : parseBound s = .ok (Cmd.parseBound s) := by
  cases s with
  | nil => rfl
  | cons c s =>
    simp only [parseBound, Cmd.parseBound, ne_eq, reduceCtorEq, not_false_eq_true, if_true, charAt, readAt, List.getElem?_cons_zero,
      ok_bind, List.tail_cons]
    split_ifs <;> rfl

theorem scoreOpts_eq (fuel i : ℕ) (o : ScoreOpts) (hf : argv.length - i < fuel) :
    scoreOpts argv fuel i o = .ok (Cmd.scoreOpts o (argv.drop i)) := by
  induction fuel generalizing i o with
  | zero => omega
  | succ fuel ih =>
    unfold scoreOpts
    by_cases hi : i < argv.length
    · have h0 : arg argv i = argv[i] := by simp [arg, List.getD, hi]
      rw [if_pos hi, argAt_of_lt hi, List.drop_eq_getElem_cons hi, ← h0]
      simp only [ok_bind, ih (i + 1) _ (show argv.length - (i + 1) < fuel by omega)]
      by_cases h2 : i + 2 < argv.length
      · have h1 : arg argv (i + 1) = argv[i + 1] := by simp [arg, List.getD, show i + 1 < argv.length by omega]
        have h2' : arg argv (i + 2) = argv[i + 2] := by simp [arg, List.getD, h2]
        rw [argAt_of_lt (show i + 1 < argv.length by omega), argAt_of_lt h2,
          List.drop_eq_getElem_cons (show i + 1 < argv.length by omega), List.drop_eq_getElem_cons h2, ← h1, ← h2']
        simp only [ok_bind, ih (i + 3) _ (show argv.length - (i + 3) < fuel by omega), h2, and_true, Cmd.scoreOpts]
        split_ifs <;> rfl
      · simp only [h2, and_false, if_false]
        -- at most one argument is left, so that `LIMIT` is an option like any other
        match hd : argv.drop (i + 1) with
        | [] => simp only [Cmd.scoreOpts]; split_ifs <;> rfl
        | [_] => simp only [Cmd.scoreOpts]; split_ifs <;> rfl
        | _ :: _ :: _ =>
          have := congrArg List.length hd
          rw [List.length_drop] at this
          simp only [List.length_cons] at this
          omega
    · rw [if_neg hi, List.drop_eq_nil_of_le (by omega)]
      rfl

/-- The loop along the lowest level comes to the end of the list. -/
theorem scoreLoop_runs {sl : SkipList} {L : List SkipList.Elem} (hR : sl.Rep L) (lo hi : Bound) (fuel q : ℕ)
    (hq : q ≤ L.length) (hf : L.length - q ≤ fuel) :
    scoreLoop sl lo hi fuel (if q < L.length then some (SkipList.elemAt L (q + 1)).id else none) =
      .ok (Cmd.scoreLoop sl lo hi fuel (if q < L.length then some (SkipList.elemAt L (q + 1)).id else none)) := by
  induction fuel generalizing q with
  | zero =>
    rw [if_neg (by omega)]
    rfl
  | succ fuel ih =>
    by_cases h : q < L.length
    · have hnext := ih (q + 1) h (by omega)
      rw [← hR.next_zero h] at hnext
      rw [if_pos h]
      simp only [scoreLoop, Cmd.scoreLoop, hR.node_runs h, (hR.lowest h).lv_runs, ok_bind, hnext]
      split_ifs <;> rfl
    · rw [if_neg h]
      rfl

theorem zrangebyscore_runs (hdb : db.All LinkedObject) (h : 4 ≤ argv.length) :
    zrangebyscore env argv db = .ok (Cmd.zrangebyscore env argv db) := by
  simp only [zrangebyscore, Cmd.zrangebyscore, argAt_of_lt (show 1 < argv.length by omega), argAt_of_lt (show 2 < argv.length by omega),
    argAt_of_lt (show 3 < argv.length by omega), ok_bind, readZSet_eq, parseBound_eq,
    scoreOpts_eq (argv.length + 1) 4 _ (show argv.length - 4 < argv.length + 1 by omega)]
  cases Cmd.parseBound (arg argv 2) with
  | none => rfl
  | some lo =>
    cases Cmd.parseBound (arg argv 3) with
    | none => rfl
    | some hi =>
      have hz : ∀ z, (Cmd.getZSet db env.now (arg argv 1)).2 = .present z → z.Linked := fun z => getZSet_linked hdb
      generalize Cmd.getZSet db env.now (arg argv 1) = m at hz
      obtain ⟨db', _ | _ | z⟩ := m
      · rfl
      · rfl
      obtain ⟨L, hR⟩ := hz z rfl
      obtain ⟨r, hr, hfirst, hc⟩ := hR.firstGte_runs lo.score
      simp only [hfirst, hc, ok_bind, Option.getD_some, scoreLoop_runs hR lo hi (z.sl.length + 1) r hr (by rw [hR.length]; omega)]
      rfl

end ZSets

end Checked

end BlazeKV
