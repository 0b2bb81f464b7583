import BlazeKV.Proofs.Containers
import BlazeKV.Proofs.ReadCommands
import BlazeKV.Proofs.ZAddScores
import BlazeKV.Proofs.ZScoreRange
import BlazeKV.Proofs.ZSetRun

/-! The handlers of sorted sets do what these are for. -/

namespace BlazeKV

open Keyspace Lib Abstract SkipList

/-! Scores in order. -/

section Order

/-- A sorted set as it stands. -/
def zvalue (z : ZSet) : ZValue := ⟨z.dict.find, z.Coherent ∧ z.size < 2 ^ 32⟩

theorem entries_length {α : Type} {h : Bytes → Option α} {l l' : List (Bytes × α)} (hl : Entries h l)
    (hl' : Entries h l') : l.length = l'.length :=
  ((List.perm_ext_iff_of_nodup hl.1.of_map hl'.1.of_map).2 fun p =>
    (hl.2 p.1 p.2).trans (hl'.2 p.1 p.2).symm).length_eq

theorem size_of_rankable {z : ZSet} (h : Rankable z.dict.find) : z.size < 2 ^ 32 := by
  obtain ⟨l, hl, hlen⟩ := h.2
  have hsize : z.dict.forEach.length = l.length := entries_length (entries_forEach z.dict) hl
  rwa [ZSet.size, ← Dict.forEach_length, hsize]

theorem ranked_of_represents {z : ZSet} {xs : List (Bytes × Double)} (hR : Represents z.sl xs)
    (hd : ∀ m s, z.dict.find m = some s ↔ (m, s) ∈ xs) : Ranked z.dict.find xs := by
  refine ⟨hR.sorted.imp_of_mem fun {a b} ha hb hlt => ?_, fun m v => (hd m v).symm⟩
  have hbefore := (before_iff (n := ⟨a.1, a.2, none, []⟩) (hR.number a ha) (hR.number b hb)).2 hlt
  simpa [before] using hbefore

theorem ranked_nil : Ranked (fun _ => none) [] := ⟨.nil, fun m v => by simp⟩

end Order

/-! Looks. -/

section Looks

variable {f : ZValue → Bytes → Prop} {env : Env} {argv : List Bytes} {db : Keyspace} {r : Result}

theorem leaves_reads {K : Bytes → Prop} (h : Reads K env.now db r) :
    Leaves env.now (arg argv 1) db r.db (db.peek env.now (arg argv 1)) := by
  intro k
  rw [h.looked.live env.now le_rfl k]
  exact leaves_same k

/-- What a sorted set, or none, is seen as. -/
theorem view_zset (o : Option Object) : zsets.view (o.map valueOf) = match found Object.zset? o with
    | .absent => some ⟨fun _ => none, True⟩
    | .wrongType => none
    | .present z => some (zvalue z) := by
  cases o with
  | none => rfl
  | some o => cases o <;> rfl

/-- A command that looks, by its reply. -/
theorem sees {K : Bytes → Prop} (h : Reads K env.now db r)
    (hreply : match found Object.zset? (db.peek env.now (arg argv 1)) with
    | .absent => f ⟨fun _ => none, True⟩ r.reply
    | .wrongType => r.reply = errWrongType
    | .present z => f (zvalue z) r.reply) : Performs (zsets.see f) env argv db r := by
  refine performs_keeping (leaves_reads h) ⟨rfl, ?_⟩
  rw [view_zset]
  cases hf : found Object.zset? (db.peek env.now (arg argv 1)) <;> rw [hf] at hreply <;> exact hreply

theorem zscore_performs : Performs (Abstract.zscore argv) env argv db (Cmd.zscore env argv db) := by
  refine sees (Cmd.zscore_reads (K := fun _ => True) db env argv trivial) ?_
  unfold Cmd.zscore Cmd.getZSet
  rw [getAs_eq]
  cases found Object.zset? (db.peek env.now (arg argv 1)) <;> rfl

theorem zcard_performs : Performs Abstract.zcard env argv db (Cmd.zcard env argv db) := by
  refine sees (Cmd.zcard_reads (K := fun _ => True) db env argv trivial) ?_
  unfold Cmd.zcard Cmd.getZSet
  rw [getAs_eq]
  cases found Object.zset? (db.peek env.now (arg argv 1)) with
  | wrongType => rfl
  | absent => exact ⟨[], ⟨List.nodup_nil, fun m v => by simp⟩, rfl⟩
  | present z => exact ⟨z.dict.forEach, entries_forEach _, by rw [Dict.forEach_length]; rfl⟩

/-- The place of a member, counted from one. -/
theorem rank_of_member {z : ZSet} {xs : List (Bytes × Double)} {m : Bytes} {v : Double}
    (hR : Represents z.sl xs) (hlen : xs.length < 2 ^ 32) (hm : (m, v) ∈ xs) :
    ∃ r : ℕ, xs[r]? = some (m, v) ∧ z.sl.rankOf m v = some (r + 1) := by
  obtain ⟨r, hr, hat⟩ := List.getElem_of_mem hm
  refine ⟨r, by rw [List.getElem?_eq_getElem hr, hat], ?_⟩
  rw [hR.rankOf_spec hlen (hR.number _ hm), findIdx?_of_sorted hR.sorted hr (by rw [hat])]
  rfl

theorem length_represents {z : ZSet} {xs : List (Bytes × Double)} (hR : Represents z.sl xs)
    (hd : ∀ m s, z.dict.find m = some s ↔ (m, s) ∈ xs) : xs.length = z.size :=
  (ZSet.Sorted.of_represents hR hd).length_eq

theorem zrank_performs : Performs (Abstract.zrank argv) env argv db (Cmd.zrank env argv db) := by
  refine sees (Cmd.zrank_reads (K := fun _ => True) db env argv trivial) ?_
  unfold Cmd.zrank Cmd.getZSet
  rw [getAs_eq]
  cases found Object.zset? (db.peek env.now (arg argv 1)) with
  | wrongType => rfl
  | absent => rfl
  | present z =>
    dsimp only [zvalue]
    cases hm : z.dict.find (arg argv 2) with
    | none => rfl
    | some v =>
      rintro ⟨⟨xs, hR, hd⟩, hsize⟩
      have hlen := length_represents hR hd
      obtain ⟨r, hat, hrank⟩ := rank_of_member hR (hlen ▸ hsize) ((hd _ _).1 hm)
      refine ⟨xs, r, ranked_of_represents hR hd, hat, ?_⟩
      dsimp only
      rw [hrank]
      simp [Result.clean]

/-- Without two numbers, `ZRANGE` has no range. -/
theorem zrange_refuses (hw : found Object.zset? (db.peek env.now (arg argv 1)) ≠ .wrongType)
    (hno : ∀ start stop, parseInt (arg argv 2) = some start → parseInt (arg argv 3) = some stop → False) :
    (Cmd.zrange env argv db).reply = errNotInt := by
  unfold Cmd.zrange Cmd.getZSet
  rw [getAs_eq]
  dsimp only
  cases hf : found Object.zset? (db.peek env.now (arg argv 1)) with
  | wrongType => exact absurd hf hw
  | absent =>
    dsimp only
    split
    · exact (hno _ _ ‹_› ‹_›).elim
    · exact (hno _ _ ‹_› ‹_›).elim
    · rfl
  | present z =>
    dsimp only
    split
    · exact (hno _ _ ‹_› ‹_›).elim
    · exact (hno _ _ ‹_› ‹_›).elim
    · rfl

theorem zrange_performs : Performs (Abstract.zrange argv) env argv db (Cmd.zrange env argv db) := by
  refine sees (Cmd.zrange_reads (K := fun _ => True) db env argv trivial) ?_
  cases hf : found Object.zset? (db.peek env.now (arg argv 1)) with
  | wrongType =>
    unfold Cmd.zrange Cmd.getZSet
    rw [getAs_eq, hf]
    rfl
  | absent =>
    dsimp only
    split
    · rename_i start stop hstart hstop
      refine fun _ => ⟨[], ranked_nil, ?_⟩
      unfold Cmd.zrange Cmd.getZSet
      rw [getAs_eq, hf, hstart, hstop]
      simp [slice, elementsReply, Result.clean]
    · rename_i hno
      refine zrange_refuses (fun h => ?_) hno
      rw [hf] at h
      cases h
  | present z =>
    dsimp only
    split
    · rename_i start stop hstart hstop
      rintro ⟨⟨xs, hR, hd⟩, hsize⟩
      refine ⟨xs, ranked_of_represents hR hd, ?_⟩
      obtain ⟨o, ho, hz⟩ := (found_present _).1 hf
      have hbind : (db.peek env.now (arg argv 1)).bind Object.zset? = some z := by rw [ho]; exact hz
      exact zrange_slice env argv db hbind hR (length_represents hR hd) hsize hstart hstop
    · rename_i hno
      refine zrange_refuses (fun h => ?_) hno
      rw [hf] at h
      cases h

/-- The loop of `ZRANGEBYSCORE` selects the members between its bounds. -/
theorem scoreLoop_selects {z : ZSet} {xs : List (Bytes × Double)} (hR : Represents z.sl xs) {lo hi : Cmd.Bound}
    (hlo : lo.score.isNaN = false) (hhi : hi.score.isNaN = false) :
    (Cmd.scoreLoop z.sl lo hi (z.sl.length + 1) ((z.sl.firstGte lo.score).getD none)).map content =
      xs.filter fun p => Selects lo hi p.2 := by
  obtain ⟨⟨L, hL, rfl⟩, hs, hnum⟩ := hR
  have hle : countBelow lo.score (L.map Elem.pair) ≤ L.length :=
    length_takeWhile_le.trans_eq (List.length_map _)
  have hsub : ((L.map Elem.pair).drop (countBelow lo.score (L.map Elem.pair))).Sublist (L.map Elem.pair) :=
    List.drop_sublist _ _
  have hfrom : ∀ p ∈ (L.map Elem.pair).drop (countBelow lo.score (L.map Elem.pair)),
      lo.score.key ≤ p.2.key := by
    intro p hp
    rw [drop_countBelow] at hp
    exact le_of_mem_dropWhile hs hp
  rw [hL.firstGte_eq hs hnum hlo, Option.getD_some,
    scoreLoop_content hL lo hi (z.sl.length + 1) _ hle (by rw [hL.length]; omega),
    pickScores_eq hlo hhi (hs.sublist hsub) (fun p hp => hnum p (hsub.subset hp)) hfrom,
    filter_drop_below hlo hhi hnum]
  rfl

theorem limit_cutLimit (o : Cmd.ScoreOpts) (ns : List SkipNode) :
    Cmd.cutLimit o ns = limit o.offset o.limit ns := by
  have hdrop : (if 0 < o.offset then ns.drop o.offset.toNat else ns) = ns.drop o.offset.toNat := by
    split_ifs with hpos
    · rfl
    · rw [show o.offset.toNat = 0 by omega, List.drop_zero]
  unfold Cmd.cutLimit limit
  dsimp only
  rw [hdrop]
  by_cases hneg : o.limit < 0
  · rw [if_pos hneg, if_neg (by omega)]
  · rw [if_neg hneg, if_pos (by omega)]

theorem limit_map {α β : Type} (f : α → β) (offset count : ℤ) (l : List α) :
    (limit offset count l).map f = limit offset count (l.map f) := by
  unfold limit
  split_ifs
  · exact List.map_drop ..
  · rw [List.map_take, List.map_drop]

theorem zrangebyscore_performs :
    Performs (Abstract.zrangebyscore argv) env argv db (Cmd.zrangebyscore env argv db) := by
  unfold Abstract.zrangebyscore
  split
  · rename_i lo hi hlo hhi
    refine sees (Cmd.zrangebyscore_reads (K := fun _ => True) db env argv trivial) ?_
    unfold Cmd.zrangebyscore Cmd.getZSet
    dsimp only
    rw [getAs_eq, hlo, hhi]
    cases hf : found Object.zset? (db.peek env.now (arg argv 1)) with
    | wrongType => rfl
    | absent => exact fun _ _ => ⟨[], ranked_nil, by simp [limit, elementsReply, Result.clean]⟩
    | present z =>
      rintro ⟨⟨xs, hR, hd⟩, hsize⟩ ⟨hnlo, hnhi⟩
      refine ⟨xs, ranked_of_represents hR hd, ?_⟩
      dsimp only [Result.clean]
      rw [nodes_arrayReply, limit_cutLimit, limit_map, scoreLoop_selects hR hnlo hnhi]
      rfl
  · rename_i hno
    unfold Cmd.zrangebyscore
    dsimp only
    split
    · rename_i lo hi hlo hhi
      exact (hno lo hi hlo hhi).elim
    · exact performs_refused

end Looks

/-! Changes. -/

section Changes

variable {f : ZValue → ZValue → Bytes → Prop} {env : Env} {argv : List Bytes} {db : Keyspace}

theorem zset_refuses (h : found Object.zset? (db.peek env.now (arg argv 1)) = .wrongType) :
    Performs (zsets.effect f) env argv db (.clean (db.lookup env.now (arg argv 1)).1 errWrongType) := by
  refine performs_keeping leaves_lookup ?_
  rw [view_zset, h]
  exact ⟨rfl, rfl⟩

/-- The sorted set that a command finds; none counts as empty. -/
def FindsZSet (env : Env) (argv : List Bytes) (db : Keyspace) (a : ZValue) : Prop :=
  zsets.view ((db.peek env.now (arg argv 1)).map valueOf) = some a

theorem zset_changes {a a' : ZValue} (ha : FindsZSet env argv db a) {r : Result} {x : Option Object}
    (hl : Leaves env.now (arg argv 1) db r.db x) (hx : x.map valueOf = zsets.wrap a') (hf : f a a' r.reply) :
    Performs (zsets.effect f) env argv db r := by
  unfold FindsZSet at ha
  refine performs_keeping hl ?_
  rw [ha]
  exact ⟨a', hf, hx⟩

theorem finds_absent (h : found Object.zset? (db.peek env.now (arg argv 1)) = .absent) :
    FindsZSet env argv db ⟨fun _ => none, True⟩ := by
  rw [FindsZSet, view_zset, h]

theorem finds_present {z : ZSet} (h : found Object.zset? (db.peek env.now (arg argv 1)) = .present z) :
    FindsZSet env argv db (zvalue z) := by
  rw [FindsZSet, view_zset, h]

theorem zset_there {z : ZSet} (h : found Object.zset? (db.peek env.now (arg argv 1)) = .present z) :
    ∃ o, Leaves env.now (arg argv 1) db (db.lookup env.now (arg argv 1)).1 (some o) := by
  obtain ⟨o, ho, -⟩ := (found_present _).1 h
  exact ⟨o, ho ▸ leaves_lookup⟩

theorem zset_size_eq_zero (z : ZSet) : z.size = 0 ↔ ∀ m, z.dict.find m = none := Dict.size_eq_zero _

/-- A sorted set that is written back, or erased where nothing is left of it. -/
theorem zset_left {db' : Keyspace} {o : Object}
    (hl : Leaves env.now (arg argv 1) db db' (some o)) (z : ZSet) :
    Leaves env.now (arg argv 1) db
      (if z.size = 0 then (db'.write (arg argv 1) (.zset z)).erase (arg argv 1)
        else db'.write (arg argv 1) (.zset z))
      (if z.size = 0 then none else some (.zset z)) ∧
    (if z.size = 0 then none else some (Object.zset z)).map valueOf = zsets.wrap (zvalue z) := by
  by_cases h : z.size = 0
  · rw [if_pos h, if_pos h]
    exact ⟨(hl.write _).erase, (if_pos ((zset_size_eq_zero z).1 h)).symm⟩
  · rw [if_neg h, if_neg h]
    exact ⟨hl.write _, (if_neg fun hall => h ((zset_size_eq_zero z).2 hall)).symm⟩

/-! `ZREM`. -/

theorem find_remove (z : ZSet) (m k : Bytes) :
    (z.remove m).1.dict.find k = if k = m then none else z.dict.find k := by
  unfold ZSet.remove
  cases hm : z.dict.find m with
  | none =>
    dsimp only
    split_ifs with hk
    · rw [hk, hm]
    · rfl
  | some v => exact Dict.find_erase ..

theorem find_removes (z : ZSet) (ms : List Bytes) (k : Bytes) :
    (countLoop ZSet.remove z ms).1.dict.find k = if k ∈ ms then none else z.dict.find k := by
  induction ms generalizing z with
  | nil => rfl
  | cons m ms ih =>
    rw [countLoop_cons, ih, find_remove]
    by_cases h : k = m <;> simp [h]

theorem count_removes (z : ZSet) (ms : List Bytes) :
    (countLoop ZSet.remove z ms).2 = (ms.toFinset.filter fun k => z.dict.find k ≠ none).card := by
  have hcount : ∀ (z : ZSet) k, (z.remove k).2 = decide (z.dict.find (id k) ≠ none) := by
    intro z k
    unfold ZSet.remove
    rw [id]
    cases z.dict.find k <;> rfl
  have hstep : ∀ (z : ZSet) k k', (z.remove k).1.dict.find k' ≠ none ↔ z.dict.find k' ≠ none ∧ k' ≠ id k := by
    intro z k k'
    rw [find_remove]
    by_cases hk : k' = k <;> simp [hk]
  have h := countLoop_card id (fun (z : ZSet) k => z.dict.find k ≠ none) hcount hstep z ms
  rw [List.map_id] at h
  exact h

/-- Fewer members are a smaller set. -/
theorem size_mono {z z' : ZSet} (h : ∀ k v, z'.dict.find k = some v → z.dict.find k = some v) :
    z'.size ≤ z.size := by
  rw [ZSet.size, ZSet.size, ← Dict.forEach_length, ← Dict.forEach_length]
  refine List.Subperm.length_le ?_
  refine List.subperm_of_subset (entries_forEach z'.dict).1.of_map fun p hp => ?_
  exact (Dict.mem_forEach _ _ _).2 (h p.1 p.2 ((Dict.mem_forEach _ _ _).1 hp))

theorem zrem_performs : Performs (Abstract.zrem argv) env argv db (Cmd.zrem env argv db) := by
  unfold Cmd.zrem Cmd.getZSet
  rw [getAs_eq]
  cases hf : found Object.zset? (db.peek env.now (arg argv 1)) with
  | wrongType => exact zset_refuses hf
  | absent =>
    have hl : Leaves env.now (arg argv 1) db _ _ := leaves_lookup
    rw [(found_absent _).1 hf] at hl
    have hwrap : (none : Option Object).map valueOf = zsets.wrap ⟨fun _ => none, True⟩ := (if_pos fun _ => rfl).symm
    refine zset_changes (finds_absent hf) hl hwrap ?_
    exact ⟨funext fun m => (ite_self _).symm, id, by simp [Result.clean]⟩
  | present z =>
    obtain ⟨o, hl⟩ := zset_there hf
    obtain ⟨hleft, hwrap⟩ := zset_left hl (countLoop ZSet.remove z (argv.drop 2)).1
    refine zset_changes (finds_present hf) hleft hwrap ⟨funext fun m => find_removes z _ m, fun hz => ?_, ?_⟩
    · refine ⟨countLoop_remove_coherent _ hz.1, lt_of_le_of_lt (size_mono fun k v hk => ?_) hz.2⟩
      rw [find_removes] at hk
      split_ifs at hk
      exact hk
    · exact congrArg (fun n : ℕ => Reply.integer n) (count_removes z (argv.drop 2))

/-! `ZINCRBY`. -/

/-- A score is left alone where it equals the new one, else it is replaced. -/
theorem set_cases (z : ZSet) (levels : Levels) (m : Bytes) (v : Double) :
    ((z.set levels m v).1 = z ∧ rescore z.dict.find m v = z.dict.find ∧ z.dict.find m ≠ none) ∨
      ((z.set levels m v).1.dict.find = Function.update z.dict.find m (some v) ∧
        rescore z.dict.find m v = Function.update z.dict.find m (some v)) := by
  unfold rescore
  cases hm : z.dict.find m with
  | none => exact .inr ⟨ZSet.find_set z levels m v (by simp [hm]), if_neg Bool.false_ne_true⟩
  | some cur =>
    by_cases heq : cur.eq v = true
    · refine .inl ⟨?_, if_pos heq, nofun⟩
      unfold ZSet.set
      rw [hm]
      dsimp only
      rw [if_pos heq]
    · exact .inr ⟨ZSet.find_set z levels m v (by simpa [hm] using heq), if_neg heq⟩

theorem find_rescore (z : ZSet) (levels : Levels) (m : Bytes) (v : Double) :
    (z.set levels m v).1.dict.find = rescore z.dict.find m v := by
  rcases set_cases z levels m v with ⟨hsame, hkept, -⟩ | ⟨hfind, hstored⟩
  · rw [hsame, hkept]
  · rw [hfind, hstored]

/-- A sorted set keeps its order when its scores still fit. -/
theorem set_ordered {z : ZSet} (h : (zvalue z).ordered) {levels : Levels} {m : Bytes} {v : Double}
    (hfits : Rankable (z.set levels m v).1.dict.find) : (zvalue (z.set levels m v).1).ordered := by
  refine ⟨?_, size_of_rankable hfits⟩
  rcases set_cases z levels m v with ⟨hsame, -, -⟩ | ⟨hfind, -⟩
  · rw [hsame]
    exact h.1
  · exact h.1.set (hfits.1 m v (by rw [hfind, Function.update_self]))

theorem set_member (z : ZSet) (levels : Levels) (m : Bytes) (v : Double) :
    (z.set levels m v).1.dict.find m ≠ none := by
  rcases set_cases z levels m v with ⟨hsame, -, hsome⟩ | ⟨hfind, -⟩
  · rwa [hsame]
  · rw [hfind, Function.update_self]
    exact nofun

theorem zincrby_performs : Performs (Abstract.zincrby argv) env argv db (Cmd.zincrby env argv db) := by
  unfold Cmd.zincrby Abstract.zincrby Cmd.makeZSet
  cases hdelta : parseDouble (arg argv 2) with
  | none => exact performs_refused
  | some delta =>
    dsimp only
    rw [getOrMake_eq]
    have hone : ∀ (z : ZSet) v, zsets.wrap (zvalue (z.set env.levels (arg argv 3) v).1) =
        some (valueOf (.zset (z.set env.levels (arg argv 3) v).1)) := fun z v =>
      if_neg fun hall => set_member z env.levels (arg argv 3) v (hall _)
    cases hf : found Object.zset? (db.peek env.now (arg argv 1)) with
    | wrongType => exact zset_refuses hf
    | absent =>
      have hset := leaves_set ((found_absent _).1 hf) (.zset .empty)
      have hempty : ZSet.empty.dict.find = fun _ => none := funext fun m => Dict.find_empty m
      refine zset_changes (finds_absent hf) (hset.write _) (hone _ _).symm ⟨?_, fun _ hfits => ?_, ?_⟩
      · exact (find_rescore ..).trans (by rw [hempty])
      · exact set_ordered (z := .empty) ⟨ZSet.coherent_empty, by decide⟩ hfits
      · dsimp only [Result.marked]
        rw [hempty]
    | present z =>
      obtain ⟨o, hl⟩ := zset_there hf
      refine zset_changes (finds_present hf) (hl.write _) (hone _ _).symm ?_
      exact ⟨find_rescore .., fun ho hfits => set_ordered ho hfits, rfl⟩

end Changes

/-! `ZADD`. -/

section ZAdd

variable {f : Cmd.ZAddFlags} {levels : Levels} {st : Cmd.ZAddState} {t : Scoring} {score : Double} {m : Bytes}

/-- The loop of the handler and the one of the command. -/
structure ScoresAs (st : Cmd.ZAddState) (t : Scoring) : Prop where
  scores : st.z.dict.find = t.value.scores
  ordered : t.value.ordered → (zvalue st.z).ordered
  added : st.added = t.added
  changed : st.changed = t.changed
  last : st.last = t.last

theorem ScoresAs.store (h : ScoresAs st t) (hnew : ∀ cur ∈ st.z.dict.find m, cur.eq score = false) (n : ℕ) :
    ScoresAs ⟨(st.z.set levels m score).1, st.added + n, st.changed + 1, some score⟩ (t.store m score n) := by
  have hfind := ZSet.find_set st.z levels m score hnew
  rw [h.scores] at hfind
  refine ⟨hfind, fun ho => ?_, ?_, ?_, rfl⟩
  · refine set_ordered (h.ordered ho.1) ?_
    rw [hfind]
    exact ho.2
  · rw [h.added]
    rfl
  · rw [h.changed]
    rfl

theorem ScoresAs.round (h : ScoresAs st t) :
    ScoresAs (Cmd.zaddRound f levels st score m) (t.round f score m) := by
  have hstore : ∀ score, (∀ cur ∈ st.z.dict.find m, cur.eq score = false) → ∀ n, ScoresAs
      ⟨(st.z.set levels m score).1, st.added + n, st.changed + 1, some score⟩ (t.store m score n) :=
    fun _ hnew n => h.store hnew n
  unfold Cmd.zaddRound Scoring.round
  rw [← h.scores]
  cases hm : st.z.dict.find m with
  | none =>
    dsimp only
    by_cases hxx : f.xx = true
    · rw [if_pos hxx, if_pos hxx]
      exact h
    · rw [if_neg hxx, if_neg hxx]
      exact hstore _ (by simp [hm]) 1
  | some cur =>
    dsimp only
    generalize (if f.incr = true then score.add cur else score) = score'
    by_cases hnx : f.nx = true
    · rw [if_pos hnx, if_pos (.inl hnx)]
      exact h
    by_cases hgt : f.gt = true ∧ score'.le cur = true
    · rw [if_neg hnx, if_pos hgt, if_pos (.inr (.inl hgt))]
      exact h
    by_cases hlt : f.lt = true ∧ cur.le score' = true
    · rw [if_neg hnx, if_neg hgt, if_pos hlt, if_pos (.inr (.inr hlt))]
      exact h
    have hpass : ¬(f.nx = true ∨ f.gt = true ∧ score'.le cur = true ∨ f.lt = true ∧ cur.le score' = true) :=
      fun hany => hany.elim hnx (·.elim hgt hlt)
    rw [if_neg hnx, if_neg hgt, if_neg hlt, if_neg hpass]
    by_cases heq : cur.eq score' = true
    · rw [if_pos heq, if_pos heq]
      exact ⟨h.scores, h.ordered, h.added, h.changed, rfl⟩
    · rw [if_neg heq, if_neg heq]
      exact hstore _ (by simpa [hm] using heq) 0

theorem ScoresAs.rounds (h : ScoresAs st t) (f : Cmd.ZAddFlags) (levels : Levels) (ps : List (Bytes × Bytes)) :
    ScoresAs (Cmd.zaddLoop f levels st ps).1 (Scoring.rounds f t ps).1 ∧
      (Cmd.zaddLoop f levels st ps).2 = (Scoring.rounds f t ps).2 := by
  induction ps generalizing st t with
  | nil => exact ⟨h, rfl⟩
  | cons p ps ih =>
    unfold Cmd.zaddLoop Scoring.rounds
    cases parseDouble p.1 with
    | none => exact ⟨h, rfl⟩
    | some score => exact ih h.round

theorem ScoresAs.reply (h : ScoresAs st t) : Cmd.zaddReply f st = t.reply f := by
  unfold Cmd.zaddReply Scoring.reply
  rw [h.last, h.changed, h.added]

variable {env : Env} {argv : List Bytes} {db db' : Keyspace}

/-- The end of `ZADD`, on what it has found or made. -/
theorem zaddOn_performs {z : ZSet} {a : ZValue} {o : Object} (ha : FindsZSet env argv db a)
    (hl : Leaves env.now (arg argv 1) db db' (some o)) (hscores : z.dict.find = a.scores)
    (hordered : a.ordered → (zvalue z).ordered) :
    Performs (zaddPairs (Cmd.zaddArgs argv).1 (pairs (Cmd.zaddArgs argv).2)) env argv db
      (Cmd.zaddOn env argv db' z) := by
  have hstart : ScoresAs ⟨z, 0, 0, none⟩ ⟨a, 0, 0, none⟩ := ⟨hscores, hordered, rfl, rfl, rfl⟩
  obtain ⟨hscoring, hall⟩ := hstart.rounds (Cmd.zaddArgs argv).1 env.levels (pairs (Cmd.zaddArgs argv).2)
  unfold FindsZSet at ha
  unfold zaddPairs Cmd.zaddOn
  generalize Cmd.zaddLoop (Cmd.zaddArgs argv).1 env.levels ⟨z, 0, 0, none⟩ (pairs (Cmd.zaddArgs argv).2) = r
    at hscoring hall ⊢
  obtain ⟨st, ok⟩ := r
  dsimp only at hscoring hall ⊢
  cases ok with
  | false =>
    refine performs_keeping (hl.write (.zset st.z)) ?_
    rw [ha]
    refine ⟨(zvalue st.z).ordered, hscoring.ordered, ?_⟩
    rw [← hall, if_neg Bool.false_ne_true, ← hscoring.scores]
    exact ⟨rfl, rfl⟩
  | true =>
    obtain ⟨hleft, hwrap⟩ := zset_left hl st.z
    refine performs_keeping hleft ?_
    rw [ha]
    refine ⟨(zvalue st.z).ordered, hscoring.ordered, ?_⟩
    rw [← hall, if_pos rfl, ← hscoring.scores, ← hscoring.reply]
    exact ⟨hwrap, rfl⟩

theorem zadd_performs : Performs (Abstract.zadd argv) env argv db (Cmd.zadd env argv db) := by
  rw [Cmd.zadd_eq]
  by_cases hsyn : Cmd.zaddSyntax argv = true
  · have hno : ¬((Cmd.zaddArgs argv).2 = [] ∨ (Cmd.zaddArgs argv).2.length % 2 ≠ 0) := by
      simpa [Cmd.zaddSyntax] using hsyn
    have heffect : Abstract.zadd argv = zaddPairs (Cmd.zaddArgs argv).1 (pairs (Cmd.zaddArgs argv).2) :=
      if_neg hno
    rw [if_pos hsyn, heffect]
    cases hf : found Object.zset? (db.peek env.now (arg argv 1)) with
    | wrongType =>
      refine performs_keeping leaves_lookup ?_
      rw [view_zset, hf]
      exact ⟨rfl, rfl⟩
    | absent =>
      have hempty : ZSet.empty.dict.find = fun _ => none := funext fun m => Dict.find_empty m
      exact zaddOn_performs (finds_absent hf) (leaves_set ((found_absent _).1 hf) _) hempty fun _ =>
        ⟨ZSet.coherent_empty, by decide⟩
    | present z =>
      obtain ⟨o, hl⟩ := zset_there hf
      exact zaddOn_performs (finds_present hf) hl rfl id
  · have hbad : (Cmd.zaddArgs argv).2 = [] ∨ (Cmd.zaddArgs argv).2.length % 2 ≠ 0 := by
      by_contra hno
      exact hsyn (by simpa [Cmd.zaddSyntax] using hno)
    have heffect : Abstract.zadd argv = refused errSyntax := if_pos hbad
    rw [if_neg hsyn, heffect]
    exact performs_refused

end ZAdd

end BlazeKV
