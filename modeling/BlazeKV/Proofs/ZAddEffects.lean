import BlazeKV.Proofs.WriteCommands

/-! `ZADD` works through its pairs in order and stops at a score that does not parse,
after the pairs in front of it have been stored. -/

namespace BlazeKV

open Keyspace

/-- The scores of a sorted set. -/
abbrev Scores := Bytes → Option Double

/-- The scores after one pair. -/
def scoreRound (f : Cmd.ZAddFlags) (m : Scores) (p : Double × Bytes) : Scores :=
  match m p.2 with
  | none => if f.xx then m else Function.update m p.2 (some (if f.incr then p.1.add .zero else p.1))
  | some cur =>
    let score := if f.incr then p.1.add cur else p.1
    if f.nx ∨ (f.gt ∧ score.le cur) ∨ (f.lt ∧ cur.le score) ∨ cur.eq score then m
    else Function.update m p.2 (some score)

/-- The pairs in front of the first score that does not parse. -/
def goodPairs : List (Bytes × Bytes) → List (Double × Bytes)
  | [] => []
  | (s, member) :: rest =>
    match parseDouble s with
    | none => []
    | some score => (score, member) :: goodPairs rest

/-- Whether every score parses. -/
def allParse (ps : List (Bytes × Bytes)) : Bool := ps.all fun p => (parseDouble p.1).isSome

namespace ZSet

theorem find_set (z : ZSet) (levels : Levels) (member : Bytes) (score : Double)
    (h : ∀ cur ∈ z.dict.find member, cur.eq score = false) :
    (z.set levels member score).1.dict.find = Function.update z.dict.find member (some score) := by
  funext k
  unfold set
  cases hm : z.dict.find member with
  | none =>
    by_cases hk : k = member <;> simp [hk]
  | some cur =>
    have := h cur hm
    by_cases hk : k = member <;> simp [this, hk, hm]

end ZSet

namespace Cmd

variable (f : ZAddFlags) (levels : Levels)

theorem zaddRound_scores (st : ZAddState) (score : Double) (member : Bytes) :
    (zaddRound f levels st score member).z.dict.find = scoreRound f st.z.dict.find (score, member) := by
  unfold zaddRound scoreRound
  dsimp only
  cases hm : st.z.dict.find member with
  | none =>
    dsimp only
    split_ifs <;> first | rfl | exact ZSet.find_set _ _ _ _ (by simp [hm])
  | some cur =>
    dsimp only
    generalize (if f.incr then score.add cur else score) = s
    by_cases h1 : f.nx
    · simp [h1]
    by_cases h2 : f.gt ∧ s.le cur
    · simp [h1, h2]
    by_cases h3 : f.lt ∧ cur.le s
    · simp [h1, h2, h3]
    by_cases h4 : cur.eq s
    · simp [h1, h2, h3, h4]
    · rw [if_neg h1, if_neg h2, if_neg h3, if_neg h4, if_neg (by simp [h1, h2, h3, h4])]
      exact ZSet.find_set _ _ _ _ fun c hc => by
        obtain rfl : cur = c := by simpa [hm] using hc
        simpa using h4

/-- The sorted set that the loop leaves, whether it ends or stops. -/
theorem zaddLoop_scores (st : ZAddState) (ps : List (Bytes × Bytes)) :
    (zaddLoop f levels st ps).1.z.dict.find = (goodPairs ps).foldl (scoreRound f) st.z.dict.find := by
  induction ps generalizing st with
  | nil => rfl
  | cons p ps ih =>
    obtain ⟨s, member⟩ := p
    cases hs : parseDouble s with
    | none => simp [zaddLoop, goodPairs, hs]
    | some score => simp [zaddLoop, goodPairs, hs, ih, zaddRound_scores]

theorem zaddLoop_ok (st : ZAddState) (ps : List (Bytes × Bytes)) :
    (zaddLoop f levels st ps).2 = allParse ps := by
  induction ps generalizing st with
  | nil => rfl
  | cons p ps ih =>
    obtain ⟨s, member⟩ := p
    cases hs : parseDouble s with
    | none => simp [zaddLoop, allParse, hs]
    | some score =>
      simp only [zaddLoop, hs, ih]
      simp [allParse, hs]

theorem zaddRound_changed (st : ZAddState) (score : Double) (member : Bytes) :
    st.changed ≤ (zaddRound f levels st score member).changed ∧
      ((zaddRound f levels st score member).changed = st.changed →
        (zaddRound f levels st score member).z = st.z) := by
  unfold zaddRound
  cases st.z.dict.find member with
  | none =>
    dsimp only
    split_ifs <;> simp
  | some cur =>
    dsimp only
    split_ifs <;> simp

/-- Where no pair counts as a change, the sorted set is the same. -/
theorem zaddLoop_changed (st : ZAddState) (ps : List (Bytes × Bytes)) :
    st.changed ≤ (zaddLoop f levels st ps).1.changed ∧
      ((zaddLoop f levels st ps).1.changed = st.changed → (zaddLoop f levels st ps).1.z = st.z) := by
  induction ps generalizing st with
  | nil => exact ⟨le_refl _, fun _ => rfl⟩
  | cons p ps ih =>
    obtain ⟨s, member⟩ := p
    cases hs : parseDouble s with
    | none => simp [zaddLoop, hs]
    | some score =>
      simp only [zaddLoop, hs]
      obtain ⟨hle, heq⟩ := zaddRound_changed f levels st score member
      obtain ⟨hle', heq'⟩ := ih (zaddRound f levels st score member)
      refine ⟨hle.trans hle', fun h => ?_⟩
      rw [heq' (by omega), heq (by omega)]

theorem isError_zaddReply (st : ZAddState) : isError (zaddReply f st) = false := by
  unfold zaddReply
  split_ifs
  · cases st.last <;> simp
  · simp
  · simp

variable {K : Bytes → Prop} (env : Env) (argv : List Bytes) (db : Keyspace)

/-- The flags and the pairs of `ZADD`. -/
def zaddArgs (argv : List Bytes) : ZAddFlags × List Bytes :=
  zaddFlags ⟨false, false, false, false, false, false⟩ (argv.drop 2)

/-- The end of `ZADD`, on the sorted set that it has found or made. -/
def zaddOn (env : Env) (argv : List Bytes) (db : Keyspace) (z : ZSet) : Result :=
  let (st, ok) := zaddLoop (zaddArgs argv).1 env.levels ⟨z, 0, 0, none⟩ (pairs (zaddArgs argv).2)
  let db := db.write (arg argv 1) (.zset st.z)
  if !ok then .clean db errNotFloat
  else .markedIf (st.added ≠ 0 ∨ st.changed ≠ 0)
    (if st.z.size = 0 then db.erase (arg argv 1) else db) (zaddReply (zaddArgs argv).1 st)

def zaddSyntax (argv : List Bytes) : Bool := (zaddArgs argv).2 ≠ [] ∧ (zaddArgs argv).2.length % 2 = 0

theorem zadd_eq : zadd env argv db =
    if zaddSyntax argv then match found Object.zset? (db.peek env.now (arg argv 1)) with
      | .absent => zaddOn env argv ((db.lookup env.now (arg argv 1)).1.set (arg argv 1) (.zset .empty)) .empty
      | .wrongType => .clean (db.lookup env.now (arg argv 1)).1 errWrongType
      | .present z => zaddOn env argv (db.lookup env.now (arg argv 1)).1 z
    else .clean db errSyntax := by
  unfold zadd
  simp only [makeZSet, getOrMake_eq]
  by_cases hs : zaddSyntax argv
  · have hno : ¬((zaddArgs argv).2 = [] ∨ (zaddArgs argv).2.length % 2 ≠ 0) := by
      simpa [zaddSyntax] using hs
    rw [if_pos hs]
    refine (if_neg hno).trans ?_
    cases found Object.zset? (db.peek env.now (arg argv 1)) <;> rfl
  · have hno : (zaddArgs argv).2 = [] ∨ (zaddArgs argv).2.length % 2 ≠ 0 := by
      by_contra hc
      exact hs (by simpa [zaddSyntax] using hc)
    rw [if_neg hs]
    exact if_pos hno

theorem zaddOn_only {db' : Keyspace} (h : Only K db db') (hk : K (arg argv 1)) (z : ZSet) :
    Only K db (zaddOn env argv db' z).db := by
  unfold zaddOn
  dsimp only
  split_ifs
  · exact h.write _ _ hk
  · exact (h.write _ _ hk).erase _ hk
  · exact h.write _ _ hk

theorem zadd_flush : (zadd env argv db).flush = false := by
  have hon : ∀ db' z, (zaddOn env argv db' z).flush = false := by
    intro db' z
    unfold zaddOn
    dsimp only
    split_ifs <;> rfl
  rw [zadd_eq]
  split_ifs
  · cases found Object.zset? (db.peek env.now (arg argv 1)) <;> first | rfl | exact hon _ _
  · rfl

theorem zadd_only (hk : K (arg argv 1)) : Only K db (zadd env argv db).db := by
  have hl := (Looked.one env.now db hk).only
  rw [zadd_eq]
  split_ifs
  · cases found Object.zset? (db.peek env.now (arg argv 1)) with
    | absent => exact zaddOn_only env argv db (hl.set _ _ hk) hk _
    | wrongType => exact hl
    | present z => exact zaddOn_only env argv db hl hk z
  · exact .refl db

/-- The scores at a key; none where there is no sorted set. -/
def scoresAt (o : Option Object) : Scores :=
  match o.bind Object.zset? with
  | some z => z.dict.find
  | none => fun _ => none

/-- The arguments of `ZADD` get as far as the sorted set, and one of the scores does not
parse. -/
def zaddStops (env : Env) (argv : List Bytes) (db : Keyspace) : Bool :=
  zaddSyntax argv && !allParse (pairs (zaddArgs argv).2) &&
    (db.peek env.now (arg argv 1)).all fun o => o.zset?.isSome

/-- The key is there, and the pairs in front of the bad score leave its scores as they
were. -/
def ZaddUndone (env : Env) (argv : List Bytes) (db : Keyspace) : Prop :=
  (db.peek env.now (arg argv 1)).isSome ∧
    (goodPairs (pairs (zaddArgs argv).2)).foldl (scoreRound (zaddArgs argv).1)
      (scoresAt (db.peek env.now (arg argv 1))) = scoresAt (db.peek env.now (arg argv 1))

/-- All members are new to an empty sorted set, and `XX` refuses new members. -/
def zaddVain (env : Env) (argv : List Bytes) (db : Keyspace) : Bool :=
  zaddSyntax argv && allParse (pairs (zaddArgs argv).2) && (zaddArgs argv).1.xx &&
    (db.peek env.now (arg argv 1)).any fun o => o.zset?.any fun z => z.size = 0

theorem zaddOn_stop (db' : Keyspace) (z : ZSet) (h : allParse (pairs (zaddArgs argv).2) = false) :
    ∃ z', zaddOn env argv db' z = .clean (db'.write (arg argv 1) (.zset z')) errNotFloat ∧
      z'.dict.find = (goodPairs (pairs (zaddArgs argv).2)).foldl (scoreRound (zaddArgs argv).1) z.dict.find := by
  have hok := zaddLoop_ok (zaddArgs argv).1 env.levels ⟨z, 0, 0, none⟩ (pairs (zaddArgs argv).2)
  refine ⟨_, ?_, zaddLoop_scores (zaddArgs argv).1 env.levels ⟨z, 0, 0, none⟩ (pairs (zaddArgs argv).2)⟩
  unfold zaddOn
  simp [hok, h]

theorem zaddOn_end {db' : Keyspace} {z : ZSet} (h : allParse (pairs (zaddArgs argv).2)) :
    isError (zaddOn env argv db' z).reply = false := by
  have hok := zaddLoop_ok (zaddArgs argv).1 env.levels ⟨z, 0, 0, none⟩ (pairs (zaddArgs argv).2)
  unfold zaddOn
  simp only [hok, h, Bool.not_true, Bool.false_eq_true, if_false]
  exact isError_zaddReply _ _

theorem pairs_ne_nil {xs : List Bytes} (h : xs ≠ []) (he : xs.length % 2 = 0) : pairs xs ≠ [] := by
  match xs with
  | [] => exact absurd rfl h
  | [x] => simp at he
  | x :: y :: rest => simp [pairs]

theorem peek_of_live {db db' : Keyspace} {now : ℕ} {k : Bytes} (h : sameEntry (db.live now k) (db'.live now k)) :
    (db'.peek now k).isSome = (db.peek now k).isSome := by
  unfold live at h
  cases h1 : db.peek now k <;> cases h2 : db'.peek now k <;> simp_all [sameEntry]

theorem zset_of_found {o : Option Object} {z : ZSet} (h : found Object.zset? o = .present z) :
    o = some (.zset z) := by
  obtain ⟨x, hx, hz⟩ := (found_present _).1 h
  rw [hx]
  cases x <;> simp_all [Object.zset?]

/-- Writing another sorted set to a key changes nothing exactly when the scores agree. -/
theorem write_zset_iff {db : Keyspace} {now : ℕ} {key : Bytes} {z z' : ZSet}
    (h : db.peek now key = some (.zset z)) :
    LiveEquiv now db (db.write key (.zset z')) ↔ z'.dict.find = z.dict.find := by
  constructor
  · intro hlive
    have := hlive key
    rw [live_write, if_pos rfl] at this
    simp only [live, h, Option.map_some] at this
    funext k
    exact (this.1 k).symm
  · intro hE
    exact LiveEquiv.write_back key _ h fun k => (congrFun hE k).symm

/-- The bad score is met with everything in front of it stored. -/
theorem zadd_stop_iff (h : zaddStops env argv db) :
    isError (zadd env argv db).reply ∧ (zadd env argv db).dirty = false ∧
      (LiveEquiv env.now db (zadd env argv db).db ↔ ZaddUndone env argv db) := by
  simp only [zaddStops, Bool.and_eq_true, Bool.not_eq_true'] at h
  obtain ⟨⟨hsyn, hbad⟩, hzset⟩ := h
  rw [zadd_eq, if_pos hsyn]
  unfold ZaddUndone
  cases hf : found Object.zset? (db.peek env.now (arg argv 1)) with
  | absent =>
    have hnone := (found_absent _).1 hf
    obtain ⟨z', hres, -⟩ := zaddOn_stop env argv
      ((db.lookup env.now (arg argv 1)).1.set (arg argv 1) (.zset .empty)) .empty hbad
    simp only [hres]
    refine ⟨rfl, rfl, iff_of_false ?_ (by simp [hnone])⟩
    -- The key was missing, and is there now.
    intro hlive
    have := hlive (arg argv 1)
    rw [Result.clean_db, live_write, if_pos rfl, live_set, if_pos rfl, live, hnone] at this
    exact this
  | wrongType =>
    obtain ⟨x, hx, hz⟩ := found_wrongType _ hf
    simp [hx, hz] at hzset
  | present z =>
    have hz := zset_of_found hf
    obtain ⟨z', hres, hscores⟩ := zaddOn_stop env argv (db.lookup env.now (arg argv 1)).1 z hbad
    simp only [hres]
    refine ⟨rfl, rfl, ?_⟩
    rw [Result.clean_db, lookup_of_peek _ _ _ _ hz, write_zset_iff hz, hscores, hz]
    simp [scoresAt, Object.zset?]

theorem zadd_noStop (h : zaddStops env argv db = false) (herr : isError (zadd env argv db).reply) :
    LiveEquiv env.now db (zadd env argv db).db := by
  have hl := LiveEquiv.lookup_right env.now db (arg argv 1)
  rw [zadd_eq] at herr ⊢
  by_cases hsyn : zaddSyntax argv
  · rw [if_pos hsyn] at herr ⊢
    cases hf : found Object.zset? (db.peek env.now (arg argv 1)) with
    | wrongType => exact hl
    | absent =>
      rw [hf] at herr
      have hall : allParse (pairs (zaddArgs argv).2) := by
        by_contra hno
        simp [zaddStops, hsyn, hno, (found_absent _).1 hf] at h
      simp [zaddOn_end env argv hall] at herr
    | present z =>
      rw [hf] at herr
      have hall : allParse (pairs (zaddArgs argv).2) := by
        by_contra hno
        simp [zaddStops, hsyn, hno, zset_of_found hf, Object.zset?] at h
      simp [zaddOn_end env argv hall] at herr
  · rw [if_neg hsyn]
    exact .refl db

/-- The first pair with a new member counts. -/
theorem zaddLoop_new (st : ZAddState) (hxx : f.xx = false) {p : Bytes × Bytes} (ps : List (Bytes × Bytes))
    (h : st.z.dict.find p.2 = none) (hp : (parseDouble p.1).isSome) :
    st.changed < (zaddLoop f levels st (p :: ps)).1.changed := by
  obtain ⟨s, member⟩ := p
  obtain ⟨score, hs⟩ := Option.isSome_iff_exists.1 hp
  have hround : (zaddRound f levels st score member).changed = st.changed + 1 := by
    unfold zaddRound
    simp only [show st.z.dict.find member = none from h]
    simp [hxx]
  have := (zaddLoop_changed f levels (zaddRound f levels st score member) ps).1
  simp only [zaddLoop, show parseDouble s = some score from hs]
  omega

/-- Where `ZADD` ends without a mark, only an empty sorted set can be lost. -/
theorem zadd_clean_iff (h : zaddStops env argv db = false) (hd : (zadd env argv db).dirty = false) :
    LiveEquiv env.now db (zadd env argv db).db ↔ zaddVain env argv db = false := by
  have hl := LiveEquiv.lookup_right env.now db (arg argv 1)
  rw [zadd_eq] at hd ⊢
  unfold zaddVain
  by_cases hsyn : zaddSyntax argv
  · obtain ⟨hne, heven⟩ : (zaddArgs argv).2 ≠ [] ∧ (zaddArgs argv).2.length % 2 = 0 := by
      simpa [zaddSyntax] using hsyn
    obtain ⟨p, ps, hps⟩ := List.exists_cons_of_ne_nil (pairs_ne_nil hne heven)
    rw [if_pos hsyn] at hd ⊢
    cases hf : found Object.zset? (db.peek env.now (arg argv 1)) with
    | wrongType =>
      obtain ⟨x, hx, hz⟩ := found_wrongType _ hf
      exact iff_of_true hl (by simp [hx, hz])
    | absent =>
      have hnone := (found_absent _).1 hf
      have hall : allParse (pairs (zaddArgs argv).2) := by
        by_contra hno
        simp [zaddStops, hsyn, hno, hnone] at h
      refine iff_of_true ?_ (by simp [hnone])
      have hok := zaddLoop_ok (zaddArgs argv).1 env.levels ⟨.empty, 0, 0, none⟩ (pairs (zaddArgs argv).2)
      rw [hf] at hd
      simp only [zaddOn, hok, hall, Bool.not_true, Bool.false_eq_true, if_false, Result.markedIf,
        ne_eq, decide_eq_false_iff_not, not_or, not_not] at hd ⊢
      have hz := (zaddLoop_changed _ env.levels ⟨.empty, 0, 0, none⟩ (pairs (zaddArgs argv).2)).2 hd.2
      have hsize : ZSet.size .empty = 0 := by decide
      rw [hz, if_pos hsize]
      intro k
      rw [live_erase]
      split_ifs with hk
      · rw [hk, live, hnone]
        trivial
      · rw [live_write, if_neg hk, live_set, if_neg hk]
        exact hl k
    | present z =>
      have hz := zset_of_found hf
      have hall : allParse (pairs (zaddArgs argv).2) := by
        by_contra hno
        simp [zaddStops, hsyn, hno, hz, Object.zset?] at h
      have hok := zaddLoop_ok (zaddArgs argv).1 env.levels ⟨z, 0, 0, none⟩ (pairs (zaddArgs argv).2)
      rw [hf] at hd
      simp only [zaddOn, hok, hall, Bool.not_true, Bool.false_eq_true, if_false, Result.markedIf,
        ne_eq, decide_eq_false_iff_not, not_or, not_not] at hd ⊢
      have hsame := (zaddLoop_changed _ env.levels ⟨z, 0, 0, none⟩ (pairs (zaddArgs argv).2)).2 hd.2
      rw [hsame, lookup_of_peek _ _ _ _ hz]
      by_cases hsize : z.size = 0
      · have hxx : (zaddArgs argv).1.xx = true := by
          by_contra hno
          have hnone : ∀ m, z.dict.find m = none := (Dict.size_eq_zero _).1 hsize
          have hp : (parseDouble p.1).isSome := by
            rw [hps] at hall
            exact (List.all_eq_true.1 hall) p (by simp)
          have := zaddLoop_new (zaddArgs argv).1 env.levels ⟨z, 0, 0, none⟩ (by simpa using hno)
            ps (hnone p.2) hp
          rw [← hps] at this
          omega
        rw [if_pos hsize]
        refine iff_of_false ?_ (by simp [hsyn, hxx, hz, Object.zset?, hsize])
        intro hlive
        have := hlive (arg argv 1)
        rw [live_erase, if_pos rfl, live, hz] at this
        exact this
      · rw [if_neg hsize]
        refine iff_of_true (LiveEquiv.write_back _ _ hz (.refl _)) ?_
        simp [hz, Object.zset?, hsize]
  · rw [if_neg hsyn]
    exact iff_of_true (.refl db) (by simp [hsyn])

/-- Under `XX`, an empty sorted set stays empty. -/
theorem zaddLoop_vain (st : ZAddState) (ps : List (Bytes × Bytes)) (hxx : f.xx)
    (h : ∀ m, st.z.dict.find m = none) : (zaddLoop f levels st ps).1 = st := by
  induction ps with
  | nil => rfl
  | cons p ps ih =>
    obtain ⟨s, member⟩ := p
    cases hs : parseDouble s with
    | none => simp [zaddLoop, hs]
    | some score =>
      have hround : zaddRound f levels st score member = st := by
        simp [zaddRound, h, hxx]
      simpa [zaddLoop, hs, hround] using ih

theorem zaddVain_quiet (h : zaddVain env argv db) : (zadd env argv db).dirty = false := by
  simp only [zaddVain, Bool.and_eq_true] at h
  obtain ⟨⟨⟨hsyn, hall⟩, hxx⟩, hkey⟩ := h
  obtain ⟨o, ho, hz⟩ := (Option.any_eq_true _ _).1 hkey
  obtain ⟨z, hoz, hsize⟩ := (Option.any_eq_true _ _).1 hz
  have hnone : ∀ m, z.dict.find m = none := (Dict.size_eq_zero _).1 (of_decide_eq_true hsize)
  have hf : found Object.zset? (db.peek env.now (arg argv 1)) = .present z :=
    (found_present _).2 ⟨o, ho, hoz⟩
  have hok := zaddLoop_ok (zaddArgs argv).1 env.levels ⟨z, 0, 0, none⟩ (pairs (zaddArgs argv).2)
  have hst := zaddLoop_vain (zaddArgs argv).1 env.levels ⟨z, 0, 0, none⟩ (pairs (zaddArgs argv).2) hxx hnone
  rw [zadd_eq, if_pos hsyn, hf]
  simp [zaddOn, hok, hall, hst, Result.markedIf]

end Cmd

end BlazeKV
