import BlazeKV.Proofs.ZAddEffects

/-! What `ZADD` without `INCR` leaves of the scores. A member sees only the pairs that list it, so that the
flags can be followed along the scores listed for one member. -/

namespace BlazeKV

open Keyspace Cmd

/-- The score of a member after one pair that lists it. -/
def memberRound (f : ZAddFlags) (o : Option Double) (score : Double) : Option Double :=
  match o with
  | none => if f.xx then none else some score
  | some cur => if f.nx ∨ (f.gt ∧ score.le cur) ∨ (f.lt ∧ cur.le score) ∨ cur.eq score then some cur else some score

/-- The scores listed for a member, in order. -/
def scoresFor (m : Bytes) (ps : List (Double × Bytes)) : List Double := (ps.filter fun p => p.2 = m).map Prod.fst

section Members

variable {f : ZAddFlags} {o : Option Double} {xs : List Double}

theorem scoreRound_apply (hincr : f.incr = false) (s : Scores) (p : Double × Bytes) (m : Bytes) :
    scoreRound f s p m = if p.2 = m then memberRound f (s m) p.1 else s m := by
  unfold scoreRound memberRound
  simp only [hincr, Bool.false_eq_true, if_false]
  by_cases hm : p.2 = m
  · subst hm
    rw [if_pos rfl]
    cases hs : s p.2 with
    | none =>
      dsimp only
      split_ifs
      · exact hs
      · exact Function.update_self ..
    | some cur =>
      dsimp only
      split_ifs
      · exact hs
      · exact Function.update_self ..
  · rw [if_neg hm]
    cases s p.2 with
    | none =>
      dsimp only
      split_ifs
      · rfl
      · exact Function.update_of_ne (Ne.symm hm) ..
    | some cur =>
      dsimp only
      split_ifs
      · rfl
      · exact Function.update_of_ne (Ne.symm hm) ..

theorem scores_member (hincr : f.incr = false) (ps : List (Double × Bytes)) (s : Scores) (m : Bytes) :
    ps.foldl (scoreRound f) s m = (scoresFor m ps).foldl (memberRound f) (s m) := by
  induction ps generalizing s with
  | nil => rfl
  | cons p ps ih =>
    rw [List.foldl_cons, ih, scoreRound_apply hincr, scoresFor, scoresFor, List.filter_cons]
    by_cases hm : p.2 = m
    · simp [hm]
    · simp [hm]

theorem memberRound_nx (h : f.nx) (s : Double) : xs.foldl (memberRound f) (some s) = some s := by
  induction xs with
  | nil => rfl
  | cons x xs ih => rw [List.foldl_cons, show memberRound f (some s) x = some s by simp [memberRound, h], ih]

theorem memberRound_xx (h : f.xx) : xs.foldl (memberRound f) none = none := by
  induction xs with
  | nil => rfl
  | cons x xs ih => rw [List.foldl_cons, show memberRound f none x = none by simp [memberRound, h], ih]

/-- What holds of a score when a new one replaces it holds at the end. -/
theorem memberRound_keeps (P : Double → Prop) {s : Double} (hs : P s)
    (h : ∀ x ∈ xs, ∀ cur, P cur → (f.gt → x.le cur = false) → (f.lt → cur.le x = false) → P x) :
    ∃ s', xs.foldl (memberRound f) (some s) = some s' ∧ P s' := by
  induction xs generalizing s with
  | nil => exact ⟨s, rfl, hs⟩
  | cons x xs ih =>
    have hrest := fun y hy => h y (List.mem_cons_of_mem x hy)
    rw [List.foldl_cons]
    by_cases hkeep : f.nx ∨ (f.gt ∧ x.le s) ∨ (f.lt ∧ s.le x) ∨ s.eq x
    · rw [show memberRound f (some s) x = some s from if_pos hkeep]
      exact ih hs hrest
    · rw [show memberRound f (some s) x = some x from if_neg hkeep]
      simp only [not_or, not_and, Bool.not_eq_true] at hkeep
      exact ih (h x List.mem_cons_self s hs hkeep.2.1 hkeep.2.2.1) hrest

theorem memberRound_gt (h : f.gt) (hnum : ∀ x ∈ xs, x.isNaN = false) (s : Double) :
    ∃ s', xs.foldl (memberRound f) (some s) = some s' ∧ s'.lt s = false := by
  -- a score that is not a number can only be the one that was there
  obtain ⟨s', hs', hlt, -⟩ := @memberRound_keeps f xs (fun s' => s'.lt s = false ∧ (s' = s ∨ s'.isNaN = false))
    s ⟨by simp [Lib.Binary64.lt], .inl rfl⟩ fun x hx cur hcur hgt _ => by
      have hx := hnum x hx
      have hle := hgt h
      refine ⟨?_, .inr hx⟩
      obtain ⟨hcur, rfl | hc⟩ := hcur
      · cases hs : cur.isNaN <;> simp_all [Lib.Binary64.lt, Lib.Binary64.le]
        omega
      · cases hs : s.isNaN <;> simp_all [Lib.Binary64.lt, Lib.Binary64.le]
        omega
  exact ⟨s', hs', hlt⟩

theorem memberRound_lt (h : f.lt) (hnum : ∀ x ∈ xs, x.isNaN = false) (s : Double) :
    ∃ s', xs.foldl (memberRound f) (some s) = some s' ∧ s.lt s' = false := by
  obtain ⟨s', hs', hlt, -⟩ := @memberRound_keeps f xs (fun s' => s.lt s' = false ∧ (s' = s ∨ s'.isNaN = false))
    s ⟨by simp [Lib.Binary64.lt], .inl rfl⟩ fun x hx cur hcur _ hlt => by
      have hx := hnum x hx
      have hle := hlt h
      refine ⟨?_, .inr hx⟩
      obtain ⟨hcur, rfl | hc⟩ := hcur
      · cases hs : cur.isNaN <;> simp_all [Lib.Binary64.lt, Lib.Binary64.le]
        omega
      · cases hs : s.isNaN <;> simp_all [Lib.Binary64.lt, Lib.Binary64.le]
        omega
  exact ⟨s', hs', hlt⟩

/-- Without a condition the last score stays, or one that equals it. -/
theorem memberRound_last (h : f.nx = false ∧ f.xx = false ∧ f.gt = false ∧ f.lt = false) {x : Double} (hx : x.isNaN = false) :
    ∃ s, (xs ++ [x]).foldl (memberRound f) o = some s ∧ s.eq x := by
  have hself : x.eq x := by rw [Lib.Binary64.eq_iff hx hx]
  rw [List.foldl_concat]
  obtain ⟨hnx, hxx, hgt, hlt⟩ := h
  cases xs.foldl (memberRound f) o with
  | none => exact ⟨x, by simp [memberRound, hxx], hself⟩
  | some cur =>
    by_cases he : cur.eq x
    · exact ⟨cur, by simp [memberRound, he], he⟩
    · exact ⟨x, by simp [memberRound, he, hnx, hgt, hlt], hself⟩

end Members

section Sizes

variable {α : Type} [Inhabited α] {d d' : Dict α} {k : Bytes}

theorem Dict.mem_keys : k ∈ d.forEach.map Prod.fst ↔ (d.find k).isSome := by
  simp only [List.mem_map, Prod.exists, Dict.mem_forEach, exists_and_right, exists_eq_right, Option.isSome_iff_exists]

theorem Dict.length_keys (d : Dict α) : (d.forEach.map Prod.fst).length = d.size := by
  rw [List.length_map, Dict.forEach_length]

theorem Dict.size_congr (h : ∀ k, (d'.find k).isSome ↔ (d.find k).isSome) : d'.size = d.size := by
  have hperm := (List.perm_ext_iff_of_nodup (Dict.forEach_nodup d') (Dict.forEach_nodup d)).2 fun k => by
    rw [Dict.mem_keys, Dict.mem_keys, h]
  rw [← Dict.length_keys, hperm.length_eq, Dict.length_keys]

theorem Dict.size_new (hk : d.find k = none) (h : ∀ k', (d'.find k').isSome ↔ k' = k ∨ (d.find k').isSome) :
    d'.size = d.size + 1 := by
  have hnew : (k :: d.forEach.map Prod.fst).Nodup :=
    List.nodup_cons.2 ⟨by simp [Dict.mem_keys, hk, -List.mem_map], Dict.forEach_nodup d⟩
  have hperm := (List.perm_ext_iff_of_nodup (Dict.forEach_nodup d') hnew).2 fun k' => by
    rw [Dict.mem_keys, h, List.mem_cons, Dict.mem_keys]
  rw [← Dict.length_keys, hperm.length_eq, List.length_cons, Dict.length_keys]

variable (f : ZAddFlags) (levels : Levels)

theorem zaddRound_size (st : ZAddState) (score : Double) (member : Bytes) :
    (zaddRound f levels st score member).added + st.z.size = st.added + (zaddRound f levels st score member).z.size := by
  unfold zaddRound
  cases hm : st.z.dict.find member with
  | none =>
    dsimp only
    generalize (if f.incr then score.add .zero else score) = s
    split_ifs
    · rfl
    · have hfind := ZSet.find_set st.z levels member s (by simp [hm])
      have hsize : (st.z.set levels member s).1.size = st.z.size + 1 := Dict.size_new hm fun k' => by
        rw [hfind]
        by_cases hk : k' = member <;> simp [hk, Function.update_of_ne]
      dsimp only
      omega
  | some cur =>
    dsimp only
    generalize (if f.incr then score.add cur else score) = s
    split_ifs with h1 h2 h3 h4
    · rfl
    · rfl
    · rfl
    · rfl
    · have hfind := ZSet.find_set st.z levels member s fun c hc => by
        obtain rfl : cur = c := by simpa [hm] using hc
        simpa using h4
      have hsize : (st.z.set levels member s).1.size = st.z.size := Dict.size_congr fun k' => by
        rw [hfind]
        by_cases hk : k' = member <;> simp [hk, Function.update_of_ne, hm]
      dsimp only
      omega

/-- The members that are counted as added are those that the set grows by. -/
theorem zaddLoop_size (st : ZAddState) (ps : List (Bytes × Bytes)) :
    (zaddLoop f levels st ps).1.added + st.z.size = st.added + (zaddLoop f levels st ps).1.z.size := by
  induction ps generalizing st with
  | nil => rfl
  | cons p ps ih =>
    obtain ⟨s, member⟩ := p
    cases hs : parseDouble s with
    | none => simp [zaddLoop, hs]
    | some score =>
      have hround := zaddRound_size f levels st score member
      have hrest := ih (zaddRound f levels st score member)
      simp only [zaddLoop, hs]
      omega

end Sizes

/-- The members at a key; none where there is no sorted set. -/
def cardAt (o : Option Object) : ℕ := (o.bind Object.zset?).elim 0 ZSet.size

/-- The last score listed for a member. -/
def lastListed (m : Bytes) (ps : List (Bytes × Bytes)) : Option Double := (scoresFor m (goodPairs ps)).getLast?

/-- What the flags of `ZADD` promise for the scores before and after it. -/
structure ZAddLaw (f : ZAddFlags) (ps : List (Bytes × Bytes)) (before after : Scores) : Prop where
  others : ∀ m, m ∉ ps.map Prod.snd → after m = before m
  nx : f.nx → ∀ m s, before m = some s → after m = some s
  xx : f.xx → ∀ m, before m = none → after m = none
  gt : f.gt → ∀ m s, before m = some s → ∃ s', after m = some s' ∧ s'.lt s = false
  lt : f.lt → ∀ m s, before m = some s → ∃ s', after m = some s' ∧ s.lt s' = false
  /-- Equal as numbers: a zero that is there stays, whatever the sign of the listed one. -/
  last : f.nx = false ∧ f.xx = false ∧ f.gt = false ∧ f.lt = false →
    ∀ m, ∀ s ∈ lastListed m ps, ∃ s', after m = some s' ∧ s'.eq s

section Law

variable {f : ZAddFlags} {ps : List (Bytes × Bytes)}

theorem mem_goodPairs {p : Double × Bytes} (h : p ∈ goodPairs ps) : ∃ q ∈ ps, parseDouble q.1 = some p.1 ∧ q.2 = p.2 := by
  induction ps with
  | nil => cases h
  | cons q ps ih =>
    obtain ⟨s, member⟩ := q
    rw [goodPairs] at h
    cases hs : parseDouble s with
    | none =>
      rw [hs] at h
      cases h
    | some score =>
      rw [hs] at h
      rcases List.mem_cons.1 h with rfl | h
      · exact ⟨_, List.mem_cons_self, hs, rfl⟩
      · obtain ⟨q, hq, hp⟩ := ih h
        exact ⟨q, List.mem_cons_of_mem _ hq, hp⟩

theorem zaddLaw_foldl (hincr : f.incr = false) (hnum : ∀ p ∈ ps, ∀ s ∈ parseDouble p.1, s.isNaN = false) (before : Scores) :
    ZAddLaw f ps before ((goodPairs ps).foldl (scoreRound f) before) := by
  have hscores : ∀ m, ∀ x ∈ scoresFor m (goodPairs ps), x.isNaN = false := by
    intro m x hx
    obtain ⟨p, hp, rfl⟩ := List.mem_map.1 hx
    obtain ⟨q, hq, hparse, -⟩ := mem_goodPairs (List.mem_filter.1 hp).1
    exact hnum q hq _ hparse
  constructor
  · intro m hm
    have hnil : scoresFor m (goodPairs ps) = [] := by
      rw [scoresFor, List.map_eq_nil_iff, List.filter_eq_nil_iff]
      intro p hp he
      obtain ⟨q, hq, -, hqp⟩ := mem_goodPairs hp
      exact hm (List.mem_map.2 ⟨q, hq, hqp.trans (of_decide_eq_true he)⟩)
    rw [scores_member hincr, hnil]
    rfl
  · intro h m s hs
    rw [scores_member hincr, hs, memberRound_nx h]
  · intro h m hs
    rw [scores_member hincr, hs, memberRound_xx h]
  · intro h m s hs
    rw [scores_member hincr, hs]
    exact memberRound_gt h (hscores m) s
  · intro h m s hs
    rw [scores_member hincr, hs]
    exact memberRound_lt h (hscores m) s
  · intro h m s hs
    rw [scores_member hincr]
    obtain ⟨xs, hxs⟩ := List.getLast?_eq_some_iff.1 hs
    rw [hxs]
    exact memberRound_last h (hscores m s (by rw [hxs]; simp))

/-- What `ZADD` leaves at its key, on the sorted set that it has found or made. -/
theorem zaddOn_after (env : Env) (argv : List Bytes) {db : Keyspace} {z : ZSet} (hz : (db.peek env.now (arg argv 1)).isSome)
    (hparse : allParse (pairs (zaddArgs argv).2)) :
    let r := zaddOn env argv db z
    let after := r.db.peek env.now (arg argv 1)
    scoresAt after = (goodPairs (pairs (zaddArgs argv).2)).foldl (scoreRound (zaddArgs argv).1) z.dict.find ∧
      ((zaddArgs argv).1.incr = false → (zaddArgs argv).1.ch = false → r.reply = Reply.integer ((cardAt after : ℤ) - z.size)) := by
  intro r after
  have hok := zaddLoop_ok (zaddArgs argv).1 env.levels ⟨z, 0, 0, none⟩ (pairs (zaddArgs argv).2)
  have hscores := zaddLoop_scores (zaddArgs argv).1 env.levels ⟨z, 0, 0, none⟩ (pairs (zaddArgs argv).2)
  have hsize := zaddLoop_size (zaddArgs argv).1 env.levels ⟨z, 0, 0, none⟩ (pairs (zaddArgs argv).2)
  have hafter : after = if (zaddLoop (zaddArgs argv).1 env.levels ⟨z, 0, 0, none⟩ (pairs (zaddArgs argv).2)).1.z.size = 0 then none
      else some (.zset (zaddLoop (zaddArgs argv).1 env.levels ⟨z, 0, 0, none⟩ (pairs (zaddArgs argv).2)).1.z) := by
    simp only [after, r, zaddOn, hok, hparse, Bool.not_true, Bool.false_eq_true, if_false, peek_eq_live]
    split_ifs
    · simp [Result.markedIf, live_erase]
    · simp only [Result.markedIf, live_write, if_pos]
      obtain ⟨o, ho⟩ := Option.isSome_iff_exists.1 hz
      simp [live, ho]
  have hreply : r.reply = zaddReply (zaddArgs argv).1 (zaddLoop (zaddArgs argv).1 env.levels ⟨z, 0, 0, none⟩ (pairs (zaddArgs argv).2)).1 := by
    simp only [r, zaddOn, hok, hparse]
    rfl
  rw [hreply, hafter]
  generalize zaddLoop (zaddArgs argv).1 env.levels ⟨z, 0, 0, none⟩ (pairs (zaddArgs argv).2) = st at *
  rw [← hscores]
  dsimp only at hsize ⊢
  constructor
  · split_ifs with h0
    · funext m
      exact ((Dict.size_eq_zero _).1 h0 m).symm
    · rfl
  · intro hincr hch
    rw [zaddReply, hincr, hch]
    simp only [Bool.false_eq_true, if_false]
    congr 1
    split_ifs with h0
    · simp only [cardAt, Option.bind_none, Option.elim_none]
      omega
    · simp only [cardAt, Object.zset?, Option.bind_some, Option.elim_some]
      omega

/-- `ZADD` without `INCR`, with scores that are numbers, on a sorted set or a missing key. -/
theorem zadd_law (env : Env) (argv : List Bytes) (db : Keyspace) (hincr : (zaddArgs argv).1.incr = false) (hsyn : zaddSyntax argv)
    (hkey : ∀ o ∈ db.peek env.now (arg argv 1), o.zset?.isSome)
    (hnum : ∀ p ∈ pairs (zaddArgs argv).2, ∃ s, parseDouble p.1 = some s ∧ s.isNaN = false) :
    let before := db.peek env.now (arg argv 1)
    let after := (zadd env argv db).db.peek env.now (arg argv 1)
    Only (· = arg argv 1) db (zadd env argv db).db ∧
      ZAddLaw (zaddArgs argv).1 (pairs (zaddArgs argv).2) (scoresAt before) (scoresAt after) ∧
      ((zaddArgs argv).1.ch = false → (zadd env argv db).reply = Reply.integer ((cardAt after : ℤ) - cardAt before)) := by
  intro before after
  have hparse : allParse (pairs (zaddArgs argv).2) := List.all_eq_true.2 fun p hp => by
    obtain ⟨s, hs, -⟩ := hnum p hp
    simp [hs]
  have hnan : ∀ p ∈ pairs (zaddArgs argv).2, ∀ s ∈ parseDouble p.1, s.isNaN = false := by
    intro p hp s hs
    obtain ⟨s', hs', hn⟩ := hnum p hp
    obtain rfl : s' = s := Option.some.inj (hs'.symm.trans hs)
    exact hn
  have hlaw := zaddLaw_foldl hincr hnan (scoresAt before)
  refine ⟨zadd_only env argv db rfl, ?_⟩
  simp only [after]
  rw [zadd_eq, if_pos hsyn]
  cases hf : found Object.zset? (db.peek env.now (arg argv 1)) with
  | absent =>
    have hnone : before = none := (found_absent _).1 hf
    obtain ⟨hscores, hreply⟩ := @zaddOn_after env argv
      ((db.lookup env.now (arg argv 1)).1.set (arg argv 1) (.zset .empty)) .empty (by simp [peek_eq_live, live_set]) hparse
    have hempty : scoresAt before = ZSet.empty.dict.find := by
      rw [hnone]
      funext m
      exact (Dict.find_empty m).symm
    dsimp only at hscores hreply ⊢
    rw [hscores]
    refine ⟨hempty ▸ hlaw, fun hch => (hreply hincr hch).trans ?_⟩
    rw [hnone]
    rfl
  | wrongType =>
    obtain ⟨o, ho, hz⟩ := found_wrongType _ hf
    have := hkey o ho
    rw [hz] at this
    cases this
  | present z =>
    have hz := zset_of_found hf
    obtain ⟨hscores, hreply⟩ := @zaddOn_after env argv (db.lookup env.now (arg argv 1)).1 z
      (by rw [peek_eq_live, live_lookup, ← peek_eq_live, hz]; rfl) hparse
    dsimp only at hscores hreply ⊢
    rw [hscores]
    have hb : before = some (.zset z) := hz
    rw [hb] at hlaw ⊢
    exact ⟨hlaw, fun hch => hreply hincr hch⟩

/-- A member that is listed twice, under `GT`. -/
theorem zadd_law_twice :
    let argv := [ascii "zadd", ascii "k", ascii "GT", ascii "2.5", ascii "a", ascii "-inf", ascii "a"]
    ZAddLaw (zaddArgs argv).1 (pairs (zaddArgs argv).2) (scoresAt none)
      (scoresAt ((zadd (.quiet 0) argv .empty).db.peek 0 (ascii "k"))) := by
  refine (zadd_law (.quiet 0) [ascii "zadd", ascii "k", ascii "GT", ascii "2.5", ascii "a", ascii "-inf", ascii "a"] .empty
    (by decide +kernel) (by decide +kernel) ?_ ?_).2.1
  · have hnone : Keyspace.empty.peek 0 (ascii "k") = none := by simp [Keyspace.empty, peek, dead]
    intro o ho
    rw [show arg _ 1 = ascii "k" from rfl, show (Env.quiet 0).now = 0 from rfl, hnone] at ho
    cases ho
  · have hnum : (pairs (zaddArgs [ascii "zadd", ascii "k", ascii "GT", ascii "2.5", ascii "a", ascii "-inf", ascii "a"]).2).all
        (fun p => (parseDouble p.1).any fun s => !s.isNaN) = true := by decide +kernel
    intro p hp
    obtain ⟨s, hs, hn⟩ := (Option.any_eq_true _ _).1 (List.all_eq_true.1 hnum p hp)
    exact ⟨s, hs, by simpa using hn⟩

end Law

end BlazeKV
