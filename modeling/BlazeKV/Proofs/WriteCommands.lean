import BlazeKV.Proofs.ReadCommands

/-! The commands that write: which keys they touch, and what they leave when they are
not marked dirty or reply with an error. -/

namespace BlazeKV

open Keyspace

/-- A reply that starts like an error. -/
def isError (reply : Bytes) : Bool := reply.head? = some 45

section IsError

variable (s rest : Bytes) (n : ℤ)

@[simp, grind =] theorem isError_integer : isError (Reply.integer n) = false := rfl
@[simp, grind =] theorem isError_simpleString : isError (Reply.simpleString s) = false := rfl
@[simp, grind =] theorem isError_bulk : isError (Reply.bulk s) = false := rfl
@[simp, grind =] theorem isError_nullBulk : isError Reply.nullBulk = false := by decide
@[simp, grind =] theorem isError_nullArray : isError Reply.nullArray = false := by decide
@[simp, grind =] theorem isError_arrayHeader : isError (Reply.arrayHeader n) = false := rfl
@[simp, grind =] theorem isError_doubleReply (v : Double) : isError (Reply.doubleReply v) = false := rfl
@[simp, grind =] theorem isError_array : isError (Reply.arrayHeader n ++ rest) = false := rfl
@[simp, grind =] theorem isError_bulk_append : isError (Reply.bulk s ++ rest) = false := rfl
@[simp, grind =] theorem isError_error : isError (Reply.error s) = true := rfl

@[simp, grind =] theorem isError_replyOpt (o : Option Bytes) : isError (Cmd.replyOpt o) = false := by
  cases o
  · exact isError_nullBulk
  · exact isError_bulk _

end IsError

/-- A handler whose keys are `K`. Where it is not marked dirty, or replies with an
error, everything live is as before. -/
structure Tame (K : Bytes → Prop) (now : ℕ) (db : Keyspace) (r : Result) : Prop where
  only : Only K db r.db
  flush : r.flush = false
  tidy : r.dirty = false → LiveEquiv now db r.db
  fails : isError r.reply → LiveEquiv now db r.db

variable {K : Bytes → Prop} {now : ℕ} {db db' : Keyspace}

theorem Looked.liveEquiv (h : Looked K now db db') : LiveEquiv now db db' := by
  intro k
  rw [h.live now (le_refl now)]

theorem Reads.tame {r : Result} (h : Reads K now db r) : Tame K now db r :=
  ⟨h.looked.only, h.flush, fun _ => h.looked.liveEquiv, fun _ => h.looked.liveEquiv⟩

@[grind .] theorem Tame.clean (h : Looked K now db db') (reply : Bytes) : Tame K now db (.clean db' reply) :=
  (Reads.clean h reply).tame

@[grind .] theorem Tame.marked {reply : Bytes} (h : Only K db db') (hr : isError reply = false) :
    Tame K now db (.marked db' reply) :=
  ⟨h, rfl, fun hd => absurd hd (by simp [Result.marked]), fun he => absurd he (by simp [Result.marked, hr])⟩

@[grind .] theorem Tame.markedIf {reply : Bytes} {dirty : Bool} (h : Only K db db') (hr : isError reply = false)
    (hq : dirty = false → LiveEquiv now db db') : Tame K now db (.markedIf dirty db' reply) :=
  ⟨h, rfl, hq, fun he => absurd he (by simp [Result.markedIf, hr])⟩

attribute [grind .] Only.set Only.write Only.erase Only.setDeadline Only.persist
attribute [grind →] Looked.only

/-! Loops that count: where nothing is counted, nothing has changed. -/

section Loops

variable {σ α : Type} {step : σ → α → σ × Bool}

theorem countLoop_from (s : σ) (xs : List α) (n : ℕ) :
    xs.foldl (fun r x => ((step r.1 x).1, if (step r.1 x).2 then r.2 + 1 else r.2)) (s, n) =
      ((countLoop step s xs).1, (countLoop step s xs).2 + n) := by
  induction xs generalizing s n with
  | nil => simp [countLoop]
  | cons x xs ih =>
    have h0 : countLoop step s (x :: xs) = xs.foldl
        (fun r x => ((step r.1 x).1, if (step r.1 x).2 then r.2 + 1 else r.2))
        ((step s x).1, if (step s x).2 then 0 + 1 else 0) := rfl
    rw [h0, List.foldl_cons, ih, ih]
    split_ifs
    · simp
      omega
    · simp

@[simp] theorem countLoop_nil (s : σ) : countLoop step s [] = (s, 0) := rfl

@[simp] theorem countLoop_cons (s : σ) (x : α) (xs : List α) : countLoop step s (x :: xs) =
    ((countLoop step (step s x).1 xs).1,
      (countLoop step (step s x).1 xs).2 + if (step s x).2 then 1 else 0) := by
  rw [countLoop, List.foldl_cons, countLoop_from]

theorem countLoop_keeps {P : σ → Prop} (xs : List α) (hstep : ∀ s x, x ∈ xs → P s → P (step s x).1)
    {s : σ} (h : P s) : P (countLoop step s xs).1 := by
  induction xs generalizing s with
  | nil => exact h
  | cons x xs ih =>
    rw [countLoop_cons]
    exact ih (fun s y hy => hstep s y (by simp [hy])) (hstep s x (by simp) h)

theorem countLoop_zero {P : σ → Prop} (hstep : ∀ s x, P s → (step s x).2 = false → P (step s x).1)
    {s : σ} (h : P s) (xs : List α) (h0 : (countLoop step s xs).2 = 0) : P (countLoop step s xs).1 := by
  induction xs generalizing s with
  | nil => exact h
  | cons x xs ih =>
    rw [countLoop_cons] at h0 ⊢
    cases hx : (step s x).2 with
    | false => exact ih (hstep s x h hx) (by simpa [hx] using h0)
    | true => simp [hx] at h0

theorem countLoop_idle {P : σ → Prop} (hstep : ∀ s x, P s → P (step s x).1 ∧ (step s x).2 = false)
    {s : σ} (h : P s) (xs : List α) : (countLoop step s xs).2 = 0 := by
  induction xs generalizing s with
  | nil => rfl
  | cons x xs ih =>
    rw [countLoop_cons, (hstep s x h).2]
    exact ih (hstep s x h).1

end Loops

section Equiv

variable {α : Type} [Inhabited α] {d d' : Dict α}

theorem erase_absent {k : Bytes} (h : (d.eraseKey k).2 = false) : d.Equiv (d.erase k) := by
  intro k'
  have hk : d.find k = none := by simpa using h
  rw [Dict.find_erase]
  split_ifs with he
  · rw [he, hk]
  · rfl

theorem countLoop_erase_zero (d : Dict α) (ks : List Bytes) (h : (countLoop Dict.eraseKey d ks).2 = 0) :
    d.Equiv (countLoop Dict.eraseKey d ks).1 :=
  countLoop_zero (P := d.Equiv) (fun _ _ hs hf k => (hs k).trans (erase_absent hf k)) (fun _ => rfl) ks h

/-- There is nothing to erase in an empty table. -/
theorem countLoop_erase_empty (d : Dict α) (hd : d.size = 0) (ks : List Bytes) :
    (countLoop Dict.eraseKey d ks).2 = 0 := by
  refine countLoop_idle (P := fun d => ∀ k, d.find k = none) (fun s x hs => ?_) ((Dict.size_eq_zero d).1 hd) ks
  simp [hs]

theorem Dict.Equiv.size_eq_zero (h : d.Equiv d') : d.size = 0 ↔ d'.size = 0 := by
  rw [Dict.size_eq_zero, Dict.size_eq_zero]
  exact forall_congr' fun k => by rw [h k]

end Equiv

namespace Cmd

variable (env : Env) (argv : List Bytes) (db)

theorem incrBy_tame (delta : ℤ) (hk : K (arg argv 1)) : Tame K env.now db (incrBy delta env argv db) := by
  have hl := Looked.one env.now db hk
  simp only [incrBy, getString, getAs_eq]
  grind

theorem incrby_tame (hk : K (arg argv 1)) : Tame K env.now db (incrby env argv db) := by
  have h0 := Looked.refl (K := K) env.now db
  have hi := fun d => incrBy_tame (K := K) db env argv d hk
  unfold incrby
  grind

theorem decrby_tame (hk : K (arg argv 1)) : Tame K env.now db (decrby env argv db) := by
  have h0 := Looked.refl (K := K) env.now db
  have hi := fun d => incrBy_tame (K := K) db env argv d hk
  unfold decrby
  grind

theorem append_tame (hk : K (arg argv 1)) : Tame K env.now db (append env argv db) := by
  have hl := Looked.one env.now db hk
  simp only [append, getString, getAs_eq]
  grind

theorem incrbyfloat_tame (hk : K (arg argv 1)) : Tame K env.now db (incrbyfloat env argv db) := by
  have h0 := Looked.refl (K := K) env.now db
  have hl := Looked.one env.now db hk
  simp only [incrbyfloat, getString, getAs_eq]
  grind

theorem setrange_tame (hk : K (arg argv 1)) : Tame K env.now db (setrange env argv db) := by
  have h0 := Looked.refl (K := K) env.now db
  have hl := Looked.one env.now db hk
  simp only [setrange, getString, getAs_eq]
  grind

theorem getset_tame (hk : K (arg argv 1)) : Tame K env.now db (getset env argv db) := by
  have hl := Looked.one env.now db hk
  simp only [getset, getString, getAs_eq]
  grind

theorem setnx_tame (hk : K (arg argv 1)) : Tame K env.now db (setnx env argv db) := by
  have hl := Looked.one env.now db hk
  simp only [setnx]
  grind

theorem setex_tame (hk : K (arg argv 1)) : Tame K env.now db (setex env argv db) := by
  have h0 := Looked.refl (K := K) env.now db
  have hl := Only.refl (K := K) db
  simp only [setex]
  grind

theorem setWrite_only (o : SetOpts) (h : Only K db db') {key : Bytes} (hk : K key) (val : Bytes) :
    Only K db (setWrite o db' key val) := by
  unfold setWrite
  grind

theorem set_tame (hk : K (arg argv 1)) : Tame K env.now db (set env argv db) := by
  have h0 := Looked.refl (K := K) env.now db
  have hl := Looked.one env.now db hk
  have hl2 := hl.lookup hk
  simp only [set]
  cases setOpts env.now ⟨0, false, false, false, false⟩ (argv.drop 3) with
  | error e => exact .clean h0 e
  | ok o =>
    have hw := fun (db' : Keyspace) (h : Only K db db') => setWrite_only db o h hk (arg argv 2)
    have hx : Looked K env.now db (if o.xx then (db.lookup env.now (arg argv 1)).1.lookup env.now (arg argv 1)
        else db.lookup env.now (arg argv 1)).1 := by split_ifs <;> assumption
    dsimp only
    split_ifs <;> first | exact .clean (by assumption) _ | exact .marked (hw _ (by grind)) (by grind)

theorem only_foldl {α : Type} (step : Keyspace → α → Keyspace) (xs : List α)
    (hstep : ∀ d x, x ∈ xs → Only K db d → Only K db (step d x)) (h : Only K db db') :
    Only K db (xs.foldl step db') := by
  induction xs generalizing db' with
  | nil => exact h
  | cons x xs ih =>
    exact ih (fun d y hy => hstep d y (by simp [hy])) (hstep db' x (by simp) h)

theorem mset_tame (hk : ∀ p ∈ pairs argv.tail, K p.1) : Tame K env.now db (mset env argv db) := by
  unfold mset
  split_ifs
  · exact .clean (.refl _ db) _
  · exact .marked (only_foldl db _ _ (fun d p hp h => h.set p.1 _ (hk p hp)) (.refl db)) rfl

theorem expireBy_tame (deadline : ℕ → ℕ → ℕ) (hk : K (arg argv 1)) :
    Tame K env.now db (expireBy deadline env argv db) := by
  have h0 := Looked.refl (K := K) env.now db
  have hl := Looked.one env.now db hk
  simp only [expireBy, setExpire, existsKey]
  grind

theorem rename_tame (hs : K (arg argv 1)) (hd : K (arg argv 2)) : Tame K env.now db (rename env argv db) := by
  have hl := Looked.one env.now db hs
  simp only [rename]
  grind

theorem lset_tame (hk : K (arg argv 1)) : Tame K env.now db (lset env argv db) := by
  have hl := Looked.one env.now db hk
  simp only [lset, getList, getAs_eq]
  grind

theorem hset_tame (hk : K (arg argv 1)) : Tame K env.now db (hset env argv db) := by
  have h0 := Looked.refl (K := K) env.now db
  have hl := Looked.one env.now db hk
  simp only [hset, makeHash, getOrMake_eq]
  grind

theorem push_tame (head : Bool) (hk : K (arg argv 1)) : Tame K env.now db (push head env argv db) := by
  have hl := Looked.one env.now db hk
  simp only [push, makeList, getOrMake_eq]
  grind

theorem zincrby_tame (hk : K (arg argv 1)) : Tame K env.now db (zincrby env argv db) := by
  have h0 := Looked.refl (K := K) env.now db
  have hl := Looked.one env.now db hk
  simp only [zincrby, makeZSet, getOrMake_eq]
  grind

theorem hincrby_tame (hk : K (arg argv 1)) : Tame K env.now db (hincrby env argv db) := by
  have h0 := Looked.refl (K := K) env.now db
  have hl := Looked.one env.now db hk
  -- A field of a hash that was just made has no value that could fail to parse.
  have hfresh : fieldInt .empty (arg argv 2) = some 0 := by simp [fieldInt]
  simp only [hincrby, makeHash, getOrMake_eq]
  grind

theorem isError_pop (argv l : List Bytes) (n : ℕ) (hn : n = l.length) :
    isError ((if argv.length = 3 then Reply.arrayHeader n else []) ++ l.flatMap Reply.bulk ++
      (if ¬argv.length = 3 ∧ n = 0 then Reply.nullBulk else [])) = false := by
  subst hn
  by_cases h : argv.length = 3
  · simp [h, isError, Reply.arrayHeader]
  · cases l with
    | nil => simp [h]
    | cons x l => simp [h, isError, Reply.bulk]

theorem popLoop_length (head : Bool) (l : List Bytes) (n : ℕ) (h : n ≤ l.length) :
    n = (popLoop head l n).2.length := by
  cases head <;> simp [popLoop] <;> omega

theorem pop_tame (head : Bool) (hk : K (arg argv 1)) : Tame K env.now db (pop head env argv db) := by
  have hl := Looked.one env.now db hk
  have hr := fun l (c : ℤ) => isError_pop argv (popLoop head l (min c.toNat l.length)).2 _
    (popLoop_length head l (min c.toNat l.length) (min_le_right _ _))
  simp only [pop, getList, getAs_eq]
  grind

theorem pfadd_tame (hk : K (arg argv 1)) : Tame K env.now db (pfadd env argv db) := by
  have hl := Looked.one env.now db hk
  have hq := hl.liveEquiv
  simp only [pfadd, getHll, getAs_eq]
  grind

theorem pfmerge_tame (hk : ∀ k ∈ argv.tail, K k) (h1 : K (arg argv 1)) :
    Tame K env.now db (pfmerge env argv db) := by
  have hl := looked_foldl (mergeRound env.now) (fun _ _ => rfl) hk
    ((db.lookup env.now (arg argv 1)).1, Hll.ensure (((db.lookup env.now (arg argv 1)).2.bind
      Object.str?).getD [])) (Looked.one env.now db h1)
  simp only [pfmerge]
  exact .marked (hl.only.set _ _ h1) rfl

/-- The key holds a container of the type of `view` with no entries. -/
def emptyAt {α : Type} (view : Object → Option α) (size : α → ℕ) (env : Env) (argv : List Bytes)
    (db : Keyspace) : Bool :=
  (db.peek env.now (arg argv 1)).any fun o => (view o).any fun a => size a = 0

/-- A handler that removes elements. Without the mark it loses a key exactly where `lost`
holds: it erases the key of a container which it finds empty. -/
structure Shrinks (K : Bytes → Prop) (now : ℕ) (db : Keyspace) (lost : Bool) (r : Result) : Prop where
  only : Only K db r.db
  flush : r.flush = false
  tidy : r.dirty = false → (LiveEquiv now db r.db ↔ lost = false)
  quiet : lost → r.dirty = false
  fails : isError r.reply → LiveEquiv now db r.db

theorem Shrinks.clean {db' : Keyspace} {lost : Bool} (h : Looked K now db db') (reply : Bytes)
    (hl : lost = false) : Shrinks K now db lost (.clean db' reply) :=
  ⟨h.only, rfl, fun _ => iff_of_true h.liveEquiv hl, fun _ => rfl, fun _ => h.liveEquiv⟩

/-- What the handlers that remove elements do last: write back, and erase the key of an
empty container. -/
theorem Shrinks.shrink {o o' : Object} {key reply : Bytes} {empty : Prop} [Decidable empty] {dirty lost : Bool}
    (hk : K key) (ho : db.peek now key = some o) (hr : isError reply = false)
    (hquiet : lost → dirty = false) (hq : dirty = false → (empty ↔ lost = true) ∧ o.Equiv o') :
    Shrinks K now db lost
      (.markedIf dirty (if empty then (db.write key o').erase key else db.write key o') reply) := by
  refine ⟨?_, rfl, fun hd => ?_, hquiet, fun he => absurd he (by simp [Result.markedIf, hr])⟩
  · have h0 := Only.refl (K := K) db
    simp only [Result.markedIf]
    grind
  · obtain ⟨he, hE⟩ := hq hd
    simp only [Result.markedIf]
    by_cases hempty : empty
    · rw [if_pos hempty, he.1 hempty]
      refine iff_of_false (fun hlive => ?_) (by simp)
      have := hlive key
      rw [live_erase, if_pos rfl, live, ho] at this
      exact this
    · rw [if_neg hempty]
      exact iff_of_true (LiveEquiv.write_back key o ho hE) (by simpa using fun h => hempty (he.2 h))

theorem hdel_shrinks (hk : K (arg argv 1)) :
    Shrinks K env.now db (emptyAt Object.hash? Dict.size env argv db) (hdel env argv db) := by
  have hl := Looked.one env.now db hk
  simp only [hdel, getHash, getAs_eq]
  cases hf : found Object.hash? (db.peek env.now (arg argv 1)) with
  | absent => exact .clean db hl _ (by simp [emptyAt, (found_absent _).1 hf])
  | wrongType =>
    obtain ⟨o, ho, hh⟩ := found_wrongType _ hf
    exact .clean db hl _ (by simp [emptyAt, ho, hh])
  | present h =>
    obtain ⟨o, ho, hh⟩ := (found_present _).1 hf
    obtain rfl : o = .hash h := by cases o <;> simp_all [Object.hash?]
    rw [lookup_of_peek db env.now _ _ ho]
    refine Shrinks.shrink db hk ho rfl (fun hlost => ?_) fun hz => ?_
    · have h0 : h.size = 0 := by simpa [emptyAt, ho, Object.hash?] using hlost
      simpa using countLoop_erase_empty h h0 (argv.drop 2)
    have hE := countLoop_erase_zero h (argv.drop 2) (by simpa using hz)
    exact ⟨by simp [emptyAt, ho, Object.hash?, hE.size_eq_zero], hE⟩

theorem srem_shrinks (hk : K (arg argv 1)) :
    Shrinks K env.now db (emptyAt Object.set? Dict.size env argv db) (srem env argv db) := by
  have hl := Looked.one env.now db hk
  simp only [srem, getSet, getAs_eq]
  cases hf : found Object.set? (db.peek env.now (arg argv 1)) with
  | absent => exact .clean db hl _ (by simp [emptyAt, (found_absent _).1 hf])
  | wrongType =>
    obtain ⟨o, ho, hs⟩ := found_wrongType _ hf
    exact .clean db hl _ (by simp [emptyAt, ho, hs])
  | present s =>
    obtain ⟨o, ho, hs⟩ := (found_present _).1 hf
    obtain rfl : o = .set s := by cases o <;> simp_all [Object.set?]
    rw [lookup_of_peek db env.now _ _ ho]
    refine Shrinks.shrink db hk ho rfl (fun hlost => ?_) fun hz => ?_
    · have h0 : s.size = 0 := by simpa [emptyAt, ho, Object.set?] using hlost
      simpa using countLoop_erase_empty s h0 (argv.drop 2)
    have hE := countLoop_erase_zero s (argv.drop 2) (by simpa using hz)
    exact ⟨by simp [emptyAt, ho, Object.set?, hE.size_eq_zero], fun k => by rw [hE k]⟩

theorem remove_absent {z : ZSet} {m : Bytes} (h : (z.remove m).2 = false) : (z.remove m).1 = z := by
  unfold ZSet.remove at h ⊢
  cases hm : z.dict.find m with
  | none => rfl
  | some cur => simp [hm] at h

theorem zrem_shrinks (hk : K (arg argv 1)) :
    Shrinks K env.now db (emptyAt Object.zset? ZSet.size env argv db) (zrem env argv db) := by
  have hl := Looked.one env.now db hk
  simp only [zrem, getZSet, getAs_eq]
  cases hf : found Object.zset? (db.peek env.now (arg argv 1)) with
  | absent => exact .clean db hl _ (by simp [emptyAt, (found_absent _).1 hf])
  | wrongType =>
    obtain ⟨o, ho, hz⟩ := found_wrongType _ hf
    exact .clean db hl _ (by simp [emptyAt, ho, hz])
  | present z =>
    obtain ⟨o, ho, hz⟩ := (found_present _).1 hf
    obtain rfl : o = .zset z := by cases o <;> simp_all [Object.zset?]
    rw [lookup_of_peek db env.now _ _ ho]
    refine Shrinks.shrink db hk ho rfl (fun hlost => ?_) fun hzero => ?_
    · have h0 : z.size = 0 := by simpa [emptyAt, ho, Object.zset?] using hlost
      have hnone : ∀ m, z.dict.find m = none := (Dict.size_eq_zero _).1 h0
      have hidle : (countLoop ZSet.remove z (argv.drop 2)).2 = 0 := countLoop_idle (P := (· = z))
        (fun s x hs => by simp [hs, ZSet.remove, hnone]) rfl (argv.drop 2)
      simpa using hidle
    have hE : (countLoop ZSet.remove z (argv.drop 2)).1 = z :=
      countLoop_zero (P := (· = z)) (fun s x hs hx => (remove_absent hx).trans hs) rfl _ (by simpa using hzero)
    rw [hE]
    exact ⟨by simp [emptyAt, ho, Object.zset?], .refl _⟩

theorem isError_spop (argv ms : List Bytes) : isError
    (if argv.length = 3 then spop.replyAll ms else ms.head?.elim Reply.nullBulk Reply.bulk) = false := by
  split_ifs
  · rfl
  · cases ms.head? <;> simp

/-- `SPOP` looks at its count first. -/
theorem spop_shrinks (hk : K (arg argv 1)) : Shrinks K env.now db
    ((popCount argv).isSome && emptyAt Object.set? Dict.size env argv db) (spop env argv db) := by
  have hl := Looked.one env.now db hk
  simp only [spop, getSet, getAs_eq]
  cases hc : popCount argv with
  | none => cases found Object.set? (db.peek env.now (arg argv 1)) <;> exact .clean db hl _ rfl
  | some count =>
    cases hf : found Object.set? (db.peek env.now (arg argv 1)) with
    | absent => exact .clean db hl _ (by simp [emptyAt, (found_absent _).1 hf])
    | wrongType =>
      obtain ⟨o, ho, hs⟩ := found_wrongType _ hf
      exact .clean db hl _ (by simp [emptyAt, ho, hs])
    | present s =>
      obtain ⟨o, ho, hs⟩ := (found_present _).1 hf
      obtain rfl : o = .set s := by cases o <;> simp_all [Object.set?]
      rw [lookup_of_peek db env.now _ _ ho]
      refine Shrinks.shrink db hk ho (isError_spop argv _) (fun hlost => ?_) fun hz => ?_
      · have h0 : s.size = 0 := by simpa [emptyAt, ho, Object.set?] using hlost
        have hnil : s.forEach = [] := List.length_eq_zero_iff.1 ((Dict.forEach_length s).trans h0)
        simp [picked, hnil]
      have hnil : picked s count.toNat = [] := by simpa using hz
      rw [hnil]
      exact ⟨by simp [emptyAt, ho, Object.set?], .refl _⟩

theorem sadd_tame (hk : K (arg argv 1)) (hne : argv.drop 2 ≠ []) : Tame K env.now db (sadd env argv db) := by
  have hl := Looked.one env.now db hk
  simp only [sadd, makeSet, getOrMake_eq]
  cases hf : found Object.set? (db.peek env.now (arg argv 1)) with
  | absent =>
    refine .markedIf ((hl.only.set _ _ hk).write _ _ hk) rfl fun hz => ?_
    -- The first member is new to an empty set.
    obtain ⟨m, ms, hms⟩ := List.exists_cons_of_ne_nil hne
    simp [hms] at hz
  | wrongType => exact .clean hl _
  | present s =>
    obtain ⟨o, ho, hs⟩ := (found_present _).1 hf
    obtain rfl : o = .set s := by cases o <;> simp_all [Object.set?]
    rw [lookup_of_peek db env.now _ _ ho]
    refine .markedIf ((Only.refl db).write _ _ hk) rfl fun hz => LiveEquiv.write_back _ _ ho ?_
    refine countLoop_zero (P := sameMembers s) (fun s' x hs' hx k => ?_) (fun _ => rfl) _ (by simpa using hz)
    have hx' : (s'.find x).isSome := by simpa using hx
    rw [hs' k, Dict.insertOrAssign_fst, Dict.find_insert]
    split_ifs with hk'
    · rw [hk', hx']
      rfl
    · rfl

theorem persist_none {key : Bytes} (h : db.expires.find key = none) (now : ℕ) :
    LiveEquiv now db (db.persist key).1 := by
  intro k
  have he : (db.persist key).1.expires.find k = db.expires.find k := by
    rw [find_expires_persist]
    split_ifs with hk
    · rw [hk, h]
    · rfl
  rw [live_congr (dict_persist db key ▸ rfl) he]

theorem persist_tame (hk : K (arg argv 1)) : Tame K env.now db (persist env argv db) := by
  have hl := Looked.one env.now db hk
  have hq : ((db.lookup env.now (arg argv 1)).1.persist (arg argv 1)).2 = false →
      LiveEquiv env.now db ((db.lookup env.now (arg argv 1)).1.persist (arg argv 1)).1 := by
    intro hz
    exact hl.liveEquiv.trans (persist_none _ (by simpa using hz) env.now)
  simp only [persist, existsKey]
  grind

theorem del_tame (hk : ∀ k ∈ argv.tail, K k) : Tame K env.now db (del env argv db) := by
  refine .markedIf ?_ rfl fun hz => ?_
  · exact countLoop_keeps _ (fun d k hm h => Only.erase k h (hk k hm)) (.refl db)
  · refine countLoop_zero (P := LiveEquiv env.now db) (fun d k hd hx k' => ?_) (.refl db) _ ?_
    have hnone : d.dict.find k = none := by simpa [eraseRound] using hx
    refine (hd k').trans ?_
    rw [eraseRound, eraseKey_fst, live_erase]
    split_ifs with he
    · rw [he, live_of_none hnone]
    · rfl
    · exact not_not.1 (of_decide_eq_false hz)

end Cmd

end BlazeKV
