import BlazeKV.Proofs.Cells
import BlazeKV.Proofs.Increments
import BlazeKV.Proofs.ZRange

/-! The handlers of strings and of keys do what these are for. -/

namespace BlazeKV

open Keyspace Lib Abstract

section Deadlines

variable {now : ℕ} {key : Bytes} {db db' : Keyspace} {o : Object} {d : Option ℕ}

/-- What is live has no deadline that has passed. -/
theorem live_before {dl : ℕ} (h : db.live now key = some (o, some dl)) : now < dl := by
  unfold live at h
  obtain ⟨x, hpeek, hx⟩ := Option.map_eq_some_iff.1 h
  obtain ⟨rfl, hdl⟩ := Prod.ext_iff.1 hx
  by_contra hle
  have hdead : db.dead now key = true := by
    unfold dead
    rw [show db.expires.find key = some dl from hdl]
    simpa using hle
  rw [peek, if_pos hdead] at hpeek
  cases hpeek

theorem alive_live (h : db.live now key = some (o, d)) : alive now (valueOf o, d) = true := by
  cases d with
  | none => rfl
  | some dl => exact decide_eq_true (live_before h)

theorem Becomes.setDeadline (h : Becomes now key db db' (some (o, d))) (dl : ℕ) :
    Becomes now key db (db'.setDeadline key dl) (if now < dl then some (o, some dl) else none) := by
  intro k
  by_cases hk : k = key
  · subst hk
    have hkey := h k
    rw [if_pos rfl] at hkey ⊢
    have hfind : db'.dict.find k = some o := by
      refine find_of_peek db' now k o ?_
      rw [peek_eq_live, hkey]
      rfl
    unfold live peek dead
    rw [dict_setDeadline, find_expires_setDeadline, if_pos rfl, hfind]
    by_cases hdl : now < dl <;> simp [hdl]
  · have hexp : (db'.setDeadline key dl).expires.find k = db'.expires.find k := by
      rw [find_expires_setDeadline, if_neg hk]
    have hdict : (db'.setDeadline key dl).dict.find k = db'.dict.find k := rfl
    rw [if_neg hk, ← (h k).trans (if_neg hk)]
    exact live_congr hdict hexp now

theorem cellOf_deadline (o : Object) (dl : ℕ) : cellOf (if now < dl then some (o, some dl) else none) =
    (some (valueOf o, some dl)).filter (alive now) := by
  have halive : alive now (valueOf o, some dl) = decide (now < dl) := rfl
  rw [Option.filter_some, halive]
  by_cases hdl : now < dl
  · rw [if_pos hdl, if_pos (decide_eq_true hdl)]
    rfl
  · rw [if_neg hdl, if_neg (by simpa using hdl)]
    rfl

theorem Becomes.persist (h : Becomes now key db db' (some (o, d))) :
    Becomes now key db (db'.persist key).1 (some (o, none)) := by
  intro k
  by_cases hk : k = key
  · subst hk
    have hkey := h k
    rw [if_pos rfl] at hkey ⊢
    have hfind : db'.dict.find k = some o := by
      refine find_of_peek db' now k o ?_
      rw [peek_eq_live, hkey]
      rfl
    unfold live peek dead
    rw [dict_persist, find_expires_persist, if_pos rfl, hfind]
    rfl
  · have hexp : (db'.persist key).1.expires.find k = db'.expires.find k := by
      rw [find_expires_persist, if_neg hk]
    have hdict : (db'.persist key).1.dict.find k = db'.dict.find k := rfl
    rw [if_neg hk, ← (h k).trans (if_neg hk)]
    exact live_congr hdict hexp now

end Deadlines

section Strings

variable {f : Option Bytes → Cell → Cell → Bytes → Prop} {env : Env} {argv : List Bytes} {db : Keyspace}

theorem live_found {s : Bytes} (h : found Object.string? (db.peek env.now (arg argv 1)) = .present s) :
    db.live env.now (arg argv 1) = some (.string s, db.expires.find (arg argv 1)) := by
  obtain ⟨o, ho, hs⟩ := (found_present _).1 h
  have hstring : o = .string s := by cases o <;> cases hs; rfl
  rw [live, ho, hstring]
  rfl

theorem live_absent (h : found Object.string? (db.peek env.now (arg argv 1)) = .absent) :
    db.live env.now (arg argv 1) = none := by
  rw [live, (found_absent _).1 h]
  rfl

theorem string_refuses (h : found Object.string? (db.peek env.now (arg argv 1)) = .wrongType) :
    Performs (onString f) env argv db (.clean (db.lookup env.now (arg argv 1)).1 errWrongType) := by
  obtain ⟨o, ho, hs⟩ := found_wrongType _ h
  refine ⟨_, becomes_same.lookup, ?_⟩
  rw [live, ho]
  cases o <;> first | exact ⟨rfl, rfl⟩ | cases hs

theorem string_absent (h : found Object.string? (db.peek env.now (arg argv 1)) = .absent) {r : Result}
    {e : Option Entry} (ht : Becomes env.now (arg argv 1) db r.db e) (hf : f none none (cellOf e) r.reply) :
    Performs (onString f) env argv db r := by
  refine ⟨e, ht, ?_⟩
  rw [live_absent h]
  exact hf

theorem string_present {s : Bytes} (h : found Object.string? (db.peek env.now (arg argv 1)) = .present s)
    {r : Result} {e : Option Entry} (ht : Becomes env.now (arg argv 1) db r.db e)
    (hf : f (some s) (some (.string s, db.expires.find (arg argv 1))) (cellOf e) r.reply) :
    Performs (onString f) env argv db r := by
  refine ⟨e, ht, ?_⟩
  rw [live_found h]
  exact hf

/-- Nothing changes but what has expired. -/
theorem becomes_none (h : found Object.string? (db.peek env.now (arg argv 1)) = .absent) :
    Becomes env.now (arg argv 1) db (db.lookup env.now (arg argv 1)).1 none :=
  live_absent h ▸ becomes_same.lookup

theorem becomes_some {s : Bytes} (h : found Object.string? (db.peek env.now (arg argv 1)) = .present s) :
    Becomes env.now (arg argv 1) db (db.lookup env.now (arg argv 1)).1
      (some (.string s, db.expires.find (arg argv 1))) := live_found h ▸ becomes_same.lookup

theorem get_performs : Performs Abstract.get env argv db (Cmd.get env argv db) := by
  unfold Cmd.get Cmd.getString
  rw [getAs_eq]
  cases hf : found Object.string? (db.peek env.now (arg argv 1)) with
  | wrongType => exact string_refuses hf
  | absent => exact string_absent hf (becomes_none hf) ⟨rfl, rfl⟩
  | present s => exact string_present hf (becomes_some hf) ⟨rfl, rfl⟩

theorem strlen_performs : Performs Abstract.strlen env argv db (Cmd.strlen env argv db) := by
  unfold Cmd.strlen Cmd.getString
  rw [getAs_eq]
  cases hf : found Object.string? (db.peek env.now (arg argv 1)) with
  | wrongType => exact string_refuses hf
  | absent => exact string_absent hf (becomes_none hf) ⟨rfl, rfl⟩
  | present s => exact string_present hf (becomes_some hf) ⟨rfl, rfl⟩

theorem getset_performs : Performs (Abstract.getset argv) env argv db (Cmd.getset env argv db) := by
  unfold Cmd.getset Cmd.getString
  rw [getAs_eq]
  cases hf : found Object.string? (db.peek env.now (arg argv 1)) with
  | wrongType => exact string_refuses hf
  | absent => exact string_absent hf ((becomes_none hf).set _) ⟨rfl, rfl⟩
  | present s => exact string_present hf ((becomes_some hf).set _) ⟨rfl, rfl⟩

theorem append_performs : Performs (Abstract.append argv) env argv db (Cmd.append env argv db) := by
  unfold Cmd.append Cmd.getString
  rw [getAs_eq]
  cases hf : found Object.string? (db.peek env.now (arg argv 1)) with
  | wrongType => exact string_refuses hf
  | absent => exact string_absent hf ((becomes_none hf).set _) ⟨rfl, rfl⟩
  | present s =>
    have hl : Leaves env.now (arg argv 1) db (db.lookup env.now (arg argv 1)).1 (some (.string s)) := by
      unfold Leaves
      rw [live_found hf]
      exact becomes_some hf
    refine string_present hf (hl.write (.string (s ++ arg argv 2))) ⟨?_, rfl⟩
    rw [live_found hf]
    rfl

theorem getrange_performs : Performs (Abstract.getrange argv) env argv db (Cmd.getrange env argv db) := by
  unfold Cmd.getrange Cmd.getString
  rw [getAs_eq]
  cases hf : found Object.string? (db.peek env.now (arg argv 1)) with
  | wrongType => exact string_refuses hf
  | absent => exact string_absent hf (becomes_none hf) ⟨rfl, rfl⟩
  | present s =>
    cases hstart : parseInt (arg argv 2) with
    | none => exact string_present hf (becomes_some hf) ⟨rfl, by rw [hstart]; rfl⟩
    | some start =>
      cases hstop : parseInt (arg argv 3) with
      | none => exact string_present hf (becomes_some hf) ⟨rfl, by rw [hstart, hstop]; rfl⟩
      | some stop =>
        dsimp only
        have hslice := slice_clamp s start stop
        generalize hab : clampRange s.length start stop = ab at hslice
        obtain ⟨a, b⟩ := ab
        dsimp only at hslice ⊢
        split_ifs with hno
        · rw [if_pos hno] at hslice
          exact string_present hf (becomes_some hf) ⟨rfl, by rw [hstart, hstop]; dsimp only; rw [hslice]; rfl⟩
        · rw [if_neg hno] at hslice
          exact string_present hf (becomes_some hf) ⟨rfl, by rw [hstart, hstop]; dsimp only; rw [hslice]; rfl⟩

/-- `SETRANGE` patches. -/
theorem overwrite_patched (s : Bytes) (offset : ℕ) (val : Bytes) :
    patched s offset val (Cmd.overwrite s offset val) := by
  unfold Cmd.overwrite
  dsimp only
  have hgrown : (s ++ List.replicate (offset + val.length - s.length) 0).length =
      max s.length (offset + val.length) := by
    rw [List.length_append, List.length_replicate]
    omega
  have hsame : ∀ i, (s ++ List.replicate (offset + val.length - s.length) 0).getD i 0 = s.getD i 0 := by
    intro i
    rw [List.getD_eq_getElem?_getD, List.getD_eq_getElem?_getD, List.getElem?_append]
    split_ifs with hi
    · rfl
    · rw [List.getElem?_eq_none (Nat.not_lt.1 hi), List.getElem?_replicate]
      split_ifs <;> rfl
  generalize s ++ List.replicate (offset + val.length - s.length) 0 = grown at hgrown hsame
  have hmin : min offset (max s.length (offset + val.length)) = offset := by omega
  constructor
  · simp only [List.length_append, List.length_take, List.length_drop, hgrown]
    omega
  · intro i hi
    simp only [List.length_append, List.length_take, List.length_drop, hgrown, hmin] at hi
    rw [← hsame]
    simp only [List.getD_eq_getElem?_getD, List.getElem?_append, List.length_append,
      List.length_take, hgrown, hmin, List.getElem?_take, List.getElem?_drop]
    by_cases hbefore : i < offset
    · rw [if_pos (by omega), if_pos hbefore, if_pos hbefore, if_neg (by omega)]
    · by_cases hin : i < offset + val.length
      · rw [if_pos hin, if_neg hbefore, if_pos ⟨Nat.not_lt.1 hbefore, hin⟩]
      · rw [if_neg hin, if_neg (by omega),
          show offset + val.length + (i - (offset + val.length)) = i by omega]

theorem setrange_performs : Performs (Abstract.setrange argv) env argv db (Cmd.setrange env argv db) := by
  unfold Cmd.setrange Abstract.setrange
  cases hoff : parseInt (arg argv 2) with
  | none => exact performs_refused
  | some offset =>
    dsimp only
    by_cases hneg : offset < 0
    · rw [if_pos hneg, Option.filter_some, if_neg (by simpa using hneg)]
      exact performs_refused
    · rw [if_neg hneg, Option.filter_some, if_pos (by simpa using hneg), Cmd.getString, getAs_eq]
      cases hf : found Object.string? (db.peek env.now (arg argv 1)) with
      | wrongType => exact string_refuses hf
      | absent =>
        exact string_absent hf ((becomes_none hf).set _) ⟨_, overwrite_patched _ _ _, rfl, rfl⟩
      | present s =>
        exact string_present hf ((becomes_some hf).set _) ⟨_, overwrite_patched _ _ _, rfl, rfl⟩

theorem incrBy_performs {delta : ℤ} (hd : fitsInt64 delta = true) :
    Performs (Abstract.incrBy delta) env argv db (Cmd.incrBy delta env argv db) := by
  unfold Cmd.incrBy Cmd.getString
  dsimp only
  rw [getAs_eq]
  cases hf : found Object.string? (db.peek env.now (arg argv 1)) with
  | wrongType => exact string_refuses hf
  | absent =>
    have hover := Cmd.overflow_iff hd (show fitsInt64 0 from by decide)
    dsimp only
    split_ifs with ho
    · refine string_absent hf (becomes_none hf) ?_
      dsimp only [Option.elim]
      rw [if_neg (by rw [hover.1 ho]; exact Bool.false_ne_true)]
      exact ⟨rfl, rfl⟩
    · refine string_absent hf ((becomes_none hf).set _) ?_
      dsimp only [Option.elim]
      rw [if_pos (by simpa using mt hover.2 ho)]
      exact ⟨rfl, rfl⟩
  | present s =>
    dsimp only
    cases hcur : parseInt s with
    | none =>
      refine string_present hf (becomes_some hf) ?_
      dsimp only [Option.elim]
      rw [hcur]
      exact ⟨rfl, rfl⟩
    | some cur =>
      have hover := Cmd.overflow_iff hd (parseInt_fits hcur)
      dsimp only
      split_ifs with ho
      · refine string_present hf (becomes_some hf) ?_
        dsimp only [Option.elim]
        rw [hcur]
        dsimp only
        rw [if_neg (by rw [hover.1 ho]; exact Bool.false_ne_true)]
        exact ⟨rfl, rfl⟩
      · refine string_present hf ((becomes_some hf).set _) ?_
        dsimp only [Option.elim]
        rw [hcur]
        dsimp only
        rw [if_pos (by simpa using mt hover.2 ho)]
        exact ⟨rfl, rfl⟩

theorem incrby_performs : Performs (incrByArg false argv) env argv db (Cmd.incrby env argv db) := by
  unfold Cmd.incrby incrByArg
  cases hd : parseInt (arg argv 2) with
  | none => exact performs_refused
  | some d => exact incrBy_performs (parseInt_fits hd)

theorem decrby_performs : Performs (incrByArg true argv) env argv db (Cmd.decrby env argv db) := by
  unfold Cmd.decrby incrByArg
  cases hd : parseInt (arg argv 2) with
  | none => exact performs_refused
  | some d =>
    have hfits : fitsInt64 (i64 (-d)) = true := by
      have hrange := Int.bmod_le (x := -d) (m := 2 ^ 64) (by decide)
      have hrange' := Int.le_bmod (x := -d) (m := 2 ^ 64) (by decide)
      unfold i64
      refine decide_eq_true ⟨?_, ?_⟩ <;> omega
    exact incrBy_performs hfits

theorem incrbyfloat_performs : Performs (Abstract.incrbyfloat argv) env argv db (Cmd.incrbyfloat env argv db) := by
  unfold Cmd.incrbyfloat Abstract.incrbyfloat
  cases hdelta : parseDouble (arg argv 2) with
  | none => exact performs_refused
  | some delta =>
    dsimp only
    rw [Cmd.getString, getAs_eq]
    cases hf : found Object.string? (db.peek env.now (arg argv 1)) with
    | wrongType => exact string_refuses hf
    | absent => exact string_absent hf ((becomes_none hf).set _) ⟨rfl, rfl⟩
    | present s =>
      dsimp only
      cases hcur : parseDouble s with
      | none =>
        refine string_present hf (becomes_some hf) ?_
        dsimp only [Option.elim]
        rw [hcur]
        exact ⟨rfl, rfl⟩
      | some cur =>
        refine string_present hf ((becomes_some hf).set _) ?_
        dsimp only [Option.elim]
        rw [hcur]
        exact ⟨rfl, rfl⟩

end Strings

/-! Keys of any type. -/

section Keys

variable {env : Env} {argv : List Bytes} {db : Keyspace}

/-- What a lookup finds. -/
theorem lookup_cases (db : Keyspace) (now : ℕ) (key : Bytes) :
    (db.lookup now key = ((db.lookup now key).1, none) ∧ db.live now key = none) ∨
      ∃ o, db.lookup now key = (db, some o) ∧ db.live now key = some (o, db.expires.find key) := by
  cases hpeek : db.peek now key with
  | none =>
    refine .inl ⟨Prod.ext rfl ((lookup_snd _ _ _).trans hpeek), ?_⟩
    rw [live, hpeek]
    rfl
  | some o =>
    refine .inr ⟨o, lookup_of_peek db now key o hpeek, ?_⟩
    rw [live, hpeek]
    rfl

/-- Nothing changes. -/
theorem becomes_live {o : Object} {d : Option ℕ} (h : db.live env.now (arg argv 1) = some (o, d)) :
    Becomes env.now (arg argv 1) db db (some (o, d)) := h ▸ becomes_same

theorem becomes_dead (h : db.live env.now (arg argv 1) = none) :
    Becomes env.now (arg argv 1) db (db.lookup env.now (arg argv 1)).1 none := h ▸ becomes_same.lookup

theorem setnx_performs : Performs (Abstract.setnx argv) env argv db (Cmd.setnx env argv db) := by
  unfold Cmd.setnx
  rcases lookup_cases db env.now (arg argv 1) with ⟨hfind, hlive⟩ | ⟨o, hfind, hlive⟩
  · rw [hfind]
    refine ⟨_, (becomes_dead hlive).set _, ?_⟩
    rw [hlive]
    exact ⟨rfl, rfl⟩
  · rw [hfind]
    refine ⟨_, becomes_live hlive, ?_⟩
    rw [hlive]
    exact ⟨rfl, rfl⟩

theorem setex_performs : Performs (Abstract.setex argv) env argv db (Cmd.setex env argv db) := by
  unfold Cmd.setex Abstract.setex
  cases hspan : parseInt (arg argv 2) with
  | none => exact performs_refused
  | some span =>
    dsimp only
    by_cases hpos : span ≤ 0
    · rw [if_pos hpos, Option.filter_some, if_neg (by simpa using hpos)]
      exact performs_refused
    · rw [if_neg hpos, Option.filter_some, if_pos (by simpa using hpos)]
      have hsame : Becomes env.now (arg argv 1) db db _ := becomes_same
      have hset := (hsame.set
        (.string (arg argv 3))).setDeadline (u64 (env.now +
          if lowercase (cmdName argv) = ascii "psetex" then toU64 span
          else u64 (toU64 span * 1000)))
      exact ⟨_, hset, cellOf_deadline _ _, rfl⟩

theorem expireBy_performs (deadline : ℕ → ℕ → ℕ) :
    Performs (Abstract.expireBy deadline argv) env argv db (Cmd.expireBy deadline env argv db) := by
  unfold Cmd.expireBy Abstract.expireBy Cmd.setExpire existsKey
  cases hn : parseInt (arg argv 2) with
  | none => exact performs_refused
  | some n =>
    dsimp only
    rcases lookup_cases db env.now (arg argv 1) with ⟨hfind, hlive⟩ | ⟨o, hfind, hlive⟩
    · rw [hfind]
      refine ⟨_, becomes_dead hlive, ?_⟩
      rw [hlive]
      exact ⟨rfl, rfl⟩
    · rw [hfind]
      refine ⟨_, (becomes_live hlive).setDeadline (deadline env.now (max 0 n).toNat), ?_⟩
      rw [hlive]
      exact ⟨cellOf_deadline _ _, rfl⟩

theorem persist_performs : Performs Abstract.persist env argv db (Cmd.persist env argv db) := by
  unfold Cmd.persist existsKey
  dsimp only
  rcases lookup_cases db env.now (arg argv 1) with ⟨hfind, hlive⟩ | ⟨o, hfind, hlive⟩
  · rw [hfind]
    refine ⟨_, becomes_dead hlive, ?_⟩
    rw [hlive]
    exact ⟨rfl, rfl⟩
  · rw [hfind]
    refine ⟨_, (becomes_live hlive).persist, ?_⟩
    rw [hlive]
    refine ⟨rfl, ?_⟩
    cases hd : db.expires.find (arg argv 1) <;> simp [hd, cellOf, Result.markedIf]

/-- What `TTL` and `PTTL` compute. -/
theorem ttlMs_remaining (env : Env) (argv : List Bytes) (db : Keyspace) :
    Becomes env.now (arg argv 1) db (db.ttlMs env.now (arg argv 1)).1 (db.live env.now (arg argv 1)) ∧
    (db.ttlMs env.now (arg argv 1)).2 = remaining env.now (cellOf (db.live env.now (arg argv 1))) := by
  unfold ttlMs existsKey
  rcases lookup_cases db env.now (arg argv 1) with ⟨hfind, hlive⟩ | ⟨o, hfind, hlive⟩
  · rw [hfind, hlive]
    exact ⟨becomes_dead hlive, rfl⟩
  · rw [hfind, hlive]
    dsimp only [Option.isSome]
    rw [if_neg (show ¬(!true) = true by decide)]
    generalize db.expires.find (arg argv 1) = d at hlive
    cases d with
    | none => exact ⟨becomes_live hlive, rfl⟩
    | some dl =>
      refine ⟨becomes_live hlive, ?_⟩
      dsimp only
      rw [if_pos (live_before hlive)]
      rfl

theorem ttl_performs : Performs Abstract.ttl env argv db (Cmd.ttl env argv db) := by
  obtain ⟨hturn, hms⟩ := ttlMs_remaining env argv db
  refine ⟨_, hturn, rfl, ?_⟩
  unfold Cmd.ttl
  dsimp only [Result.clean]
  rw [hms]

theorem pttl_performs : Performs Abstract.pttl env argv db (Cmd.pttl env argv db) := by
  obtain ⟨hturn, hms⟩ := ttlMs_remaining env argv db
  refine ⟨_, hturn, rfl, ?_⟩
  unfold Cmd.pttl
  dsimp only [Result.clean]
  rw [hms]

/-- What the write of `SET` leaves. -/
theorem setWrite_becomes {db' : Keyspace} {e : Option Entry}
    (ht : Becomes env.now (arg argv 1) db db' e) (o : Cmd.SetOpts)
    (hkept : ((e.bind Prod.snd).getD 0) = db'.deadlineOrZero (arg argv 1))
    (halive : ∀ x ∈ e, alive env.now (valueOf x.1, x.2) = true) :
    ∃ e', Becomes env.now (arg argv 1) db (Cmd.setWrite o db' (arg argv 1) (arg argv 2)) e' ∧
      cellOf e' = (some (.string (arg argv 2), if o.deadline ≠ 0 then some o.deadline
        else if o.keepttl then e.bind Prod.snd else none)).filter (alive env.now) := by
  unfold Cmd.setWrite
  dsimp only
  have hset := ht.set (.string (arg argv 2))
  rw [← hkept]
  by_cases hdl : o.deadline ≠ 0
  · rw [if_pos hdl, if_pos hdl]
    exact ⟨_, hset.setDeadline o.deadline, cellOf_deadline _ _⟩
  rw [if_neg hdl, if_neg hdl]
  cases o.keepttl with
  | false => exact ⟨_, hset, rfl⟩
  | true =>
    rw [if_pos rfl, if_pos rfl]
    cases hd : e.bind Prod.snd with
    | none => exact ⟨_, hset, rfl⟩
    | some dl =>
      obtain ⟨x, hx, hxd⟩ := Option.bind_eq_some_iff.1 hd
      have hlt : env.now < dl := by
        have := halive x hx
        rw [hxd] at this
        exact of_decide_eq_true this
      rw [Option.getD_some, if_pos (show dl ≠ 0 by omega)]
      exact ⟨_, hset.setDeadline dl, cellOf_deadline _ _⟩

/-- What `SET` sees of its key. -/
theorem lookup_sees (db : Keyspace) (now : ℕ) (key : Bytes) :
    (db.lookup now key).2.bind Object.string? = stringOf (cellOf (db.live now key)) ∧
      (db.lookup now key).2.isNone = (cellOf (db.live now key)).isNone := by
  rcases lookup_cases db now key with ⟨hfind, hlive⟩ | ⟨o, hfind, hlive⟩
  · rw [hfind, hlive]
    exact ⟨rfl, rfl⟩
  · rw [hfind, hlive]
    cases o <;> exact ⟨rfl, rfl⟩

theorem deadline_lookup (howned : Owned db) (now : ℕ) (key : Bytes) :
    ((db.live now key).bind Prod.snd).getD 0 = (db.lookup now key).1.deadlineOrZero key := by
  unfold deadlineOrZero
  rcases lookup_cases db now key with ⟨hfind, hlive⟩ | ⟨o, hfind, hlive⟩
  · have hnone : db.peek now key = none := by rw [← lookup_snd, hfind]
    rw [hlive, howned.lookup key (lookup_none hnone)]
    rfl
  · rw [hfind, hlive]
    rfl

theorem set_performs (howned : Owned db) : Performs (Abstract.set argv) env argv db (Cmd.set env argv db) := by
  unfold Cmd.set
  dsimp only
  cases hopts : Cmd.setOpts env.now ⟨0, false, false, false, false⟩ (argv.drop 3) with
  | error err =>
    refine ⟨_, becomes_same, ?_⟩
    unfold Abstract.set
    rw [hopts]
    exact ⟨rfl, rfl⟩
  | ok o =>
    obtain ⟨hstring, hisNone⟩ := lookup_sees db env.now (arg argv 1)
    -- the database of the write: looked up once, or twice with `XX`
    have hdb : ∃ db', (if o.xx then (db.lookup env.now (arg argv 1)).1.lookup env.now (arg argv 1)
          else ((db.lookup env.now (arg argv 1)).1, (db.lookup env.now (arg argv 1)).2)).1 = db' ∧
        Becomes env.now (arg argv 1) db db' (db.live env.now (arg argv 1)) ∧
        ((db.live env.now (arg argv 1)).bind Prod.snd).getD 0 = db'.deadlineOrZero (arg argv 1) := by
      have hsame := live_lookup db env.now (arg argv 1) (arg argv 1)
      by_cases hxx : o.xx = true
      · refine ⟨_, rfl, ?_, ?_⟩
        · rw [if_pos hxx]
          exact becomes_same.lookup.lookup
        · rw [if_pos hxx, ← deadline_lookup howned.lookup, hsame]
      · refine ⟨_, rfl, ?_, ?_⟩
        · rw [if_neg hxx]
          exact becomes_same.lookup
        · rw [if_neg hxx]
          exact deadline_lookup howned _ _
    have hagain : ∀ hxx : o.xx = true, (if o.xx then
        (db.lookup env.now (arg argv 1)).1.lookup env.now (arg argv 1)
          else ((db.lookup env.now (arg argv 1)).1, (db.lookup env.now (arg argv 1)).2)).2.isNone =
        (cellOf (db.live env.now (arg argv 1))).isNone := fun hxx => by
      rw [if_pos hxx, (lookup_sees _ _ _).2, live_lookup]
    obtain ⟨db', hdb', hturn, hkept⟩ := hdb
    dsimp only
    rw [hstring]
    generalize (if o.xx then (db.lookup env.now (arg argv 1)).1.lookup env.now (arg argv 1)
      else ((db.lookup env.now (arg argv 1)).1, (db.lookup env.now (arg argv 1)).2)) = again at hdb' hagain ⊢
    subst hdb'
    by_cases hnx : o.nx ∧ (stringOf (cellOf (db.live env.now (arg argv 1)))).isSome
    · rw [if_pos hnx]
      refine ⟨_, becomes_same.lookup, ?_⟩
      unfold Abstract.set
      rw [hopts]
      dsimp only
      rw [if_pos hnx]
      exact ⟨rfl, rfl⟩
    rw [if_neg hnx]
    by_cases hxx : o.xx ∧ again.2.isNone
    · rw [if_pos hxx]
      refine ⟨_, hturn, ?_⟩
      unfold Abstract.set
      rw [hopts]
      dsimp only
      rw [if_neg hnx, if_pos ⟨hxx.1, (hagain hxx.1) ▸ hxx.2⟩]
      exact ⟨rfl, rfl⟩
    · rw [if_neg hxx]
      obtain ⟨e', hwrite, hcell⟩ := setWrite_becomes hturn o hkept fun x hx => alive_live hx
      refine ⟨e', hwrite, ?_⟩
      unfold Abstract.set
      rw [hopts]
      dsimp only
      rw [if_neg hnx, if_neg fun h => hxx ⟨h.1, (hagain h.1).trans h.2⟩]
      refine ⟨hcell.trans ?_, rfl⟩
      cases db.live env.now (arg argv 1) <;> rfl

theorem type_performs : Performs Abstract.type env argv db (Cmd.type env argv db) := by
  unfold Cmd.type
  dsimp only
  rcases lookup_cases db env.now (arg argv 1) with ⟨hfind, hlive⟩ | ⟨o, hfind, hlive⟩
  · rw [hfind]
    refine ⟨_, becomes_dead hlive, ?_⟩
    rw [hlive]
    exact ⟨rfl, rfl⟩
  · rw [hfind]
    refine ⟨_, becomes_live hlive, ?_⟩
    rw [hlive]
    cases o <;> exact ⟨rfl, rfl⟩

end Keys

end BlazeKV
