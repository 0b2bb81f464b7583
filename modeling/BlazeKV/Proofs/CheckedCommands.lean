import BlazeKV.Proofs.GlobMatch
import BlazeKV.Spec.Checked.Lists
import BlazeKV.Spec.Checked.Server

/-! The commands on keys, lists, hashes and sets, on the server and on HyperLogLogs meet no fault, and
do what the model without accesses says. -/

namespace BlazeKV.Checked

open Lib

section Generic

variable {argv : List Bytes} {env : Env} {db : Keyspace}

theorem del_runs : del env argv db = .ok (Cmd.del env argv db) := by
  simp only [del, Cmd.del, countArgs_eq, List.drop_one, ok_bind, pure_eq_ok]
  rfl

theorem exists'_runs : exists' env argv db = .ok (Cmd.exists' env argv db) := by
  simp only [exists', Cmd.exists', countArgs_eq, List.drop_one, ok_bind, pure_eq_ok]

theorem setExpire_runs (h : 2 ≤ argv.length) (deadline : ℕ) :
    setExpire deadline env argv db = .ok (Cmd.setExpire deadline env argv db) := by
  simp only [setExpire, Cmd.setExpire, argAt_of_lt (show 1 < argv.length by omega), ok_bind]
  split_ifs <;> rfl

theorem expireBy_runs (h : 3 ≤ argv.length) (deadline : ℕ → ℕ → ℕ) :
    expireBy deadline env argv db = .ok (Cmd.expireBy deadline env argv db) := by
  simp only [expireBy, Cmd.expireBy, argAt_of_lt (show 2 < argv.length by omega), ok_bind, setExpire_runs (show 2 ≤ argv.length by omega)]
  cases parseInt (arg argv 2) <;> rfl

theorem ttl_runs (h : 2 ≤ argv.length) : ttl env argv db = .ok (Cmd.ttl env argv db) := by
  simp only [ttl, Cmd.ttl, argAt_of_lt (show 1 < argv.length by omega), ok_bind, pure_eq_ok]

theorem pttl_runs (h : 2 ≤ argv.length) : pttl env argv db = .ok (Cmd.pttl env argv db) := by
  simp only [pttl, Cmd.pttl, argAt_of_lt (show 1 < argv.length by omega), ok_bind, pure_eq_ok]

theorem persist_runs (h : 2 ≤ argv.length) : persist env argv db = .ok (Cmd.persist env argv db) := by
  simp only [persist, Cmd.persist, argAt_of_lt (show 1 < argv.length by omega), ok_bind]
  split_ifs <;> rfl

theorem type_runs (h : 2 ≤ argv.length) : type env argv db = .ok (Cmd.type env argv db) := by
  simp only [type, Cmd.type, argAt_of_lt (show 1 < argv.length by omega), ok_bind, pure_eq_ok]

/-- The loop over the keyspace collects what the two tests let through. -/
theorem listedKeys_eq (now : ℕ) (skip : Object → Bool) (pat : Bytes) : listedKeys db now skip pat =
    .ok (Cmd.listedKeys db now fun e => !skip e.2 && Cmd.globMatch pat e.1) := by
  have hround : ∀ (out : List Bytes) (e : Bytes × Object), e ∈ db.forEach →
      (do
        if db.deadlineOrZero e.1 ≠ 0 ∧ db.deadlineOrZero e.1 ≤ now then return out
        else if skip e.2 then return out
        else if ← globMatch pat e.1 then return out ++ [e.1]
        else return out : Checked (List Bytes)) =
      .ok (if (!(db.deadlineOrZero e.1 ≠ 0 && db.deadlineOrZero e.1 ≤ now) && (!skip e.2 && Cmd.globMatch pat e.1)) then
        out ++ [e.1] else out) := by
    intro out e _
    simp only [globMatch_eq, ok_bind, pure_eq_ok]
    by_cases hdue : db.deadlineOrZero e.1 ≠ 0 ∧ db.deadlineOrZero e.1 ≤ now
    · simp [hdue]
    · cases hs : skip e.2 <;> cases hg : Cmd.globMatch pat e.1 <;> simp [hdue]
  rw [listedKeys, foldlM_pure db.forEach [] hround, foldl_filter_map]
  rfl

theorem keys_runs (h : 2 ≤ argv.length) : keys env argv db = .ok (Cmd.keys env argv db) := by
  simp only [keys, Cmd.keys, argAt_of_lt (show 1 < argv.length by omega), ok_bind, listedKeys_eq, pure_eq_ok, Bool.not_false, Bool.true_and]

theorem scan_runs : scan env argv db = .ok (Cmd.scan env argv db) := by
  have hopts := foldlM_pure (ε := Fault) (pairs (argv.drop 2)) ((ascii "*", none) : Bytes × Option ObjType) (f := Cmd.scanOpt)
    (g := fun o p => .ok (Cmd.scanOpt o p)) fun _ _ _ => rfl
  have hfilter : ∀ (filter : Option ObjType) (o : Object),
      (!filter.any fun t => decide (o.type ≠ t)) = filter.all fun t => decide (o.type = t) := by
    intro filter o
    cases filter <;> simp
  simp only [scan, Cmd.scan, forPairs_eq, pure_eq_ok, hopts, ok_bind, listedKeys_eq, hfilter]

theorem rename_runs (h : 3 ≤ argv.length) : rename env argv db = .ok (Cmd.rename env argv db) := by
  simp only [rename, Cmd.rename, argAt_of_lt (show 1 < argv.length by omega), argAt_of_lt (show 2 < argv.length by omega), ok_bind]
  obtain ⟨db', _ | o⟩ := db.lookup env.now (arg argv 1) <;> rfl

theorem encoding_eq (o : Object) : encoding o = .ok (Cmd.encoding o) := by cases o <;> rfl

theorem object_runs (h : 2 ≤ argv.length) : object env argv db = .ok (Cmd.object env argv db) := by
  simp only [object, Cmd.object, argAt_of_lt (show 1 < argv.length by omega), ok_bind, encoding_eq]
  by_cases h3 : argv.length < 3
  · simp [h3]
  · simp only [h3, if_false, argAt_of_lt (show 2 < argv.length by omega), ok_bind]
    obtain ⟨db', _ | o⟩ := db.lookup env.now (arg argv 2)
    · rfl
    · dsimp only
      split_ifs <;> rfl

end Generic

section Lists

variable {argv : List Bytes} {env : Env} {db : Keyspace}

theorem push_runs (h : 2 ≤ argv.length) (head : Bool) : push head env argv db = .ok (Cmd.push head env argv db) := by
  have hloop := fun l : List Bytes => foldlM_pure (ε := Fault) (argv.drop 2) l
    (f := fun l x => if head then x :: l else l ++ [x]) (g := fun l x => .ok (if head then x :: l else l ++ [x])) fun _ _ _ => rfl
  simp only [push, Cmd.push, argAt_of_lt (show 1 < argv.length by omega), ok_bind, openList_eq, forFrom_eq, pure_eq_ok, hloop]
  obtain ⟨db', _ | l⟩ := Cmd.makeList db env.now (arg argv 1) <;> rfl

theorem popCount_eq : popCount argv = .ok (Cmd.popCount argv) := by
  unfold popCount Cmd.popCount
  by_cases h : argv.length = 3
  · simp [h, argAt_of_lt (show 2 < argv.length by omega)]
  · simp [h]

/-- The loop of `pop` takes no more than there is. -/
theorem popLoop_eq (head : Bool) (n : ℕ) (l popped : List Bytes) (h : n ≤ l.length) :
    popLoop head n l popped = .ok ((Cmd.popLoop head l n).1, popped ++ (Cmd.popLoop head l n).2) := by
  induction n generalizing l popped with
  | zero => cases head <;> simp [popLoop, Cmd.popLoop]
  | succ n ih =>
    have hne : l ≠ [] := by
      rintro rfl
      simp at h
    cases head with
    | true =>
      obtain ⟨x, xs, rfl⟩ := List.exists_cons_of_ne_nil hne
      have := ih xs (popped ++ [x]) (by simpa using h)
      simp only [popLoop, if_true, front, List.head?_cons, need, ok_bind, List.tail_cons, this]
      simp [Cmd.popLoop]
    | false =>
      obtain ⟨xs, x, rfl⟩ := (List.eq_nil_or_concat l).resolve_left hne
      rw [List.concat_eq_append, List.length_append, List.length_singleton] at h
      have := ih xs (popped ++ [x]) (by omega)
      simp only [popLoop, Bool.false_eq_true, if_false, back, List.concat_eq_append, List.getLast?_concat, need, ok_bind,
        List.dropLast_concat, this]
      have hlen : xs.length + 1 - (n + 1) = xs.length - n := by omega
      simp [Cmd.popLoop, hlen, List.take_append_of_le_length, List.drop_append_of_le_length]

theorem pop_runs (h : 2 ≤ argv.length) (head : Bool) : pop head env argv db = .ok (Cmd.pop head env argv db) := by
  have hloop := fun (l : List Bytes) (n : ℕ) => popLoop_eq head (min n l.length) l [] (min_le_right _ _)
  simp only [pop, Cmd.pop, argAt_of_lt (show 1 < argv.length by omega), ok_bind, readList_eq, popCount_eq]
  obtain ⟨db', _ | _ | l⟩ := Cmd.getList db env.now (arg argv 1)
  · cases Cmd.popCount argv <;> rfl
  · rfl
  · cases Cmd.popCount argv with
    | none => rfl
    | some count =>
      simp only [hloop, ok_bind, List.nil_append]
      rfl

theorem llen_runs (h : 2 ≤ argv.length) : llen env argv db = .ok (Cmd.llen env argv db) := by
  rw [llen, sizeBy_runs (fun db now key => @readList_eq db now key) _ h, Cmd.llen]
  obtain ⟨db', _ | _ | l⟩ := Cmd.getList db env.now (arg argv 1) <;> rfl

/-- A range that is not empty lies in the list. -/
theorem clampRange_le {len : ℕ} {a b : ℤ} (h : ¬((clampRange len a b).1 > (clampRange len a b).2 ∨ len = 0)) :
    (clampRange len a b).1.toNat + ((clampRange len a b).2 - (clampRange len a b).1 + 1).toNat ≤ len := by
  simp only [clampRange] at h ⊢
  split_ifs at h ⊢ <;> omega

theorem lrange_runs (h : 4 ≤ argv.length) : lrange env argv db = .ok (Cmd.lrange env argv db) := by
  simp only [lrange, Cmd.lrange, argAt_of_lt (show 1 < argv.length by omega), ok_bind, readList_eq, readRange_eq h]
  obtain ⟨db', _ | _ | l⟩ := Cmd.getList db env.now (arg argv 1)
  · cases parseInt (arg argv 2) <;> cases parseInt (arg argv 3) <;> rfl
  · rfl
  · cases parseInt (arg argv 2) with
    | none => rfl
    | some a =>
      cases parseInt (arg argv 3) with
      | none => rfl
      | some b =>
        simp only [Option.bind_some, Option.map_some]
        split_ifs with hcut
        · rfl
        · rw [range_mapM _ _ _ _ (clampRange_le hcut)]
          rfl

theorem lindex_runs (h : 3 ≤ argv.length) : lindex env argv db = .ok (Cmd.lindex env argv db) := by
  simp only [lindex, Cmd.lindex, argAt_of_lt (show 1 < argv.length by omega), argAt_of_lt (show 2 < argv.length by omega),
    ok_bind, readList_eq]
  obtain ⟨db', _ | _ | l⟩ := Cmd.getList db env.now (arg argv 1)
  · cases parseInt (arg argv 2) <;> rfl
  · rfl
  · cases parseInt (arg argv 2) with
    | none => rfl
    | some idx =>
      simp only [Cmd.listIndex]
      generalize (if idx < 0 then idx + (l.length : ℤ) else idx) = i
      split_ifs with hout
      · rfl
      · rw [readAt_getD (show i.toNat < l.length by omega) []]
        rfl

theorem lset_runs (h : 4 ≤ argv.length) : lset env argv db = .ok (Cmd.lset env argv db) := by
  simp only [lset, Cmd.lset, argAt_of_lt (show 1 < argv.length by omega), argAt_of_lt (show 2 < argv.length by omega),
    argAt_of_lt (show 3 < argv.length by omega), ok_bind, readList_eq]
  obtain ⟨db', _ | _ | l⟩ := Cmd.getList db env.now (arg argv 1)
  · rfl
  · rfl
  · cases parseInt (arg argv 2) with
    | none => rfl
    | some idx =>
      simp only [Cmd.listIndex]
      generalize (if idx < 0 then idx + (l.length : ℤ) else idx) = i
      split_ifs with hout
      · rfl
      · rw [require_of (show i.toNat < l.length by omega)]
        rfl

end Lists

section Tables

variable {argv : List Bytes} {env : Env} {db : Keyspace}

theorem hset_runs (h : 2 ≤ argv.length) : hset env argv db = .ok (Cmd.hset env argv db) := by
  simp only [hset, Cmd.hset, argAt_of_lt (show 1 < argv.length by omega), ok_bind, openHash_eq, forPairs_eq]
  by_cases hodd : argv.length % 2 ≠ 0
  · rw [if_pos hodd, if_pos hodd]
    rfl
  · rw [if_neg hodd, if_neg hodd]
    obtain ⟨db', _ | d⟩ := Cmd.makeHash db env.now (arg argv 1)
    · rfl
    · have hloop : (pairs (argv.drop 2)).foldlM (fun r p =>
          pure ((r.1.insertOrAssign p.1 p.2).1, if (r.1.insertOrAssign p.1 p.2).2 then r.2 + 1 else r.2)) (d, 0) =
          (.ok (countLoop (fun h p => h.insertOrAssign p.1 p.2) d (pairs (argv.drop 2))) : Checked (Dict Bytes × ℕ)) :=
        foldlM_pure _ _ fun _ _ _ => rfl
      dsimp only
      rw [hloop]
      rfl

theorem hget_runs (h : 3 ≤ argv.length) : hget env argv db = .ok (Cmd.hget env argv db) := by
  simp only [hget, Cmd.hget, argAt_of_lt (show 1 < argv.length by omega), argAt_of_lt (show 2 < argv.length by omega), ok_bind, readHash_eq]
  obtain ⟨db', _ | _ | d⟩ := Cmd.getHash db env.now (arg argv 1) <;> rfl

theorem hdel_runs (h : 2 ≤ argv.length) : hdel env argv db = .ok (Cmd.hdel env argv db) := by
  simp only [hdel, removeBy, Cmd.hdel, argAt_of_lt (show 1 < argv.length by omega), ok_bind, readHash_eq, countArgs_eq]
  obtain ⟨db', _ | _ | d⟩ := Cmd.getHash db env.now (arg argv 1) <;> rfl

theorem hexists_runs (h : 3 ≤ argv.length) : hexists env argv db = .ok (Cmd.hexists env argv db) := by
  simp only [hexists, containsBy, Cmd.hexists, argAt_of_lt (show 1 < argv.length by omega),
    argAt_of_lt (show 2 < argv.length by omega), ok_bind, readHash_eq]
  obtain ⟨db', _ | _ | d⟩ := Cmd.getHash db env.now (arg argv 1) <;> rfl

theorem hashEntries_runs (h : 2 ≤ argv.length) (width : ℕ) (entry : Bytes × Bytes → Bytes) :
    entriesBy readHash width entry env argv db = .ok (Cmd.hashEntries width entry env argv db) := by
  simp only [entriesBy, Cmd.hashEntries, argAt_of_lt (show 1 < argv.length by omega), ok_bind, readHash_eq]
  obtain ⟨db', _ | _ | d⟩ := Cmd.getHash db env.now (arg argv 1) <;> rfl

theorem hlen_runs (h : 2 ≤ argv.length) : hlen env argv db = .ok (Cmd.hlen env argv db) := by
  rw [hlen, sizeBy_runs (fun db now key => @readHash_eq db now key) _ h, Cmd.hlen]
  obtain ⟨db', _ | _ | d⟩ := Cmd.getHash db env.now (arg argv 1) <;> rfl

theorem hincrby_runs (h : 4 ≤ argv.length) : hincrby env argv db = .ok (Cmd.hincrby env argv db) := by
  simp only [hincrby, Cmd.hincrby, argAt_of_lt (show 1 < argv.length by omega), argAt_of_lt (show 2 < argv.length by omega),
    argAt_of_lt (show 3 < argv.length by omega), ok_bind, openHash_eq]
  cases parseInt (arg argv 3) with
  | none => rfl
  | some delta =>
    dsimp only
    obtain ⟨db', _ | d⟩ := Cmd.makeHash db env.now (arg argv 1)
    · rfl
    · dsimp only
      cases Cmd.fieldInt d (arg argv 2) <;> rfl

theorem hmget_runs (h : 2 ≤ argv.length) : hmget env argv db = .ok (Cmd.hmget env argv db) := by
  have hloop : ∀ (value : Bytes → Option Bytes) (xs : List Bytes) (out : Bytes),
      xs.foldlM (fun out f => .ok (out ++ (value f).elim Reply.nullBulk Reply.bulk)) out =
        (.ok (out ++ xs.flatMap fun f => (value f).elim Reply.nullBulk Reply.bulk) : Checked Bytes) := by
    intro value xs
    induction xs with
    | nil => simp
    | cons x xs ih => exact fun out => by simp [ih]
  simp only [hmget, Cmd.hmget, argAt_of_lt (show 1 < argv.length by omega), ok_bind, readHash_eq, forFrom_eq, pure_eq_ok, hloop]
  obtain ⟨db', _ | _ | d⟩ := Cmd.getHash db env.now (arg argv 1) <;> rfl

theorem sadd_runs (h : 2 ≤ argv.length) : sadd env argv db = .ok (Cmd.sadd env argv db) := by
  simp only [sadd, Cmd.sadd, argAt_of_lt (show 1 < argv.length by omega), ok_bind, openSet_eq, countArgs_eq]
  obtain ⟨db', _ | d⟩ := Cmd.makeSet db env.now (arg argv 1) <;> rfl

theorem srem_runs (h : 2 ≤ argv.length) : srem env argv db = .ok (Cmd.srem env argv db) := by
  simp only [srem, removeBy, Cmd.srem, argAt_of_lt (show 1 < argv.length by omega), ok_bind, readSet_eq, countArgs_eq]
  obtain ⟨db', _ | _ | d⟩ := Cmd.getSet db env.now (arg argv 1) <;> rfl

theorem sismember_runs (h : 3 ≤ argv.length) : sismember env argv db = .ok (Cmd.sismember env argv db) := by
  simp only [sismember, containsBy, Cmd.sismember, argAt_of_lt (show 1 < argv.length by omega),
    argAt_of_lt (show 2 < argv.length by omega), ok_bind, readSet_eq]
  obtain ⟨db', _ | _ | d⟩ := Cmd.getSet db env.now (arg argv 1) <;> rfl

theorem scard_runs (h : 2 ≤ argv.length) : scard env argv db = .ok (Cmd.scard env argv db) := by
  rw [scard, sizeBy_runs (fun db now key => @readSet_eq db now key) _ h, Cmd.scard]
  obtain ⟨db', _ | _ | d⟩ := Cmd.getSet db env.now (arg argv 1) <;> rfl

theorem smembers_runs (h : 2 ≤ argv.length) : smembers env argv db = .ok (Cmd.smembers env argv db) := by
  simp only [smembers, entriesBy, Cmd.smembers, argAt_of_lt (show 1 < argv.length by omega), ok_bind, readSet_eq]
  obtain ⟨db', _ | _ | d⟩ := Cmd.getSet db env.now (arg argv 1)
  · rfl
  · rfl
  · simp

theorem spop_runs (h : 2 ≤ argv.length) : spop env argv db = .ok (Cmd.spop env argv db) := by
  simp only [spop, Cmd.spop, argAt_of_lt (show 1 < argv.length by omega), ok_bind, readSet_eq, popCount_eq]
  obtain ⟨db', _ | _ | d⟩ := Cmd.getSet db env.now (arg argv 1)
  · cases Cmd.popCount argv <;> rfl
  · rfl
  · cases Cmd.popCount argv with
    | none => rfl
    | some count =>
      dsimp only
      by_cases hc : argv.length = 3
      · simp [hc]
      · cases hm : Cmd.picked d count.toNat with
        | nil => simp [hc]
        | cons x xs => simp [hc, front, need]

end Tables

section Hll

variable (lim : Limits)

theorem ensure_eq (regs : Bytes) : ensure lim regs = .ok (Hll.ensure regs) := by
  have hlarge : Hll.kRegisters ≤ lim.string := le_trans (by decide) lim.string_large
  unfold ensure Hll.ensure
  split_ifs
  · rw [require_of hlarge]
    rfl
  · rfl

theorem length_ensure (regs : Bytes) : (Hll.ensure regs).length = Hll.kRegisters := by
  unfold Hll.ensure
  split_ifs with h
  · exact List.length_replicate
  · exact not_not.1 h

theorem hllAdd_eq (regs x : Bytes) : hllAdd lim regs x = .ok (Hll.add regs x) := by
  have hidx : hashBytes x 0xADC83B19 % Hll.kRegisters < (Hll.ensure regs).length :=
    (length_ensure regs).symm ▸ Nat.mod_lt _ (by decide)
  unfold hllAdd Hll.add
  rw [ensure_eq, ok_bind]
  dsimp only
  rw [charAt_of_lt hidx, ok_bind]
  split_ifs <;> rfl

theorem hllCount_eq (estimate : Bytes → ℕ) {regs : Bytes} (h : regs.length = Hll.kRegisters) :
    hllCount estimate regs = .ok (estimate regs) := by
  have hloop : ∃ zeros, (List.range Hll.kRegisters).foldlM (countRegister regs) 0 = .ok zeros ∧ True := by
    refine foldlM_keeps (fun _ => True) _ trivial fun zeros _ i hi => ?_
    rw [countRegister, charAt_of_lt (by rw [h]; exact List.mem_range.1 hi)]
    exact ⟨_, rfl, trivial⟩
  obtain ⟨zeros, hz, -⟩ := hloop
  rw [hllCount, if_neg (not_not.2 h), hz]
  rfl

/-- The larger of two registers. -/
def larger (d s : UInt8) : UInt8 := if d < s then s else d

/-- After `n` rounds the first `n` registers are merged. -/
theorem mergeLoop_eq {dst src : Bytes} (hlen : src.length = dst.length) (n : ℕ) (h : n ≤ dst.length) :
    (List.range n).foldlM (mergeRegister src) dst = .ok ((List.zipWith larger dst src).take n ++ dst.drop n) := by
  induction n with
  | zero => simp
  | succ n ih =>
    have hz : n < (List.zipWith larger dst src).length := by
      rw [List.length_zipWith, hlen, min_self]
      exact h
    have htake : ((List.zipWith larger dst src).take n).length = n := List.length_take_of_le hz.le
    have hdrop : dst.drop n = dst[n] :: dst.drop (n + 1) := List.drop_eq_getElem_cons h
    have hget : ((List.zipWith larger dst src).take n ++ dst.drop n).getD n 0 = dst[n] := by
      rw [hdrop, List.getD_append_right _ _ _ _ htake.le, htake, Nat.sub_self]
      rfl
    have hsrc : src.getD n 0 = src[n] := by simp [List.getD, show n < src.length by omega]
    rw [List.range_succ, List.foldlM_append, ih (by omega), ok_bind, List.foldlM_cons, mergeRegister,
      charAt_of_lt (show n < src.length by omega), ok_bind,
      charAt_of_lt (by rw [List.length_append, htake, List.length_drop]; omega), ok_bind, hget, hsrc, List.take_add_one,
      List.getElem?_eq_getElem hz, List.getElem_zipWith, larger]
    split_ifs
    · rw [List.set_append_right _ _ htake.le, htake, Nat.sub_self, hdrop, List.set_cons_zero]
      simp
    · rw [hdrop]
      simp

theorem merge_eq (dst src : Bytes) : merge lim dst src = .ok (Hll.merge dst src) := by
  unfold merge Hll.merge
  rw [ensure_eq, ok_bind]
  dsimp only
  split_ifs with h
  · rfl
  · have hlen : src.length = (Hll.ensure dst).length := (not_not.1 h).trans (length_ensure dst).symm
    rw [mergeLoop_eq hlen _ (length_ensure dst).ge, List.take_of_length_le, List.drop_of_length_le (length_ensure dst).le, List.append_nil]
    · rfl
    · rw [List.length_zipWith]
      exact (min_le_left _ _).trans (length_ensure dst).le

theorem length_merge (dst src : Bytes) : (Hll.merge dst src).length = Hll.kRegisters := by
  unfold Hll.merge
  dsimp only
  split_ifs with h
  · exact length_ensure dst
  · rw [List.length_zipWith, length_ensure, not_not.1 h, min_self]

theorem registers_eq (o : Option Object) : registers o = .ok (o.bind Object.str?) := by
  rcases o with _ | o
  · rfl
  · cases o <;> rfl

end Hll

section Server

variable {argv : List Bytes} {env : Env} {db : Keyspace}

theorem ping_runs : ping env argv db = .ok (Cmd.ping env argv db) := by
  unfold ping Cmd.ping
  split_ifs with h
  · rw [argAt_of_lt (show 1 < argv.length by omega)]
    rfl
  · rfl

theorem echo_runs (h : 2 ≤ argv.length) : echo env argv db = .ok (Cmd.echo env argv db) := by
  rw [echo, argAt_of_lt (show 1 < argv.length by omega)]
  rfl

theorem client_runs (h : 2 ≤ argv.length) : client env argv db = .ok (Cmd.client env argv db) := by
  rw [client, argAt_of_lt (show 1 < argv.length by omega)]
  rfl

theorem debug_runs (h : 2 ≤ argv.length) : debug env argv db = .ok (Cmd.debug env argv db) := by
  rw [debug, argAt_of_lt (show 1 < argv.length by omega)]
  rfl

theorem config_runs (h : 2 ≤ argv.length) : config env argv db = .ok (Cmd.config env argv db) := by
  rw [config, Cmd.config, argAt_of_lt (show 1 < argv.length by omega), ok_bind]
  by_cases hget : lowercase (arg argv 1) = ascii "get"
  · rw [if_pos hget, if_pos hget]
    by_cases h3 : argv.length ≥ 3
    · rw [if_pos h3, if_pos h3, argAt_of_lt (show 2 < argv.length by omega)]
      rfl
    · rw [if_neg h3, if_neg h3]
      rfl
  · rw [if_neg hget, if_neg hget]
    rfl

theorem info_runs : info env argv db = .ok (Cmd.info env argv db) := by
  rw [info, Cmd.info]
  split_ifs with h
  · rw [argAt_of_lt (show 1 < argv.length by omega)]
    rfl
  · rfl

theorem command_runs : command env argv db = .ok (Cmd.command env argv db) := by
  rw [command, Cmd.command]
  by_cases h : argv.length ≥ 2
  · rw [if_pos h, argAt_of_lt (show 1 < argv.length by omega)]
    rfl
  · simp [h]

variable (lim : Limits)

theorem pfadd_runs (h : 2 ≤ argv.length) : pfadd lim env argv db = .ok (Cmd.pfadd env argv db) := by
  have hloop := fun (regs : Bytes) (changed : Bool) => foldlM_pure (ε := Fault) (argv.drop 2) (regs, changed)
    (f := fun (r : Bytes × Bool) x => ((Hll.add r.1 x).1, r.2 || (Hll.add r.1 x).2))
    (g := fun r x => .ok ((Hll.add r.1 x).1, r.2 || (Hll.add r.1 x).2)) fun _ _ _ => rfl
  simp only [pfadd, Cmd.pfadd, argAt_of_lt (show 1 < argv.length by omega), ok_bind, readHll_eq, ensure_eq, forFrom_eq, hllAdd_eq,
    pure_eq_ok, hloop]
  obtain ⟨db', _ | _ | regs⟩ := Cmd.getHll db env.now (arg argv 1) <;> rfl

theorem mergeRound_eq (now : ℕ) (r : Keyspace × Bytes) (key : Bytes) :
    mergeRound lim now r key = .ok (Cmd.mergeRound now r key) := by
  unfold mergeRound Cmd.mergeRound
  dsimp only
  rw [registers_eq, ok_bind]
  cases (r.1.lookup now key).2.bind Object.str? with
  | none => rfl
  | some src =>
    dsimp only
    rw [merge_eq]
    rfl

theorem pfcount_runs : pfcount lim env argv db = .ok (Cmd.pfcount env argv db) := by
  have hloop : argv.tail.foldlM (mergeRound lim env.now) (db, Hll.ensure []) =
      .ok (argv.tail.foldl (Cmd.mergeRound env.now) (db, Hll.ensure [])) ∧
      (argv.tail.foldl (Cmd.mergeRound env.now) (db, Hll.ensure [])).2.length = Hll.kRegisters := by
    refine foldlM_ok (fun r : Keyspace × Bytes => r.2.length = Hll.kRegisters) _ (length_ensure []) fun r hr key _ => ?_
    refine ⟨mergeRound_eq lim env.now r key, ?_⟩
    simp only [Cmd.mergeRound]
    cases (r.1.lookup env.now key).2.bind Object.str? with
    | none => exact hr
    | some src => exact length_merge r.2 src
  simp only [pfcount, Cmd.pfcount, ensure_eq, forFrom_eq, List.drop_one, ok_bind, hloop.1, hllCount_eq env.estimate hloop.2,
    pure_eq_ok]

theorem pfmerge_runs (h : 2 ≤ argv.length) : pfmerge lim env argv db = .ok (Cmd.pfmerge env argv db) := by
  simp only [pfmerge, Cmd.pfmerge, argAt_of_lt (show 1 < argv.length by omega), ok_bind, ensure_eq, registers_eq, forFrom_eq,
    List.drop_one, foldlM_pure _ _ fun r key _ => mergeRound_eq lim env.now r key, pure_eq_ok]

end Server

end BlazeKV.Checked
