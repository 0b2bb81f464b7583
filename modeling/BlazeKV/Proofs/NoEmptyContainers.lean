import BlazeKV.Lib.Machine
import BlazeKV.Proofs.InOrder

/-! No key holds an empty container, but for what `ZADD` leaves behind when it fails: it makes the
sorted set first, and the reply to a bad score passes by the line that removes it again. -/

namespace BlazeKV

open Keyspace

/-- The commands that reply with the size of a container. -/
def lengthCommands : List Bytes := [ascii "LLEN", ascii "HLEN", ascii "SCARD", ascii "ZCARD"]

/-- No key holds an empty container, and `EXISTS` agrees with the length of one. -/
def NoneEmpty (db : Keyspace) : Prop :=
  (∀ k o, db.dict.find k = some o → o.NonEmpty) ∧
    ∀ env, ∀ name ∈ lengthCommands, ∀ key n, (execCore env [name, key] db).reply = Reply.integer n →
      ((execCore env [ascii "EXISTS", key] db).reply = Reply.integer 1 ↔ 0 < n)

/-- `ZADD` makes a sorted set, stores nothing in it and stops: the first score does not parse, or
`XX` is given and some score does not. -/
def leavesEmpty (env : Env) (argv : List Bytes) (db : Keyspace) : Bool :=
  lowercase (cmdName argv) = ascii "zadd" && (db.peek env.now (arg argv 1)).isNone && Cmd.zaddSyntax argv &&
    !allParse (pairs (Cmd.zaddArgs argv).2) &&
      ((Cmd.zaddArgs argv).1.xx || (pairs (Cmd.zaddArgs argv).2).head?.all fun p => (parseDouble p.1).isNone)

section Lengths

variable {env : Env} {db : Keyspace} {key : Bytes}

/-- The reply of a length command. -/
def lengthReply {α : Type} (view : Object → Option α) (size : α → ℕ) (o : Option Object) : Bytes :=
  match found view o with
  | .wrongType => errWrongType
  | .absent => Reply.integer 0
  | .present a => Reply.integer (size a)

theorem exists_reply : (execCore env [ascii "EXISTS", key] db).reply =
    Reply.integer (if (db.peek env.now key).isSome then 1 else 0) := by
  have hr : route [ascii "EXISTS", key] = .ok ⟨ascii "exists", Cmd.exists', -2, false, 1, -1, 1⟩ := rfl
  cases h : (db.peek env.now key).isSome <;> simp [execCore, hr, Cmd.exists', countLoop, existsKey, h]

theorem integer_inj {n m : ℤ} (h : Reply.integer n = Reply.integer m) : n = m :=
  (integer_append_inj (x := []) (y := []) (congrArg (· ++ []) h)).1

theorem length_iff {α : Type} {view : Object → Option α} {size : α → ℕ}
    (h : ∀ o, db.peek env.now key = some o → ∀ a, view o = some a → size a ≠ 0) {n : ℤ}
    (hn : lengthReply view size (db.peek env.now key) = Reply.integer n) :
    (execCore env [ascii "EXISTS", key] db).reply = Reply.integer 1 ↔ 0 < n := by
  rw [exists_reply]
  unfold lengthReply at hn
  cases hf : found view (db.peek env.now key) with
  | absent =>
    rw [hf] at hn
    rw [← integer_inj hn, (found_absent view).1 hf]
    exact iff_of_false (fun h => absurd (integer_inj h) (by decide)) (by decide)
  | wrongType =>
    rw [hf] at hn
    have herr : isError errWrongType = isError (Reply.integer n) := congrArg isError hn
    simp [errWrongType] at herr
  | present a =>
    rw [hf] at hn
    obtain ⟨o, ho, ha⟩ := (found_present view).1 hf
    have := h o ho a ha
    rw [← integer_inj hn, ho]
    exact iff_of_true rfl (by omega)

variable {argv : List Bytes}

theorem llen_reply : (Cmd.llen env argv db).reply = lengthReply Object.list? List.length (db.peek env.now (arg argv 1)) := by
  simp only [Cmd.llen, Cmd.getList, getAs_eq, lengthReply]
  cases found Object.list? (db.peek env.now (arg argv 1)) <;> rfl

theorem hlen_reply : (Cmd.hlen env argv db).reply = lengthReply Object.hash? Dict.size (db.peek env.now (arg argv 1)) := by
  simp only [Cmd.hlen, Cmd.getHash, getAs_eq, lengthReply]
  cases found Object.hash? (db.peek env.now (arg argv 1)) <;> rfl

theorem scard_reply : (Cmd.scard env argv db).reply = lengthReply Object.set? Dict.size (db.peek env.now (arg argv 1)) := by
  simp only [Cmd.scard, Cmd.getSet, getAs_eq, lengthReply]
  cases found Object.set? (db.peek env.now (arg argv 1)) <;> rfl

theorem zcard_reply : (Cmd.zcard env argv db).reply = lengthReply Object.zset? ZSet.size (db.peek env.now (arg argv 1)) := by
  simp only [Cmd.zcard, Cmd.getZSet, getAs_eq, lengthReply]
  cases found Object.zset? (db.peek env.now (arg argv 1)) <;> rfl

/-- `EXISTS` agrees with the lengths where nothing is empty. -/
theorem noneEmpty_iff : NoneEmpty db ↔ db.All Object.NonEmpty := by
  refine ⟨And.left, fun h => ⟨h, fun env name hname key n hn => ?_⟩⟩
  have hall : ∀ o, db.peek env.now key = some o → o.NonEmpty := fun o ho => h _ o (find_of_peek _ _ _ _ ho)
  simp only [lengthCommands, List.mem_cons, List.not_mem_nil, or_false] at hname
  rcases hname with rfl | rfl | rfl | rfl
  · have hr : route [ascii "LLEN", key] = .ok ⟨ascii "llen", Cmd.llen, 2, false, 1, 1, 1⟩ := rfl
    simp only [execCore, hr, llen_reply] at hn
    refine length_iff (fun o ho l hl => ?_) hn
    have := hall o ho
    cases o <;> simp_all [Object.list?, Object.NonEmpty]
  · have hr : route [ascii "HLEN", key] = .ok ⟨ascii "hlen", Cmd.hlen, 2, false, 1, 1, 1⟩ := rfl
    simp only [execCore, hr, hlen_reply] at hn
    refine length_iff (fun o ho l hl => ?_) hn
    have := hall o ho
    cases o <;> simp_all [Object.hash?, Object.NonEmpty]
  · have hr : route [ascii "SCARD", key] = .ok ⟨ascii "scard", Cmd.scard, 2, false, 1, 1, 1⟩ := rfl
    simp only [execCore, hr, scard_reply] at hn
    refine length_iff (fun o ho l hl => ?_) hn
    have := hall o ho
    cases o <;> simp_all [Object.set?, Object.NonEmpty]
  · have hr : route [ascii "ZCARD", key] = .ok ⟨ascii "zcard", Cmd.zcard, 2, false, 1, 1, 1⟩ := rfl
    simp only [execCore, hr, zcard_reply] at hn
    refine length_iff (fun o ho l hl => ?_) hn
    have := hall o ho
    cases o <;> simp_all [Object.zset?, Object.NonEmpty]

end Lengths

section Steps

variable {env : Env} {argv : List Bytes} {db : Keyspace}

/-- A command that does not fail so leaves no container empty. -/
theorem nonempty_kept (h : InOrder Object.NonEmpty db) (hc : leavesEmpty env argv db = false) :
    InOrder Object.NonEmpty (execCore env argv db).db := by
  refine execCore_ordered (fun _ ho => ho) h fun hname hbad hsyn z hz => ?_
  rcases hz with ⟨hnone, rfl⟩ | hpeek
  · -- the sorted set is new: the first pair must have been stored
    simp only [leavesEmpty, hname, hnone, hsyn, hbad, decide_true, Option.isNone_none, Bool.not_false, Bool.true_and,
      Bool.or_eq_false_iff] at hc
    obtain ⟨hxx, hfirst⟩ := hc
    refine Cmd.zaddLoop_first hxx ?_ ?_
    · cases hp : (pairs (Cmd.zaddArgs argv).2).head? with
      | none => simp [hp] at hfirst
      | some p => exact ⟨p, rfl, by simpa [hp, Option.isSome_iff_ne_none] using hfirst⟩
    · funext k
      exact Dict.find_empty k
  · have hne : Object.NonEmpty (.zset z) := h.all _ _ (find_of_peek _ _ _ _ hpeek)
    exact Cmd.zaddLoop_size _ hne

theorem zaddFlags_length (f : Cmd.ZAddFlags) (xs : List Bytes) : (Cmd.zaddFlags f xs).2.length ≤ xs.length := by
  induction xs generalizing f with
  | nil => simp [Cmd.zaddFlags]
  | cons a rest ih =>
    unfold Cmd.zaddFlags
    split
    · exact (ih _).trans (by simp)
    · simp

theorem zadd_routed (hname : lowercase (cmdName argv) = ascii "zadd") (hsyn : Cmd.zaddSyntax argv) :
    route argv = .ok ⟨ascii "zadd", Cmd.zadd, -4, true, 1, 1, 1⟩ := by
  have hlen : (Cmd.zaddArgs argv).2.length ≤ (argv.drop 2).length := zaddFlags_length _ _
  simp only [Cmd.zaddSyntax, decide_eq_true_eq, Bool.decide_and, Bool.and_eq_true] at hsyn
  have hpos := List.length_pos_iff.2 hsyn.1
  have har : arityOk ⟨ascii "zadd", Cmd.zadd, -4, true, 1, 1, 1⟩ argv.length = true := by
    rw [List.length_drop] at hlen
    have : (4 : ℤ) ≤ argv.length := by omega
    simpa [arityOk] using this
  have hf : CommandTable.find (ascii "zadd") = some ⟨ascii "zadd", Cmd.zadd, -4, true, 1, 1, 1⟩ := rfl
  unfold route
  dsimp only
  rw [hname, hf]
  exact if_pos har

/-- `XX`, or a bad score in front, keeps every member out. -/
theorem nothing_stored {f : Cmd.ZAddFlags} {ps : List (Bytes × Bytes)}
    (h : f.xx ∨ ps.head?.all fun p => (parseDouble p.1).isNone) :
    (goodPairs ps).foldl (scoreRound f) (fun _ => none) = fun _ => none := by
  rcases h with hxx | hfirst
  · induction goodPairs ps with
    | nil => rfl
    | cons p gs ih => simpa [scoreRound, hxx] using ih
  · have hnil : goodPairs ps = [] := by
      cases ps with
      | nil => rfl
      | cons p ps =>
        have hbad : parseDouble p.1 = none := by simpa using hfirst
        simp [goodPairs, hbad]
    rw [hnil]
    rfl

/-- One that does leaves an empty sorted set. -/
theorem empty_left (hc : leavesEmpty env argv db) : ¬(execCore env argv db).db.All Object.NonEmpty := by
  simp only [leavesEmpty, Bool.and_eq_true, decide_eq_true_eq, Option.isNone_iff_eq_none, Bool.not_eq_true',
    Bool.or_eq_true] at hc
  obtain ⟨⟨⟨⟨hname, hnone⟩, hsyn⟩, hbad⟩, hwhy⟩ := hc
  obtain ⟨z, hres, hscores⟩ := Cmd.zaddOn_stop env argv
    ((db.lookup env.now (arg argv 1)).1.set (arg argv 1) (.zset .empty)) .empty hbad
  have hdb : (execCore env argv db).db =
      ((db.lookup env.now (arg argv 1)).1.set (arg argv 1) (.zset .empty)).write (arg argv 1) (.zset z) := by
    simp only [execCore, zadd_routed hname hsyn, Cmd.zadd_eq, hsyn, if_true, hnone]
    exact congrArg Result.db hres
  have hempty : z.dict.find = fun _ => none := by
    rw [hscores, ← nothing_stored hwhy]
    congr 1
    funext k
    exact Dict.find_empty k
  intro hall
  have hne : Object.NonEmpty (.zset z) := hall (arg argv 1) _ (by rw [hdb]; simp)
  exact hne ((Dict.size_eq_zero z.dict).2 fun k => congrFun hempty k)

theorem run_nonempty_iff (cmds : List (Env × List Bytes)) (h : InOrder Object.NonEmpty db) :
    (∀ n, (Lib.runTotal execStep db (cmds.take n)).1.All Object.NonEmpty) ↔
      Lib.RunOk execStep (fun db c => leavesEmpty c.1 c.2 db = false) db cmds := by
  induction cmds generalizing db with
  | nil => exact iff_of_true (fun n => by rw [List.take_nil]; exact h.all) trivial
  | cons c cmds ih =>
    have hsplit : (∀ n, (Lib.runTotal execStep db ((c :: cmds).take n)).1.All Object.NonEmpty) ↔
        ∀ n, (Lib.runTotal execStep (execStep db c).1 (cmds.take n)).1.All Object.NonEmpty := by
      refine ⟨fun hall n => hall (n + 1), fun hall n => ?_⟩
      cases n with
      | zero => exact h.all
      | succ n => exact hall n
    rw [hsplit, Lib.RunOk]
    cases hc : leavesEmpty c.1 c.2 db with
    | true => exact iff_of_false (fun hall => empty_left hc (hall 0)) (by simp)
    | false => exact (ih (nonempty_kept h hc)).trans ⟨fun hok => ⟨rfl, hok⟩, And.right⟩

end Steps

/-- In a run from the empty keyspace no state holds an empty container, and `EXISTS` agrees with the
lengths in each, exactly when no `ZADD` of the run makes a sorted set and fails with nothing in it. -/
theorem no_empty_containers_iff (cmds : List (Env × List Bytes)) :
    (∀ n, NoneEmpty (Lib.runTotal execStep .empty (cmds.take n)).1) ↔
      Lib.RunOk execStep (fun db c => leavesEmpty c.1 c.2 db = false) .empty cmds := by
  simp only [noneEmpty_iff]
  exact run_nonempty_iff cmds .empty

/-- `ZADD z bad a` on a key that is not there. -/
theorem failed_zadd_stays : ¬ ∀ cmds : List (Env × List Bytes), NoneEmpty (Lib.runTotal execStep .empty cmds).1 := by
  intro h
  have hc : leavesEmpty (.quiet 0) [ascii "ZADD", ascii "z", ascii "bad", ascii "a"] .empty = true := by decide +kernel
  exact empty_left hc (h [(.quiet 0, [ascii "ZADD", ascii "z", ascii "bad", ascii "a"])]).1

end BlazeKV
