import BlazeKV.Proofs.KeyspaceOps
import BlazeKV.Spec.Checked.Strings

/-! The lookups and loops of the handlers meet no fault. With as many arguments as its arity asks
for, a string command does what the model without accesses says. -/

namespace BlazeKV.Checked

open Lib

section Access

variable {argv : List Bytes} {env : Env} {db : Keyspace} {now : ℕ} {key : Bytes}

theorem argAt_of_lt {i : ℕ} (h : i < argv.length) : argAt argv i = .ok (arg argv i) := readAt_getD h []

theorem charAt_of_lt {s : Bytes} {i : ℕ} (h : i < s.length) : charAt s i = .ok (s.getD i 0) := readAt_getD h 0

theorem readRange_eq (h : 4 ≤ argv.length) : readRange argv = .ok
    ((parseInt (arg argv 2)).bind fun a => (parseInt (arg argv 3)).map fun b => (a, b)) := by
  simp only [readRange, argAt_of_lt (show 2 < argv.length by omega), argAt_of_lt (show 3 < argv.length by omega), ok_bind]
  cases parseInt (arg argv 2) <;> rfl

/-- A typed lookup and its accessor: the types are those of the accessor. -/
theorem readAs_eq {α : Type} {types : List ObjType} {view : Object → Option α}
    (h : ∀ o, o.type ∈ types ↔ (view o).isSome) (db : Keyspace) (now : ℕ) (key : Bytes) :
    readAs types (fun o => need .variant (view o)) db now key = .ok (getAs view db now key) := by
  unfold readAs getTyped getAs
  obtain ⟨db', _ | o⟩ := db.lookup now key
  · rfl
  · cases hv : view o with
    | none =>
      have hn : o.type ∉ types := by simp [h, hv]
      simp [hn, hv]
    | some a =>
      have hm : o.type ∈ types := by simp [h, hv]
      simp [hm, hv, need]

theorem readOrMake_eq {α : Type} {types : List ObjType} {view : Object → Option α} {make : α → Object} {fresh : α}
    (h : ∀ o, o.type ∈ types ↔ (view o).isSome) (hf : view (make fresh) = some fresh) (db : Keyspace) (now : ℕ)
    (key : Bytes) : readOrMake types (fun o => need .variant (view o)) (make fresh) db now key =
      .ok (getOrMake view make fresh db now key) := by
  unfold readOrMake getTyped getOrMake getAs
  obtain ⟨db', _ | o⟩ := db.lookup now key
  · simp [hf, need]
  · cases hv : view o with
    | none =>
      have hn : o.type ∉ types := by simp [h, hv]
      simp [hn, hv]
    | some a =>
      have hm : o.type ∈ types := by simp [h, hv]
      simp [hm, hv, need]

theorem string_iff (o : Object) : o.type ∈ [ObjType.string] ↔ o.string?.isSome := by
  cases o <;> simp [Object.type, Object.string?]

/-- `get_string` lets only a string through, and `str()` reads it. -/
theorem readString_eq : readString db now key = .ok (Cmd.getString db now key) := by
  rw [Cmd.getString, ← readAs_eq string_iff]
  unfold readString readAs getTyped
  obtain ⟨db', _ | o⟩ := db.lookup now key
  · rfl
  · cases o <;> rfl

theorem readList_eq : readList db now key = .ok (Cmd.getList db now key) :=
  readAs_eq (fun o => by cases o <;> simp [Object.type, Object.list?]) db now key

theorem readHash_eq : readHash db now key = .ok (Cmd.getHash db now key) :=
  readAs_eq (fun o => by cases o <;> simp [Object.type, Object.hash?]) db now key

theorem readSet_eq : readSet db now key = .ok (Cmd.getSet db now key) :=
  readAs_eq (fun o => by cases o <;> simp [Object.type, Object.set?]) db now key

theorem readZSet_eq : readZSet db now key = .ok (Cmd.getZSet db now key) :=
  readAs_eq (fun o => by cases o <;> simp [Object.type, Object.zset?]) db now key

theorem readHll_eq : readHll db now key = .ok (Cmd.getHll db now key) :=
  readAs_eq (fun o => by cases o <;> simp [Object.type, Object.str?]) db now key

theorem openList_eq : openList db now key = .ok (Cmd.makeList db now key) :=
  readOrMake_eq (fun o => by cases o <;> simp [Object.type, Object.list?]) rfl db now key

theorem openHash_eq : openHash db now key = .ok (Cmd.makeHash db now key) :=
  readOrMake_eq (fun o => by cases o <;> simp [Object.type, Object.hash?]) rfl db now key

theorem openSet_eq : openSet db now key = .ok (Cmd.makeSet db now key) :=
  readOrMake_eq (fun o => by cases o <;> simp [Object.type, Object.set?]) rfl db now key

theorem openZSet_eq : openZSet db now key = .ok (Cmd.makeZSet db now key) :=
  readOrMake_eq (fun o => by cases o <;> simp [Object.type, Object.zset?]) rfl db now key

/-- A loop over pairs of arguments. -/
theorem forPairs_eq {σ : Type} (start : ℕ) (body : σ → Bytes × Bytes → Checked σ) (s : σ) :
    forPairs .argument argv start body s = (pairs (argv.drop start)).foldlM body s := by
  unfold forPairs
  generalize hn : (argv.length - start) / 2 = n
  induction n generalizing start s with
  | zero =>
    have hnil : pairs (argv.drop start) = [] := by
      match h : argv.drop start with
      | [] => rfl
      | [_] => rfl
      | _ :: _ :: _ =>
        have := congrArg List.length h
        rw [List.length_drop] at this
        simp only [List.length_cons] at this
        omega
    rw [hnil]
    rfl
  | succ n ih =>
    have h0 : start < argv.length := by omega
    have h1 : start + 1 < argv.length := by omega
    rw [List.range'_succ, List.foldlM_cons, List.drop_eq_getElem_cons h0, List.drop_eq_getElem_cons h1, pairs, List.foldlM_cons,
      readAt_of_lt h0, readAt_of_lt h1]
    refine congrArg (body s (argv[start], argv[start + 1]) >>= ·) (funext fun s' => ?_)
    exact ih (start + 2) s' (by omega)

theorem countArgs_eq {σ : Type} (start : ℕ) (step : σ → Bytes → σ × Bool) (s : σ) :
    countArgs argv start step s = .ok (countLoop step s (argv.drop start)) := by
  rw [countArgs, forFrom_eq]
  exact foldlM_pure _ _ fun _ _ _ => rfl

end Access

section Strings

variable {argv : List Bytes} {env : Env} {db : Keyspace}

theorem incrBy_runs (h : 2 ≤ argv.length) (delta : ℤ) : incrBy delta env argv db = .ok (Cmd.incrBy delta env argv db) := by
  simp only [incrBy, Cmd.incrBy, argAt_of_lt (show 1 < argv.length by omega), ok_bind, readString_eq]
  obtain ⟨db', _ | _ | s⟩ := Cmd.getString db env.now (arg argv 1)
  · rfl
  · rfl
  · cases hp : parseInt s <;> simp [hp]

theorem get_runs (h : 2 ≤ argv.length) : get env argv db = .ok (Cmd.get env argv db) := by
  simp only [get, Cmd.get, argAt_of_lt (show 1 < argv.length by omega), ok_bind, readString_eq]
  obtain ⟨db', _ | _ | s⟩ := Cmd.getString db env.now (arg argv 1) <;> rfl

/-- The loop over the options reads the arguments one by one; `EX` and its siblings take one more. -/
theorem setOpts_runs (now fuel i : ℕ) (o : Cmd.SetOpts) (h : argv.length - i < fuel) :
    setOpts now argv fuel i o = .ok (Cmd.setOpts now o (argv.drop i)) := by
  induction fuel using Nat.strong_induction_on generalizing i o with
  | _ fuel ih =>
    obtain ⟨fuel, rfl⟩ : ∃ n, fuel = n + 1 := ⟨fuel - 1, by omega⟩
    unfold setOpts
    by_cases hi : i < argv.length
    · have hnext : ∀ o, setOpts now argv fuel (i + 1) o = .ok (Cmd.setOpts now o (argv.drop (i + 1))) :=
        fun o => ih fuel (by omega) (i + 1) o (by omega)
      rw [List.drop_eq_getElem_cons hi, if_pos hi, argAt, readAt_of_lt hi, Cmd.setOpts.eq_def]
      simp only [ok_bind, hnext, pure_eq_ok]
      by_cases hi' : i + 1 < argv.length
      · have hafter : ∀ o, setOpts now argv fuel (i + 2) o = .ok (Cmd.setOpts now o (argv.drop (i + 1 + 1))) :=
          fun o => ih fuel (by omega) (i + 2) o (by omega)
        simp only [hi', and_true, argAt, readAt_of_lt hi', List.drop_eq_getElem_cons hi', ok_bind, hafter]
        cases parseInt argv[i + 1] with
        | none => split_ifs <;> rfl
        | some n =>
          dsimp only
          split_ifs <;> rfl
      · have hnil : argv.drop (i + 1) = [] := List.drop_eq_nil_of_le (by omega)
        simp only [hi', and_false, if_false, hnil]
        split_ifs <;> rfl
    · rw [List.drop_eq_nil_of_le (by omega), if_neg hi]
      rfl

theorem existing_eq (found : Option Object) : existing found = .ok (found.bind Object.string?) := by
  rcases found with _ | o
  · rfl
  · cases o <;> rfl

theorem set_runs (h : 3 ≤ argv.length) : set env argv db = .ok (Cmd.set env argv db) := by
  have hopts := fun o => @setOpts_runs argv env.now (argv.length + 1) 3 o (by omega)
  simp only [set, Cmd.set, argAt_of_lt (show 1 < argv.length by omega), argAt_of_lt (show 2 < argv.length by omega), ok_bind,
    hopts, existing_eq]
  cases Cmd.setOpts env.now ⟨0, false, false, false, false⟩ (argv.drop 3) with
  | error e => rfl
  | ok o =>
    dsimp only
    split_ifs <;> rfl

theorem setnx_runs (h : 3 ≤ argv.length) : setnx env argv db = .ok (Cmd.setnx env argv db) := by
  simp only [setnx, Cmd.setnx, argAt_of_lt (show 1 < argv.length by omega), argAt_of_lt (show 2 < argv.length by omega), ok_bind]
  obtain ⟨db', _ | o⟩ := db.lookup env.now (arg argv 1) <;> rfl

theorem setex_runs (h : 4 ≤ argv.length) : setex env argv db = .ok (Cmd.setex env argv db) := by
  simp only [setex, Cmd.setex, argAt_of_lt (show 1 < argv.length by omega), argAt_of_lt (show 2 < argv.length by omega),
    argAt_of_lt (show 3 < argv.length by omega), ok_bind]
  cases parseInt (arg argv 2) with
  | none => rfl
  | some secs =>
    dsimp only
    split_ifs <;> rfl

theorem getset_runs (h : 3 ≤ argv.length) : getset env argv db = .ok (Cmd.getset env argv db) := by
  simp only [getset, Cmd.getset, argAt_of_lt (show 1 < argv.length by omega), argAt_of_lt (show 2 < argv.length by omega),
    ok_bind, readString_eq]
  obtain ⟨db', _ | _ | s⟩ := Cmd.getString db env.now (arg argv 1) <;> rfl

theorem sizeBy_runs {α : Type} {read : Keyspace → ℕ → Bytes → Checked (Keyspace × Found α)}
    {found : Keyspace → ℕ → Bytes → Keyspace × Found α} (hr : ∀ db now key, read db now key = .ok (found db now key))
    (size : α → ℕ) (h : 2 ≤ argv.length) : sizeBy read size env argv db = .ok
      (match found db env.now (arg argv 1) with
      | (db, .wrongType) => .clean db errWrongType
      | (db, .absent) => .clean db (Reply.integer 0)
      | (db, .present a) => .clean db (Reply.integer (size a))) := by
  simp only [sizeBy, argAt_of_lt (show 1 < argv.length by omega), ok_bind, hr]
  obtain ⟨db', _ | _ | s⟩ := found db env.now (arg argv 1) <;> rfl

theorem strlen_runs (h : 2 ≤ argv.length) : strlen env argv db = .ok (Cmd.strlen env argv db) := by
  rw [strlen, sizeBy_runs (fun db now key => @readString_eq db now key) _ h, Cmd.strlen]
  obtain ⟨db', _ | _ | s⟩ := Cmd.getString db env.now (arg argv 1) <;> rfl

theorem incrby_runs (h : 3 ≤ argv.length) : incrby env argv db = .ok (Cmd.incrby env argv db) := by
  simp only [incrby, Cmd.incrby, argAt_of_lt (show 2 < argv.length by omega), ok_bind, incrBy_runs (show 2 ≤ argv.length by omega)]
  cases parseInt (arg argv 2) <;> rfl

theorem decrby_runs (h : 3 ≤ argv.length) : decrby env argv db = .ok (Cmd.decrby env argv db) := by
  simp only [decrby, Cmd.decrby, argAt_of_lt (show 2 < argv.length by omega), ok_bind, incrBy_runs (show 2 ≤ argv.length by omega)]
  cases parseInt (arg argv 2) <;> rfl

theorem incrbyfloat_runs (h : 3 ≤ argv.length) : incrbyfloat env argv db = .ok (Cmd.incrbyfloat env argv db) := by
  simp only [incrbyfloat, Cmd.incrbyfloat, argAt_of_lt (show 1 < argv.length by omega),
    argAt_of_lt (show 2 < argv.length by omega), ok_bind, readString_eq]
  cases parseDouble (arg argv 2) with
  | none => rfl
  | some delta =>
    dsimp only
    obtain ⟨db', _ | _ | s⟩ := Cmd.getString db env.now (arg argv 1)
    · rfl
    · rfl
    · cases hp : parseDouble s <;> simp [hp]

theorem mget_runs : mget env argv db = .ok (Cmd.mget env argv db) := by
  have hround : ∀ (r : Keyspace × Bytes) (key : Bytes), mgetRound env.now r key = .ok (Cmd.mgetRound env.now r key) :=
    fun r key => by simp [mgetRound, Cmd.mgetRound, existing_eq]
  simp only [mget, Cmd.mget, forFrom_eq, foldlM_pure _ _ fun r key _ => hround r key, List.drop_one, ok_bind, pure_eq_ok]

theorem mset_runs : mset env argv db = .ok (Cmd.mset env argv db) := by
  have hloop := foldlM_pure (ε := Fault) (pairs argv.tail) db
    (f := fun (db : Keyspace) (p : Bytes × Bytes) => db.set p.1 (.string p.2)) (g := fun db p => .ok (db.set p.1 (.string p.2)))
    fun _ _ _ => rfl
  simp only [mset, Cmd.mset, forPairs_eq, pure_eq_ok, List.drop_one, hloop, ok_bind]
  split_ifs <;> rfl

/-- The start of the range is clamped into the string. -/
theorem getrange_runs (h : 4 ≤ argv.length) : getrange env argv db = .ok (Cmd.getrange env argv db) := by
  simp only [getrange, Cmd.getrange, argAt_of_lt (show 1 < argv.length by omega), ok_bind, readString_eq, readRange_eq h]
  obtain ⟨db', _ | _ | s⟩ := Cmd.getString db env.now (arg argv 1)
  · rfl
  · rfl
  · cases parseInt (arg argv 2) with
    | none => rfl
    | some a =>
      cases parseInt (arg argv 3) with
      | none => rfl
      | some b =>
        simp only [Option.bind_some, Option.map_some]
        split_ifs with hcut
        · rfl
        · have hle : (clampRange s.length a b).1.toNat ≤ s.length := by
            simp only [clampRange] at hcut ⊢
            split_ifs at hcut ⊢ <;> omega
          rw [substr, require_of hle]
          rfl

/-! `APPEND` and `SETRANGE` ask for a length. -/

variable (lim : Limits)

/-- What `APPEND` leaves at a string does not pass `max_size()`. -/
def appendFits (lim : Limits) (env : Env) (argv : List Bytes) (db : Keyspace) : Prop :=
  ∀ s, (Cmd.getString db env.now (arg argv 1)).2 = .present s → s.length + (arg argv 2).length ≤ lim.string

/-- The string that `SETRANGE` starts from; none where there is a value of another type. -/
def setrangeBase (env : Env) (argv : List Bytes) (db : Keyspace) : Option Bytes :=
  match (Cmd.getString db env.now (arg argv 1)).2 with
  | .absent => some []
  | .wrongType => none
  | .present s => some s

/-- Where `SETRANGE` lengthens a string, the value ends within `max_size()`. -/
def setrangeFits (lim : Limits) (env : Env) (argv : List Bytes) (db : Keyspace) : Prop :=
  ∀ offset, parseInt (arg argv 2) = some offset → 0 ≤ offset → ∀ s, setrangeBase env argv db = some s →
    offset.toNat + (arg argv 3).length ≤ max s.length lim.string

theorem append_runs (h : 3 ≤ argv.length) (hfit : appendFits lim env argv db) :
    append lim env argv db = .ok (Cmd.append env argv db) := by
  simp only [append, Cmd.append, argAt_of_lt (show 1 < argv.length by omega), argAt_of_lt (show 2 < argv.length by omega),
    ok_bind, readString_eq]
  unfold appendFits at hfit
  generalize Cmd.getString db env.now (arg argv 1) = m at hfit ⊢
  obtain ⟨db', _ | _ | s⟩ := m
  · rfl
  · rfl
  · simp only [appendTo, require_of (hfit s rfl), ok_bind, pure_eq_ok]

theorem append_fails (h : 3 ≤ argv.length) (hfit : ¬appendFits lim env argv db) : append lim env argv db = .error .length := by
  simp only [append, argAt_of_lt (show 1 < argv.length by omega), argAt_of_lt (show 2 < argv.length by omega), ok_bind, readString_eq]
  unfold appendFits at hfit
  push Not at hfit
  obtain ⟨s, hs, hlong⟩ := hfit
  generalize Cmd.getString db env.now (arg argv 1) = m at hs
  obtain ⟨db', found⟩ := m
  obtain rfl : found = .present s := hs
  simp only [appendTo, require, if_neg (not_le.2 hlong)]
  rfl

/-- Growing and copying is the overwriting of the model. -/
theorem grow_copy_eq (data : Bytes) (offset : ℕ) (val : Bytes) (hfit : offset + val.length ≤ max data.length lim.string) :
    (do copyInto (← grow lim data (offset + val.length)) offset val) = .ok (Cmd.overwrite data offset val) := by
  unfold grow
  split_ifs with hlong
  · have hend : offset + val.length ≤ (data ++ List.replicate (offset + val.length - data.length) 0).length := by
      rw [List.length_append, List.length_replicate]
      omega
    rw [require_of (show offset + val.length ≤ lim.string by omega), ok_bind, pure_eq_ok, ok_bind, copyInto, require_of (.inr hend)]
    rfl
  · have hsame : data ++ List.replicate (offset + val.length - data.length) 0 = data := by
      rw [Nat.sub_eq_zero_of_le (not_lt.1 hlong), List.replicate_zero, List.append_nil]
    rw [pure_eq_ok, ok_bind, copyInto, require_of (.inr (not_lt.1 hlong)), Cmd.overwrite, hsame]
    rfl

theorem setrange_runs (h : 4 ≤ argv.length) (hfit : setrangeFits lim env argv db) :
    setrange lim env argv db = .ok (Cmd.setrange env argv db) := by
  simp only [setrange, Cmd.setrange, argAt_of_lt (show 1 < argv.length by omega), argAt_of_lt (show 2 < argv.length by omega),
    argAt_of_lt (show 3 < argv.length by omega), ok_bind, readString_eq]
  unfold setrangeFits setrangeBase at hfit
  cases hp : parseInt (arg argv 2) with
  | none => rfl
  | some offset =>
    dsimp only
    split_ifs with hneg
    · rfl
    · replace hfit := hfit offset hp (not_lt.1 hneg)
      generalize Cmd.getString db env.now (arg argv 1) = m at hfit ⊢
      obtain ⟨db', _ | _ | s⟩ := m
      · have hw := grow_copy_eq lim [] offset.toNat (arg argv 3) (hfit [] rfl)
        dsimp only
        rw [← bind_assoc, hw]
        rfl
      · rfl
      · have hw := grow_copy_eq lim s offset.toNat (arg argv 3) (hfit s rfl)
        dsimp only
        rw [← bind_assoc, hw]
        rfl

theorem setrange_fails (h : 4 ≤ argv.length) (hfit : ¬setrangeFits lim env argv db) :
    setrange lim env argv db = .error .length := by
  simp only [setrange, argAt_of_lt (show 1 < argv.length by omega), argAt_of_lt (show 2 < argv.length by omega),
    argAt_of_lt (show 3 < argv.length by omega), ok_bind, readString_eq]
  unfold setrangeFits setrangeBase at hfit
  push Not at hfit
  obtain ⟨offset, hp, hpos, s, hs, hlong⟩ := hfit
  have hgrow : grow lim s (offset.toNat + (arg argv 3).length) = .error .length := by
    rw [grow, if_pos (by omega), require, if_neg (by omega)]
    rfl
  rw [hp]
  dsimp only
  rw [if_neg (not_lt.2 hpos)]
  generalize Cmd.getString db env.now (arg argv 1) = m at hs ⊢
  obtain ⟨db', _ | _ | s'⟩ := m
  · obtain rfl := Option.some.inj hs
    dsimp only
    rw [hgrow]
    rfl
  · cases hs
  · obtain rfl := Option.some.inj hs
    dsimp only
    rw [hgrow]
    rfl

end Strings

end BlazeKV.Checked
