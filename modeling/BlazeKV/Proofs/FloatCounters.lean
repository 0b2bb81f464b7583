import BlazeKV.Lib.Machine
import BlazeKV.Proofs.DoubleText
import BlazeKV.Proofs.CommandEffects
import BlazeKV.Proofs.Timeless

/-! `INCRBYFLOAT` over whole runs. The counters live as text, and are parsed and printed by every
command; the replies are those of a machine that keeps the doubles themselves. -/

namespace BlazeKV

open Keyspace Lib

/-- What `INCRBYFLOAT` finds under a key. -/
inductive Counter
  | number (v : Double)
  | unreadable
  | otherType
  deriving DecidableEq

namespace Counter

/-- A number below the normal range is lost: its text is refused by the next command. -/
def keep (v : Double) : Counter := if 0 < v.mag ∧ v.mag < 2 ^ 52 then unreadable else number v

def add (c : Counter) (delta : Double) : Counter × Bytes :=
  match c with
  | number v => (keep (v.add delta), Reply.bulk (doubleToString (v.add delta)))
  | unreadable => (c, errNotFloat)
  | otherType => (c, errWrongType)

/-- An `INCRBYFLOAT` on a machine of counters. -/
def incrbyfloat (cs : Bytes → Counter) (argv : List Bytes) : (Bytes → Counter) × Bytes :=
  match parseDouble (arg argv 2) with
  | none => (cs, errNotFloat)
  | some delta =>
    let r := (cs (arg argv 1)).add delta
    (Function.update cs (arg argv 1) r.1, r.2)

end Counter

/-- The counter under a key: no key counts as zero. -/
def counterOf : Option Object → Counter
  | none => .number .zero
  | some (.string s) => match parseDouble s with
    | some v => .number v
    | none => .unreadable
  | some _ => .otherType

def countersOf (db : Keyspace) (k : Bytes) : Counter := counterOf (db.dict.find k)

/-- What the text of a sum is read as. -/
theorem counterOf_sum (v w : Double) :
    counterOf (some (.string (doubleToString (v.add w)))) = Counter.keep (v.add w) := by
  unfold counterOf Counter.keep
  dsimp only
  cases hnan : (v.add w).isNaN with
  | true =>
    have hmag : ¬(0 < (v.add w).mag ∧ (v.add w).mag < 2 ^ 52) := by
      rw [Binary64.add_eq_nan hnan]
      decide
    rw [parse_nan hnan, if_neg hmag, Binary64.add_eq_nan hnan]
  | false =>
    rw [parse_number hnan]
    by_cases hsub : 0 < (v.add w).mag ∧ (v.add w).mag < 2 ^ 52
    · rw [if_pos hsub, if_pos hsub]
    · rw [if_neg hsub, if_neg hsub]

theorem counters_set (db : Keyspace) (k s : Bytes) :
    countersOf (db.set k (.string s)) = Function.update (countersOf db) k (counterOf (some (.string s))) := by
  funext k'
  unfold countersOf
  rw [find_dict_set, Function.update_apply]
  split_ifs <;> rfl

theorem incrbyfloat_step {db : Keyspace} (h : Bare db) (env : Env) (argv : List Bytes) :
    (Cmd.incrbyfloat env argv db).reply = (Counter.incrbyfloat (countersOf db) argv).2 ∧
      Bare (Cmd.incrbyfloat env argv db).db ∧
        countersOf (Cmd.incrbyfloat env argv db).db = (Counter.incrbyfloat (countersOf db) argv).1 := by
  unfold Cmd.incrbyfloat Counter.incrbyfloat
  cases hdelta : parseDouble (arg argv 2) with
  | none => exact ⟨rfl, h, rfl⟩
  | some delta =>
    dsimp only
    rw [Cmd.getString, h.getAs]
    have hkept : ∀ c : Counter, countersOf db (arg argv 1) = c →
        Function.update (countersOf db) (arg argv 1) c = countersOf db :=
      fun c hc => hc ▸ Function.update_eq_self (arg argv 1) (countersOf db)
    have hsum : ∀ cur : Double, Bare (db.set (arg argv 1) (.string (doubleToString (cur.add delta)))) ∧
        countersOf (db.set (arg argv 1) (.string (doubleToString (cur.add delta)))) =
          Function.update (countersOf db) (arg argv 1) (Counter.keep (cur.add delta)) := fun cur =>
      ⟨h.set _ (by simp [Object.type]), (counters_set db _ _).trans (by rw [counterOf_sum])⟩
    cases ho : db.dict.find (arg argv 1) with
    | none =>
      have hc : countersOf db (arg argv 1) = .number .zero := by rw [countersOf, ho]; rfl
      rw [hc]
      exact ⟨rfl, hsum .zero⟩
    | some o =>
      have hc : countersOf db (arg argv 1) = counterOf (some o) := by rw [countersOf, ho]
      cases hs : o.string? with
      | none =>
        have hother : counterOf (some o) = .otherType := by cases o <;> simp_all [counterOf, Object.string?]
        rw [hother] at hc
        rw [hc, found, hs]
        exact ⟨rfl, h, (hkept _ hc).symm⟩
      | some s =>
        obtain rfl : o = .string s := by cases o <;> simp_all [Object.string?]
        cases hcur : parseDouble s with
        | none =>
          have hnone : countersOf db (arg argv 1) = .unreadable := by rw [hc, counterOf, hcur]
          rw [hnone, found, hs]
          dsimp only
          rw [hcur]
          exact ⟨rfl, h, (hkept _ hnone).symm⟩
        | some cur =>
          have hsome : countersOf db (arg argv 1) = .number cur := by rw [hc, counterOf, hcur]
          rw [hsome, found, hs]
          dsimp only
          rw [hcur]
          exact ⟨rfl, hsum cur⟩

/-- An `INCRBYFLOAT` with its two arguments. -/
def AddsFloat (argv : List Bytes) : Prop := lowercase (cmdName argv) = ascii "incrbyfloat" ∧ argv.length = 3

theorem execStep_incrbyfloat {argv : List Bytes} (h : AddsFloat argv) (env : Env) (db : Keyspace) :
    execStep db (env, argv) = ((Cmd.incrbyfloat env argv db).db, (Cmd.incrbyfloat env argv db).reply) := by
  have hfind : CommandTable.find (ascii "incrbyfloat") =
      some ⟨ascii "incrbyfloat", Cmd.incrbyfloat, 3, true, 1, 1, 1⟩ := rfl
  have hr : route argv = .ok ⟨ascii "incrbyfloat", Cmd.incrbyfloat, 3, true, 1, 1, 1⟩ := by
    rw [route, h.1, hfind]
    simp [arityOk, h.2]
  simp [execStep, execCore, hr]

/-- Counters kept as text answer like counters kept as doubles. -/
theorem float_counters {db : Keyspace} (h : Bare db) {cmds : List (Env × List Bytes)}
    (hcmds : ∀ c ∈ cmds, AddsFloat c.2) :
    (runTotal execStep db cmds).2 =
        (runTotal (fun cs c => Counter.incrbyfloat cs c.2) (countersOf db) cmds).2 ∧
      countersOf (runTotal execStep db cmds).1 =
        (runTotal (fun cs c => Counter.incrbyfloat cs c.2) (countersOf db) cmds).1 := by
  have hstep : ∀ db cs c, c ∈ cmds → Bare db ∧ countersOf db = cs →
      (execStep db c).2 = (Counter.incrbyfloat cs c.2).2 ∧
        Bare (execStep db c).1 ∧ countersOf (execStep db c).1 = (Counter.incrbyfloat cs c.2).1 := by
    intro db cs c hc hR
    obtain ⟨hbare, rfl⟩ := hR
    rw [execStep_incrbyfloat (hcmds c hc)]
    exact incrbyfloat_step hbare c.1 c.2
  have hrun := runTotal_refines hstep ⟨h, rfl⟩
  exact ⟨hrun.1, hrun.2.2⟩

/-- A tenth and two tenths, added to nothing. -/
def tenths : List (Env × List Bytes) :=
  [(.quiet 0, [ascii "INCRBYFLOAT", ascii "k", ascii "0.1"]),
    (.quiet 1, [ascii "incrbyfloat", ascii "k", ascii "0.2"])]

theorem float_counters_tenths :
    (runTotal execStep .empty tenths).2 =
      [Reply.bulk (ascii "0.10000000000000001"), Reply.bulk (ascii "0.30000000000000004")] := by
  have hempty : Bare Keyspace.empty := ⟨fun k => by simp [Keyspace.empty], all_empty⟩
  have hcmds : ∀ c ∈ tenths, AddsFloat c.2 := by
    unfold tenths AddsFloat
    decide
  rw [(float_counters hempty hcmds).1]
  decide +kernel

end BlazeKV
