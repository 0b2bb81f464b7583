import BlazeKV.Proofs.InOrder
import BlazeKV.Proofs.ZSetAgree
import BlazeKV.Spec.AbstractStore

/-! A keyspace as an abstract store, and what it is for a handler to do what its command is for. -/

namespace BlazeKV

open Keyspace Abstract

/-- The members of a table of members. -/
def members (s : Dict UInt8) : Finset Bytes := (s.forEach.map Prod.fst).toFinset

theorem mem_members {s : Dict UInt8} {m : Bytes} : m ∈ members s ↔ (s.find m).isSome := by
  rw [members, List.mem_toFinset, List.mem_map, Option.isSome_iff_exists]
  constructor
  · rintro ⟨e, he, rfl⟩
    exact ⟨e.2, (Dict.mem_forEach _ _ _).1 he⟩
  · rintro ⟨v, hv⟩
    exact ⟨(m, v), (Dict.mem_forEach _ _ _).2 hv, rfl⟩

theorem card_members (s : Dict UInt8) : (members s).card = s.size := by
  rw [members, List.toFinset_card_of_nodup (Dict.forEach_nodup s), List.length_map, Dict.forEach_length]

/-- What a value is. -/
def valueOf : Object → Value
  | .string s => .string s
  | .list l => .list l
  | .set s => .set (members s)
  | .hash h => .hash h.find
  | .zset z => .zset z.dict.find (z.Coherent ∧ z.size < 2 ^ 32)
  | .hll s => .other (.hll s)

def cellOf (e : Option Entry) : Cell := e.map fun e => (valueOf e.1, e.2)

/-- A keyspace as a store, at a clock reading. -/
def holdings (now : ℕ) (db : Keyspace) : Holdings := fun k => cellOf (db.live now k)

/-- No list, set or hash is empty. -/
def Object.Filled (o : Object) : Prop := o.NonEmpty ∨ o.type = .zset

/-! What a handler leaves under its key. -/

section Leaves

variable {now : ℕ} {key : Bytes} {db db' : Keyspace} {e : Option Entry} {x : Option Object} {o : Object}

/-- The key has the entry `e`; nothing else has changed. -/
def Becomes (now : ℕ) (key : Bytes) (db db' : Keyspace) (e : Option Entry) : Prop :=
  ∀ k, db'.live now k = if k = key then e else db.live now k

/-- The key has the value `x`, with its deadline if it had a value. -/
def Leaves (now : ℕ) (key : Bytes) (db db' : Keyspace) (x : Option Object) : Prop :=
  Becomes now key db db' (x.map fun o => (o, (db.live now key).bind Prod.snd))

theorem becomes_same : Becomes now key db db (db.live now key) := by
  intro k
  split_ifs with hk
  · rw [hk]
  · rfl

theorem Becomes.lookup (h : Becomes now key db db' e) : Becomes now key db (db'.lookup now key).1 e := by
  intro k
  rw [live_lookup]
  exact h k

theorem Becomes.set (h : Becomes now key db db' e) (o : Object) :
    Becomes now key db (db'.set key o) (some (o, none)) := by
  intro k
  rw [live_set]
  split_ifs with hk
  · rfl
  · rw [h k, if_neg hk]

theorem Becomes.erase (h : Becomes now key db db' e) : Becomes now key db (db'.erase key) none := by
  intro k
  rw [live_erase]
  split_ifs with hk
  · rfl
  · rw [h k, if_neg hk]

theorem leaves_same : Leaves now key db db (db.peek now key) := by
  have hpeek : (db.peek now key).map (fun o => (o, (db.live now key).bind Prod.snd)) = db.live now key := by
    unfold live
    cases db.peek now key <;> rfl
  unfold Leaves
  rw [hpeek]
  exact becomes_same

theorem leaves_lookup : Leaves now key db (db.lookup now key).1 (db.peek now key) := leaves_same.lookup

theorem Leaves.write (h : Leaves now key db db' (some o)) (o' : Object) :
    Leaves now key db (db'.write key o') (some o') := by
  intro k
  rw [live_write]
  split_ifs with hk
  · rw [h key, if_pos rfl]
    rfl
  · rw [h k, if_neg hk]

theorem Leaves.erase (h : Leaves now key db db' x) : Leaves now key db (db'.erase key) none := Becomes.erase h

/-- A new key has no deadline. -/
theorem leaves_set (h : db.peek now key = none) (o : Object) :
    Leaves now key db ((db.lookup now key).1.set key o) (some o) := by
  have hlive : db.live now key = none := by rw [live, h]; rfl
  have hsame : Becomes now key db db _ := becomes_same
  have hset := hsame.lookup.set o
  unfold Leaves
  rw [hlive]
  exact hset

end Leaves

/-! A handler does what its command is for. -/

/-- The handler leaves and replies what the command may. -/
def Performs (E : Effect) (env : Env) (argv : List Bytes) (db : Keyspace) (r : Result) : Prop :=
  ∃ e, Becomes env.now (arg argv 1) db r.db e ∧
    E env.now (cellOf (db.live env.now (arg argv 1))) (cellOf e) r.reply

section Effects

variable {env : Env} {argv : List Bytes} {db : Keyspace}

theorem performs_keeping {f : Option Value → Option Value → Bytes → Prop} {r : Result} {x : Option Object}
    (hl : Leaves env.now (arg argv 1) db r.db x)
    (hf : f ((db.peek env.now (arg argv 1)).map valueOf) (x.map valueOf) r.reply) :
    Performs (keeping f) env argv db r := by
  refine ⟨_, hl, x.map valueOf, ?_, ?_⟩
  · have hpeek : (cellOf (db.live env.now (arg argv 1))).map Prod.fst =
      (db.peek env.now (arg argv 1)).map valueOf := by
      unfold live cellOf
      cases db.peek env.now (arg argv 1) <;> rfl
    rw [hpeek]
    exact hf
  · unfold cellOf
    cases x <;> cases db.live env.now (arg argv 1) <;> rfl

theorem performs_refused {error : Bytes} : Performs (refused error) env argv db (.clean db error) :=
  performs_keeping leaves_same ⟨rfl, rfl⟩

end Effects

end BlazeKV
