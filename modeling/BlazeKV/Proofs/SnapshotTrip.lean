import BlazeKV.Proofs.LiveView
import BlazeKV.Spec.Registry
import BlazeKV.Spec.Snapshot
import BlazeKV.Lib.Machine

/-! What `save` has written, `load` reads back. -/

namespace BlazeKV

open Keyspace

namespace Snapshot

@[simp] theorem leBytes_length (w n : ℕ) : (leBytes w n).length = w := by
  induction w generalizing n with
  | zero => rfl
  | succ w ih => rw [leBytes, List.length_cons, ih]

theorem leNat_leBytes (w n : ℕ) : leNat (leBytes w n) = n % 256 ^ w := by
  induction w generalizing n with
  | zero => simp [leBytes, leNat, Nat.mod_one]
  | succ w ih =>
    rw [leBytes, leNat, ih, UInt8.toNat_ofNat', pow_succ' 256 w]
    exact (Nat.mod_mul ..).symm

theorem getBytes_append (a s : Bytes) : getBytes a.length (a ++ s) = some (a, s) := by
  simp [getBytes]

theorem getNat_leBytes_mod (w n : ℕ) (s : Bytes) : getNat w (leBytes w n ++ s) = some (n % 256 ^ w, s) := by
  have := getBytes_append (leBytes w n) s
  rw [leBytes_length] at this
  rw [getNat, this, Option.map_some, leNat_leBytes]

theorem getNat_leBytes {w n : ℕ} (h : n < 256 ^ w) (s : Bytes) : getNat w (leBytes w n ++ s) = some (n, s) := by
  rw [getNat_leBytes_mod, Nat.mod_eq_of_lt h]

theorem getNat_four {n : ℕ} (h : n < 2 ^ 32) (s : Bytes) : getNat 4 (leBytes 4 n ++ s) = some (n, s) :=
  getNat_leBytes h s

theorem getStr_putStr {x : Bytes} (h : x.length ≤ 2 ^ 30) (s : Bytes) : getStr (putStr x ++ s) = some (x, s) := by
  rw [getStr, putStr, List.append_assoc, getNat_leBytes (by omega), Option.bind_some]
  dsimp only
  rw [if_neg (by omega), getBytes_append]

/-- The run lemma of a reading loop. -/
theorem getMany_flatMap {σ α : Type} (item : σ → Bytes → Option (σ × Bytes)) (enc : α → Bytes) (step : σ → α → σ)
    (xs : List α) (h : ∀ x ∈ xs, ∀ acc s, item acc (enc x ++ s) = some (step acc x, s)) (acc : σ) (s : Bytes) :
    getMany item xs.length acc (xs.flatMap enc ++ s) = some (xs.foldl step acc, s) := by
  induction xs generalizing acc with
  | nil => rfl
  | cons x xs ih =>
    rw [List.flatMap_cons, List.append_assoc, List.length_cons, getMany, h x List.mem_cons_self, Option.bind_some]
    exact ih (fun y hy => h y (List.mem_cons_of_mem _ hy)) _

/-- A string that a load accepts. -/
abbrev FitsStr (s : Bytes) : Prop := s.length ≤ 2 ^ 30

/-- Strings that a load accepts, in a container whose size a snapshot can tell. -/
def Fits : Object → Prop
  | .string s => FitsStr s
  | .hll s => FitsStr s
  | .list l => l.length < 2 ^ 32 ∧ ∀ x ∈ l, FitsStr x
  | .hash h => h.size < 2 ^ 32 ∧ ∀ k v, h.find k = some v → FitsStr k ∧ FitsStr v
  | .set s => s.size < 2 ^ 32 ∧ ∀ k v, s.find k = some v → FitsStr k
  | .zset z => z.size < 2 ^ 32 ∧ ∀ k v, z.dict.find k = some v → FitsStr k

/-- The run lemma of a loop over entries with distinct keys, each of which settles what is
seen of its own key. -/
theorem foldl_view {σ ν β : Type} {view : σ → Bytes → ν} {step : σ → Bytes × β → σ} {F : Bytes × β → ν} {fresh : ν}
    (hother : ∀ acc e k, k ≠ e.1 → view (step acc e) k = view acc k)
    (hown : ∀ acc e, view acc e.1 = fresh → view (step acc e) e.1 = F e) (es : List (Bytes × β))
    (hn : (es.map Prod.fst).Nodup) (acc : σ) (h0 : ∀ e ∈ es, view acc e.1 = fresh) :
    (∀ e ∈ es, view (es.foldl step acc) e.1 = F e) ∧
      ∀ k, k ∉ es.map Prod.fst → view (es.foldl step acc) k = view acc k := by
  induction es generalizing acc with
  | nil => exact ⟨fun e he => absurd he List.not_mem_nil, fun _ _ => rfl⟩
  | cons e es ih =>
    rw [List.map_cons, List.nodup_cons] at hn
    have hne : ∀ e' ∈ es, e'.1 ≠ e.1 := fun e' he h => hn.1 (h ▸ List.mem_map_of_mem he)
    obtain ⟨ih1, ih2⟩ := ih hn.2 (step acc e) fun e' he => by
      rw [hother _ _ _ (hne e' he), h0 e' (List.mem_cons_of_mem _ he)]
    refine ⟨fun e' he => ?_, fun k hk => ?_⟩
    · rcases List.mem_cons.1 he with rfl | he
      · rw [List.foldl_cons, ih2 _ hn.1, hown _ _ (h0 _ List.mem_cons_self)]
      · exact ih1 e' he
    · rw [List.map_cons, List.mem_cons, not_or] at hk
      rw [List.foldl_cons, ih2 k hk.2, hother _ _ _ hk.1]

/-- The same loop over a table. -/
theorem foldl_forEach {σ ν β : Type} [Inhabited β] (view : σ → Bytes → ν) (step : σ → Bytes × β → σ)
    (F : Bytes × β → ν) (fresh : ν) (hother : ∀ acc e k, k ≠ e.1 → view (step acc e) k = view acc k)
    (hown : ∀ acc e, view acc e.1 = fresh → view (step acc e) e.1 = F e) (d : Dict β) (acc : σ)
    (h0 : ∀ k, view acc k = fresh) (k : Bytes) :
    view (d.forEach.foldl step acc) k = ((d.find k).map fun v => F (k, v)).getD fresh := by
  obtain ⟨h1, h2⟩ := foldl_view hother hown d.forEach d.forEach_nodup acc fun e _ => h0 e.1
  cases hk : d.find k with
  | none =>
    refine (h2 k fun hm => ?_).trans (h0 k)
    obtain ⟨e, he, rfl⟩ := List.mem_map.1 hm
    rw [(Dict.mem_forEach _ _ _).1 he] at hk
    cases hk
  | some v => exact h1 (k, v) ((Dict.mem_forEach _ _ _).2 hk)

/-- What `read_object` makes of a value that `write_object` has written. -/
def rebuilt (levels : Levels) : Object → Object
  | .string s => .string s
  | .hll s => .string s
  | .list l => .list l
  | .hash h => .hash (h.forEach.foldl (fun t e => t.insert e.1 e.2) .empty)
  | .set s => .set (s.forEach.foldl (fun t e => t.insert e.1 1) .empty)
  | .zset z => .zset (z.dict.forEach.foldl (fun t e => (t.set levels e.1 e.2).1) .empty)

theorem readValue_writeValue (levels : Levels) {o : Object} (h : Fits o) (s : Bytes) :
    readValue levels o.type.code.toNat (writeValue o ++ s) = some (rebuilt levels o, s) := by
  cases o with
  | string x => simp [readValue, Object.type, ObjType.code, writeValue, getStr_putStr h, rebuilt]
  | hll x => simp [readValue, Object.type, ObjType.code, writeValue, getStr_putStr h, rebuilt]
  | list l =>
    have hloop : ∀ l acc : List Bytes, l.foldl (fun l x => l ++ [x]) acc = acc ++ l := fun l => by
      induction l with
      | nil => simp
      | cons x l ih => simp [ih]
    have hmany := getMany_flatMap listItem putStr (fun l x => l ++ [x]) l
      (fun x hx acc s => by simp [listItem, getStr_putStr (h.2 x hx)]) [] s
    rw [hloop] at hmany
    simp [readValue, Object.type, ObjType.code, writeValue, getNat_four h.1, hmany, rebuilt]
  | hash d =>
    have hmany := getMany_flatMap hashItem (fun e => putStr e.1 ++ putStr e.2)
      (fun t e => t.insert e.1 e.2) (d.forEach) (fun e he acc s => by
        obtain ⟨hk, hv⟩ := h.2 e.1 e.2 ((Dict.mem_forEach _ _ _).1 he)
        simp [hashItem, getStr_putStr hk, getStr_putStr hv]) .empty s
    rw [Dict.forEach_length] at hmany
    simp [readValue, Object.type, ObjType.code, writeValue, getNat_four h.1, hmany, rebuilt]
  | set d =>
    have hmany := getMany_flatMap setItem (fun e => putStr e.1)
      (fun t e => t.insert e.1 1) (d.forEach) (fun e he acc s => by
        simp [setItem, getStr_putStr (h.2 e.1 e.2 ((Dict.mem_forEach _ _ _).1 he))]) .empty s
    rw [Dict.forEach_length] at hmany
    simp [readValue, Object.type, ObjType.code, writeValue, getNat_four h.1, hmany, rebuilt]
  | zset z =>
    have hmany := getMany_flatMap (zsetItem levels) (fun e => putStr e.1 ++ leBytes 8 e.2.bits.toNat)
      (fun t e => (t.set levels e.1 e.2).1) (z.dict.forEach) (fun e he acc s => by
        have hbits : e.2.bits.toNat < 256 ^ 8 := e.2.bits.toNat_lt
        simp [zsetItem, getStr_putStr (h.2 e.1 e.2 ((Dict.mem_forEach _ _ _).1 he)), getNat_leBytes hbits]) .empty s
    have hsize : z.dict.size < 2 ^ 32 := h.1
    rw [Dict.forEach_length] at hmany
    simp [readValue, Object.type, ObjType.code, writeValue, getNat_four hsize, ZSet.size, hmany, rebuilt]

/-- A HyperLogLog comes back as a string, everything else as an equivalent value. -/
def Restored : Object → Object → Prop
  | .hll s, o => o = .string s
  | o, o' => o.Equiv o'

theorem restored_rebuilt (levels : Levels) (o : Object) : Restored o (rebuilt levels o) := by
  cases o with
  | string x => rfl
  | hll x => rfl
  | list l => rfl
  | hash d =>
    intro k
    have := foldl_forEach (Dict.find) (fun t e => t.insert e.1 e.2) (fun e => some e.2)
      none (fun acc e k hk => by simp [hk]) (fun acc e _ => by simp) d .empty (fun k => by simp) k
    rw [this]
    cases d.find k <;> rfl
  | set d =>
    intro k
    have := foldl_forEach (Dict.find) (fun t e => t.insert e.1 (1 : UInt8)) (fun _ => some 1)
      none (fun acc e k hk => by simp [hk]) (fun acc e _ => by simp) d .empty (fun k => by simp) k
    rw [this]
    cases d.find k <;> rfl
  | zset z =>
    intro k
    have := foldl_forEach (fun t k => t.dict.find k) (fun t e => (ZSet.set t levels e.1 e.2).1)
      (fun e => some e.2) none (fun acc e k hk => by
        unfold ZSet.set
        split
        · split_ifs <;> simp [hk]
        · simp [hk]) (fun acc e hno => by
        rw [ZSet.set, hno]
        simp) z.dict .empty (fun k => by simp [ZSet.empty]) k
    rw [this]
    cases z.dict.find k <;> rfl

/-- A keyspace whose snapshot tells the lengths and the deadlines in full: strings that a
load accepts, counts of 32 and 64 bits. -/
structure Fitting (db : Keyspace) : Prop where
  size : db.size < 2 ^ 64
  key : ∀ k o, db.dict.find k = some o → FitsStr k
  value : ∀ k o, db.dict.find k = some o → Fits o
  deadline : ∀ k d, db.expires.find k = some d → d < 2 ^ 64

variable (now : ℕ) (levels : Bytes → Levels) {db : Keyspace}

/-- The run lemma of `load`, with deadlines of any size. -/
theorem load_written (hsize : db.size < 2 ^ 64) (hkey : ∀ k o, db.dict.find k = some o → FitsStr k)
    (hvalue : ∀ k o, db.dict.find k = some o → Fits o) : load now levels (save db) .empty = some (db.forEach.foldl
    (fun acc e => restore now acc e.1 (db.deadlineOrZero e.1 % 256 ^ 8) (rebuilt (levels e.1) e.2)) .empty) := by
  have hmany := getMany_flatMap (readObject now levels)
    (fun e => writeObject e.1 (db.deadlineOrZero e.1) e.2)
    (fun acc e => restore now acc e.1 (db.deadlineOrZero e.1 % 256 ^ 8) (rebuilt (levels e.1) e.2)) (db.forEach)
    (fun e he acc s => by
      have hfind := (Dict.mem_forEach _ _ _).1 he
      have htype : getNat 1 (e.2.type.code :: (putStr e.1 ++ (leBytes 8 (db.deadlineOrZero e.1) ++ (writeValue e.2 ++ s)))) =
          some (e.2.type.code.toNat, putStr e.1 ++ (leBytes 8 (db.deadlineOrZero e.1) ++ (writeValue e.2 ++ s))) := by
        simp [getNat, getBytes, leNat]
      simp only [readObject, writeObject, List.cons_append, List.append_assoc, htype, Option.bind_some,
        getStr_putStr (hkey _ _ hfind), getNat_leBytes_mod, readValue_writeValue _ (hvalue _ _ hfind),
        Option.map_some]) .empty []
  have hlen : db.forEach.length = db.size := db.dict.forEach_length
  rw [hlen, List.append_nil] at hmany
  have hmagic := getBytes_append kMagic (leBytes 8 db.size ++
    db.forEach.flatMap fun e => writeObject e.1 (db.deadlineOrZero e.1) e.2)
  have hm : kMagic.length = 8 := by decide
  rw [hm] at hmagic
  rw [load, save, hmagic, Option.bind_some, if_neg (by simp), getNat_leBytes hsize, Option.bind_some, hmany]
  rfl

theorem load_save (h : Fitting db) : load now levels (save db) .empty = some (db.forEach.foldl
    (fun acc e => restore now acc e.1 (db.deadlineOrZero e.1) (rebuilt (levels e.1) e.2)) .empty) := by
  have hdl : ∀ k, db.deadlineOrZero k % 256 ^ 8 = db.deadlineOrZero k := by
    intro k
    refine Nat.mod_eq_of_lt ?_
    unfold deadlineOrZero
    cases hd : db.expires.find k with
    | none => decide
    | some d => exact h.deadline _ _ hd
  rw [load_written now levels h.size h.key h.value]
  simp only [hdl]

/-- What a load has made of one entry. -/
def loadedEntry (e : Bytes × Object) (dl : ℕ) : Option Object × Option ℕ :=
  if dl ≠ 0 ∧ dl ≤ now then (none, none)
  else (some (rebuilt (levels e.1) e.2), if dl ≠ 0 then some dl else none)

variable (db) in
theorem loaded_find (k : Bytes) :
    let db' := db.forEach.foldl
      (fun acc e => restore now acc e.1 (db.deadlineOrZero e.1) (rebuilt (levels e.1) e.2)) .empty
    (db'.dict.find k, db'.expires.find k) =
      ((db.dict.find k).map fun o => loadedEntry now levels (k, o) (db.deadlineOrZero k)).getD (none, none) := by
  refine foldl_forEach (fun (d : Keyspace) k => (d.dict.find k, d.expires.find k))
    (fun acc e => restore now acc e.1 (db.deadlineOrZero e.1) (rebuilt (levels e.1) e.2))
    (fun e => loadedEntry now levels e (db.deadlineOrZero e.1)) (none, none) (fun acc e k hk => ?_)
    (fun acc e hno => ?_) db.dict .empty (fun k => by simp [Keyspace.empty]) k
  · unfold restore
    split_ifs <;> simp [hk]
  · unfold restore loadedEntry
    split_ifs
    · exact hno
    · simp
    · simp

/-- What the snapshot of a keyspace restores at a load: the live entries, and no other key. -/
def RestoresAt (db : Keyspace) : Prop := ∃ db', load now levels (save db) .empty = some db' ∧
  ∀ k, match db.live now k with
    | none => db'.dict.find k = none
    | some (o, d) => ∃ o', db'.dict.find k = some o' ∧ Restored o o' ∧ db'.expires.find k = d

/-- A snapshot restores what is live just when no key has the deadline zero, which
`read_object` takes for none. -/
theorem snapshot_restores_iff (h : Fitting db) : RestoresAt now levels db ↔
    ∀ k o, db.dict.find k = some o → db.expires.find k ≠ some 0 := by
  unfold RestoresAt
  rw [load_save now levels h]
  constructor
  · rintro ⟨db', hload, hdb⟩ k o ho h0
    obtain rfl := Option.some.inj hload
    obtain ⟨hview, -⟩ := Prod.mk.inj (loaded_find now levels db k)
    have hk := hdb k
    rw [live_of_dead (by simp [dead, h0])] at hk
    rw [hk, ho] at hview
    simp [deadlineOrZero, h0, loadedEntry] at hview
  · intro hno
    refine ⟨_, rfl, fun k => ?_⟩
    obtain ⟨hdict, hexp⟩ := Prod.mk.inj (loaded_find now levels db k)
    rw [hdict, hexp]
    cases ho : db.dict.find k with
    | none => simp [live_of_none ho]
    | some o =>
      cases hd : db.expires.find k with
      | none => simp [live, peek, dead, ho, hd, deadlineOrZero, loadedEntry, restored_rebuilt]
      | some d =>
        have h0 : d ≠ 0 := fun h => hno k o ho (h ▸ hd)
        by_cases hle : d ≤ now
        · rw [live_of_dead (by simp [dead, hd, hle])]
          simp [deadlineOrZero, hd, loadedEntry, h0, hle]
        · have hlive : db.live now k = some (o, some d) := by simp [live, peek, dead, ho, hd, hle]
          rw [hlive]
          simp [deadlineOrZero, hd, loadedEntry, h0, hle, restored_rebuilt]

/-- A keyspace with one string in it. -/
theorem fitting_one (key x : Bytes) (hd : db.forEach.map (fun e => (e.1, e.2.string?)) = [(key, some x)])
    (he : ∀ e ∈ db.expires.forEach, e.2 < 2 ^ 64) (hk : FitsStr key) (hx : FitsStr x) : Fitting db := by
  have hmem : ∀ k o, db.dict.find k = some o → k = key ∧ o.string? = some x := fun k o h => by
    have := List.mem_map_of_mem (f := fun e => (e.1, e.2.string?)) ((Dict.mem_forEach _ _ _).2 h)
    rw [show db.dict.forEach.map (fun e => (e.1, e.2.string?)) = _ from hd, List.mem_singleton] at this
    exact Prod.mk.inj this
  refine ⟨?_, fun k o h => ?_, fun k o h => ?_, fun k d h => he (k, d) ((Dict.mem_forEach _ _ _).2 h)⟩
  · have hlen := congrArg List.length hd
    rw [List.length_map, show db.forEach.length = db.size from db.dict.forEach_length] at hlen
    rw [hlen, List.length_singleton]
    decide
  · rw [(hmem k o h).1]
    exact hk
  · have ho := (hmem k o h).2
    cases o with
    | string s =>
      obtain rfl := Option.some.inj ho
      exact hx
    | _ => cases ho

theorem snapshot_restores_one : RestoresAt 5 (fun _ _ => ⟨0, by decide⟩) (.set .empty [97] (.string [120])) :=
  (snapshot_restores_iff 5 (fun _ _ => ⟨0, by decide⟩)
    (fitting_one [97] [120] (by decide +kernel) (by decide +kernel) (by decide) (by decide))).2
    fun k o _ => by simp [Keyspace.empty]

/-- `SET a x`, then `EXPIREAT a 0`: a load finds `a` without a deadline. -/
theorem epoch_deadline_lost : ¬ ∀ (cmds : List (Env × List Bytes)) (now : ℕ) (levels : Bytes → Levels),
    (∀ c ∈ cmds, c.1.now ≤ now) → Fitting (Lib.runTotal execStep .empty cmds).1 →
      RestoresAt now levels (Lib.runTotal execStep .empty cmds).1 := by
  intro h
  obtain ⟨db', hload, hdb⟩ := h [(.quiet 7, [ascii "SET", [97], [120]]), (.quiet 8, [ascii "EXPIREAT", [97], ascii "0"])]
    9 (fun _ _ => ⟨0, by decide⟩) (by decide)
    (fitting_one [97] [120] (by decide +kernel) (by decide +kernel) (by decide) (by decide))
  have hfound : ((load 9 (fun _ _ => ⟨0, by decide⟩) (save (Lib.runTotal execStep .empty
      [(.quiet 7, [ascii "SET", [97], [120]]), (.quiet 8, [ascii "EXPIREAT", [97], ascii "0"])]).1)
        .empty).map fun d => (d.dict.find [97]).isSome) = some true := by
    decide +kernel
  have hdead : ((Lib.runTotal execStep .empty
      [(.quiet 7, [ascii "SET", [97], [120]]), (.quiet 8, [ascii "EXPIREAT", [97], ascii "0"])]).1.dead 9 [97]) := by
    decide +kernel
  have hk := hdb [97]
  rw [live_of_dead hdead] at hk
  rw [hload, Option.map_some, hk] at hfound
  exact absurd hfound (by decide)

end Snapshot

end BlazeKV
