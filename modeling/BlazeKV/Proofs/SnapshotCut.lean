import BlazeKV.Lib.Readers
import BlazeKV.Proofs.SnapshotTrip

/-! A snapshot that was cut is not loaded, as long as every length was written in full. -/

namespace BlazeKV.Snapshot

open Lib

/-! What follows does not matter to a read. -/

theorem extends_getBytes (n : ℕ) : Extends (getBytes n) := by
  intro s a r t h
  unfold getBytes at h ⊢
  split_ifs at h with hn
  obtain ⟨rfl, rfl⟩ := Prod.mk.inj (Option.some.inj h)
  have hn' : n ≤ (s ++ t).length := by
    rw [List.length_append]
    omega
  rw [if_pos hn', List.take_append_of_le_length hn, List.drop_append_of_le_length hn]

theorem extends_getNat (w : ℕ) : Extends (getNat w) := (extends_getBytes w).map leNat

/-- The bytes of a string whose length was read. -/
def strBody (n : ℕ) : Reader UInt8 Bytes := if n > 2 ^ 30 then Reader.fail else getBytes n

theorem getStr_eq : getStr = Reader.bind (getNat 4) strBody := by
  funext s
  rw [getStr, Reader.bind]
  congr 1
  funext r
  rw [strBody]
  split_ifs <;> rfl

theorem extends_getStr : Extends getStr := by
  rw [getStr_eq]
  refine (extends_getNat 4).bind fun n => ?_
  unfold strBody
  split_ifs
  · exact extends_fail
  · exact extends_getBytes n

theorem extends_getMany {σ : Type} {item : σ → Bytes → Option (σ × Bytes)} (h : ∀ acc, Extends (item acc)) (n : ℕ)
    (acc : σ) : Extends (getMany item n acc) := by
  induction n generalizing acc with
  | zero =>
    intro s a r t hr
    obtain ⟨rfl, rfl⟩ := Prod.mk.inj (Option.some.inj hr)
    rfl
  | succ n ih => exact (h acc).bind ih

/-- A loop over the items of a container, behind their number. -/
def counted {σ : Type} (item : σ → Bytes → Option (σ × Bytes)) (acc : σ) (make : σ → Object) : Reader UInt8 Object :=
  Reader.bind (getNat 4) fun n => Reader.map make (getMany item n acc)

theorem readValue_eq (levels : Levels) (type : ℕ) : readValue levels type =
    if type = 0 ∨ type = 5 then Reader.map Object.string getStr
    else if type = 1 then counted listItem [] Object.list
    else if type = 2 then counted hashItem .empty Object.hash
    else if type = 3 then counted setItem .empty Object.set
    else if type = 4 then counted (zsetItem levels) .empty Object.zset
    else Reader.fail := by
  funext s
  unfold readValue
  split_ifs <;> rfl

theorem listItem_eq (l : List Bytes) : listItem l = Reader.map (fun x => l ++ [x]) getStr := rfl

theorem hashItem_eq (t : Dict Bytes) :
    hashItem t = Reader.bind getStr fun f => Reader.map (fun v => t.insert f v) getStr := rfl

theorem setItem_eq (t : Dict UInt8) : setItem t = Reader.map (fun x => t.insert x 1) getStr := rfl

theorem zsetItem_eq (levels : Levels) (z : ZSet) : zsetItem levels z =
    Reader.bind getStr fun m => Reader.map (fun d => (z.set levels m ⟨UInt64.ofNat d⟩).1) (getNat 8) := rfl

theorem extends_counted {σ : Type} {item : σ → Bytes → Option (σ × Bytes)} (h : ∀ acc, Extends (item acc)) (acc : σ)
    (make : σ → Object) : Extends (counted item acc make) :=
  (extends_getNat 4).bind fun n => (extends_getMany h n acc).map make

theorem extends_readValue (levels : Levels) (type : ℕ) : Extends (readValue levels type) := by
  rw [readValue_eq]
  split_ifs
  · exact extends_getStr.map Object.string
  · refine extends_counted (fun l => ?_) [] Object.list
    rw [listItem_eq]
    exact extends_getStr.map fun x => l ++ [x]
  · refine extends_counted (fun t => ?_) .empty Object.hash
    rw [hashItem_eq]
    exact extends_getStr.bind fun f => extends_getStr.map fun v => t.insert f v
  · refine extends_counted (fun t => ?_) .empty Object.set
    rw [setItem_eq]
    exact extends_getStr.map fun x => t.insert x 1
  · refine extends_counted (fun z => ?_) .empty Object.zset
    rw [zsetItem_eq]
    exact extends_getStr.bind fun m => (extends_getNat 8).map fun d => (z.set levels m ⟨UInt64.ofNat d⟩).1
  · exact extends_fail

variable (now : ℕ) (levels : Bytes → Levels)

theorem readObject_eq (db : Keyspace) : readObject now levels db =
    Reader.bind (getNat 1) fun type => Reader.bind getStr fun key => Reader.bind (getNat 8) fun deadline =>
      Reader.map (fun obj => restore now db key deadline obj) (readValue (levels key) type) := rfl

theorem extends_readObject (db : Keyspace) : Extends (readObject now levels db) := by
  rw [readObject_eq]
  refine (extends_getNat 1).bind fun type => extends_getStr.bind fun key => (extends_getNat 8).bind fun deadline => ?_
  exact (extends_readValue (levels key) type).map fun obj => restore now db key deadline obj

/-- `load`, with what it leaves unread. -/
def loadRest (db : Keyspace) : Reader UInt8 Keyspace :=
  Reader.bind (getBytes 8) fun magic => if magic ≠ kMagic then Reader.fail
    else Reader.bind (getNat 8) fun count => getMany (readObject now levels) count db

theorem load_eq (data : Bytes) (db : Keyspace) : load now levels data db = (loadRest now levels db data).map Prod.fst := by
  unfold load loadRest Reader.bind
  cases getBytes 8 data with
  | none => rfl
  | some magic =>
    simp only [Option.bind_some]
    split_ifs
    · rfl
    · dsimp only
      cases getNat 8 magic.2 <;> rfl

theorem extends_loadRest (db : Keyspace) : Extends (loadRest now levels db) := by
  refine (extends_getBytes 8).bind fun magic => ?_
  split_ifs
  · exact extends_fail
  · exact (extends_getNat 8).bind fun count => extends_getMany (extends_readObject now levels) count db

/-! A read of what was written fails or goes to its end. -/

theorem takes_getNat (w n : ℕ) : Takes (getNat w) (leBytes w n) := fun s => ⟨_, getNat_leBytes_mod w n s⟩

theorem covers_getStr {x : Bytes} (h : x.length < 2 ^ 32) : Covers getStr (putStr x) := by
  rw [getStr_eq]
  refine Covers.bind_value (getNat_four h) ?_
  unfold strBody
  split_ifs
  · exact covers_fail x
  · exact Takes.covers fun s => ⟨x, getBytes_append x s⟩

theorem covers_getMany {σ α : Type} {item : σ → Bytes → Option (σ × Bytes)} {enc : α → Bytes} {xs : List α}
    (h : ∀ x ∈ xs, ∀ acc, Covers (item acc) (enc x)) (acc : σ) : Covers (getMany item xs.length acc) (xs.flatMap enc) := by
  induction xs generalizing acc with
  | nil =>
    intro s a r hr
    exact (Prod.mk.inj (Option.some.inj hr)).2.symm
  | cons x xs ih =>
    exact (h x List.mem_cons_self acc).bind fun acc' => ih (fun y hy => h y (List.mem_cons_of_mem _ hy)) acc'

/-- A length that `Writer::str` writes in full. -/
abbrev MeasuredStr (s : Bytes) : Prop := s.length < 2 ^ 32

/-- Lengths and a size that are written in full. -/
def Measured : Object → Prop
  | .string s => MeasuredStr s
  | .hll s => MeasuredStr s
  | .list l => l.length < 2 ^ 32 ∧ ∀ x ∈ l, MeasuredStr x
  | .hash h => h.size < 2 ^ 32 ∧ ∀ k v, h.find k = some v → MeasuredStr k ∧ MeasuredStr v
  | .set s => s.size < 2 ^ 32 ∧ ∀ k v, s.find k = some v → MeasuredStr k
  | .zset z => z.size < 2 ^ 32 ∧ ∀ k v, z.dict.find k = some v → MeasuredStr k

theorem covers_counted {σ : Type} {item : σ → Bytes → Option (σ × Bytes)} {n : ℕ} {x : Bytes} {acc : σ}
    (make : σ → Object) (hn : n < 2 ^ 32) (hx : Covers (getMany item n acc) x) :
    Covers (counted item acc make) (leBytes 4 n ++ x) :=
  Covers.bind_value (getNat_four hn) (hx.map make)

theorem covers_readValue (l : Levels) {o : Object} (h : Measured o) :
    Covers (readValue l o.type.code.toNat) (writeValue o) := by
  cases o with
  | string x => exact (covers_getStr h).map Object.string
  | hll x => exact (covers_getStr h).map Object.string
  | list xs =>
    refine covers_counted Object.list h.1 (covers_getMany (fun x hx l => ?_) [])
    exact (covers_getStr (h.2 x hx)).map fun x => l ++ [x]
  | hash d =>
    have hitem : ∀ e ∈ d.forEach, ∀ t, Covers (hashItem t) (putStr e.1 ++ putStr e.2) := fun e he t => by
      obtain ⟨hk, hv⟩ := h.2 e.1 e.2 ((Dict.mem_forEach _ _ _).1 he)
      rw [hashItem_eq]
      exact (covers_getStr hk).bind fun f => (covers_getStr hv).map fun v => t.insert f v
    have hmany := covers_getMany hitem Dict.empty
    rw [Dict.forEach_length] at hmany
    exact covers_counted Object.hash h.1 hmany
  | set d =>
    have hitem : ∀ e ∈ d.forEach, ∀ t, Covers (setItem t) (putStr e.1) := fun e he t => by
      rw [setItem_eq]
      exact (covers_getStr (h.2 e.1 e.2 ((Dict.mem_forEach _ _ _).1 he))).map fun x => t.insert x 1
    have hmany := covers_getMany hitem Dict.empty
    rw [Dict.forEach_length] at hmany
    exact covers_counted Object.set h.1 hmany
  | zset z =>
    have hitem : ∀ e ∈ z.dict.forEach, ∀ t, Covers (zsetItem l t) (putStr e.1 ++ leBytes 8 e.2.bits.toNat) := fun e he t => by
      rw [zsetItem_eq]
      exact (covers_getStr (h.2 e.1 e.2 ((Dict.mem_forEach _ _ _).1 he))).bind fun m =>
        (takes_getNat 8 e.2.bits.toNat).covers.map fun d => (t.set l m ⟨UInt64.ofNat d⟩).1
    have hmany := covers_getMany hitem ZSet.empty
    rw [Dict.forEach_length] at hmany
    exact covers_counted Object.zset h.1 hmany

theorem covers_readObject (db : Keyspace) {key : Bytes} (hk : MeasuredStr key) (deadline : ℕ) {o : Object}
    (h : Measured o) : Covers (readObject now levels db) (writeObject key deadline o) := by
  have htype : ∀ s, getNat 1 ([o.type.code] ++ s) = some (o.type.code.toNat, s) := fun s => by
    simp [getNat, getBytes, leNat]
  rw [readObject_eq]
  refine Covers.bind_value (x := [o.type.code]) htype ?_
  refine (covers_getStr hk).bind fun key => (takes_getNat 8 deadline).covers.bind fun deadline => ?_
  exact (covers_readValue (levels key) h).map fun obj => restore now db key deadline obj

/-- A keyspace of which every length and every size is written in full. -/
structure AllMeasured (db : Keyspace) : Prop where
  size : db.size < 2 ^ 64
  key : ∀ k o, db.dict.find k = some o → MeasuredStr k
  value : ∀ k o, db.dict.find k = some o → Measured o

theorem covers_loadRest {db : Keyspace} (h : AllMeasured db) (into : Keyspace) :
    Covers (loadRest now levels into) (save db) := by
  have hlen : db.forEach.length = db.size := db.dict.forEach_length
  have hitem : ∀ e ∈ db.forEach, ∀ into,
      Covers (readObject now levels into) (writeObject e.1 (db.deadlineOrZero e.1) e.2) := fun e he into => by
    have hfind := (Dict.mem_forEach _ _ _).1 he
    exact covers_readObject now levels into (h.key _ _ hfind) _ (h.value _ _ hfind)
  have hmany := covers_getMany hitem into
  rw [hlen] at hmany
  have hmagic : ∀ s, getBytes 8 (kMagic ++ s) = some (kMagic, s) := getBytes_append kMagic
  refine Covers.bind_value hmagic ?_
  rw [if_neg (by simp)]
  exact Covers.bind_value (getNat_leBytes h.size) hmany

/-- A load of a proper prefix of a snapshot fails. -/
theorem cut_rejected {db : Keyspace} (h : AllMeasured db) {p : Bytes} (hp : p <+: save db) (hne : p ≠ save db)
    (into : Keyspace) : load now levels p into = none := by
  rw [load_eq, (covers_loadRest now levels h into).rejects (extends_loadRest now levels into) hp hne, Option.map_none]

theorem Fits.measured {o : Object} (h : Fits o) : Measured o := by
  have hlt : ∀ {s : Bytes}, FitsStr s → MeasuredStr s := fun {s} hs => lt_of_le_of_lt hs (by decide)
  cases o with
  | string s => exact hlt h
  | hll s => exact hlt h
  | list l => exact ⟨h.1, fun x hx => hlt (h.2 x hx)⟩
  | hash d => exact ⟨h.1, fun k v hk => ⟨hlt (h.2 k v hk).1, hlt (h.2 k v hk).2⟩⟩
  | set d => exact ⟨h.1, fun k v hk => hlt (h.2 k v hk)⟩
  | zset z => exact ⟨h.1, fun k v hk => hlt (h.2 k v hk)⟩

theorem Fitting.measured {db : Keyspace} (h : Fitting db) : AllMeasured db :=
  ⟨h.size, fun k o hk => lt_of_le_of_lt (h.key k o hk) (by decide), fun k o hk => (h.value k o hk).measured⟩

/-- The snapshot of `a` with the value `x`, without its last byte. -/
theorem cut_rejected_one : load 5 (fun _ _ => ⟨0, by decide⟩)
    ((save (.set .empty [97] (.string [120]))).take 34) .empty = none :=
  cut_rejected 5 (fun _ _ => ⟨0, by decide⟩) (Fitting.measured
    (fitting_one [97] [120] (by decide +kernel) (by decide +kernel) (by decide) (by decide)))
    (List.take_prefix _ _) (by decide +kernel) .empty

/-- The snapshot of one key. -/
theorem save_one (s : Bytes) : save (.set .empty [97] (.string s)) = kMagic ++ (leBytes 8 1 ++
    (0 :: (putStr [97] ++ (leBytes 8 0 ++ putStr s)))) := by
  have hentries : (Keyspace.set .empty [97] (.string s)).forEach = [([97], .string s)] := rfl
  have hsize : (Keyspace.set .empty [97] (.string s)).size = 1 := rfl
  have hdeadline : (Keyspace.set .empty [97] (.string s)).deadlineOrZero [97] = 0 := by
    simp [Keyspace.deadlineOrZero, Keyspace.empty]
  simp [save, hentries, hsize, hdeadline, writeObject, writeValue, Object.type, ObjType.code]

/-- A value of 2^32 bytes, of which the length is written as zero: without the bytes of the
value, the snapshot is loaded. -/
theorem cut_accepted : ¬ ∀ (db : Keyspace) (now : ℕ) (levels : Bytes → Levels) (p : Bytes) (into : Keyspace),
    p <+: save db → p ≠ save db → load now levels p into = none := by
  intro h
  have hsave : save (.set .empty [97] (.string (List.replicate (2 ^ 32) 120))) =
      (kMagic ++ (leBytes 8 1 ++ (0 :: (putStr [97] ++ (leBytes 8 0 ++ [0, 0, 0, 0]))))) ++ List.replicate (2 ^ 32) 120 := by
    have hlen : leBytes 4 (2 ^ 32) = [0, 0, 0, 0] := by decide
    rw [save_one, putStr, putStr, List.length_replicate, hlen]
    simp only [List.append_assoc, List.cons_append]
  have hload := h (.set .empty [97] (.string (List.replicate (2 ^ 32) 120))) 5 (fun _ _ => ⟨0, by decide⟩)
    (kMagic ++ (leBytes 8 1 ++ (0 :: (putStr [97] ++ (leBytes 8 0 ++ [0, 0, 0, 0]))))) .empty ?_ ?_
  · have hsome : (load 5 (fun _ _ => ⟨0, by decide⟩)
        (kMagic ++ (leBytes 8 1 ++ (0 :: (putStr [97] ++ (leBytes 8 0 ++ [0, 0, 0, 0]))))) .empty).isSome = true := by
      decide +kernel
    rw [hload] at hsome
    cases hsome
  · rw [hsave]
    exact List.prefix_append _ _
  · rw [hsave]
    intro heq
    have hnil := List.self_eq_append_right.1 heq
    rw [List.replicate_eq_nil_iff] at hnil
    exact absurd hnil (by decide)

end BlazeKV.Snapshot
