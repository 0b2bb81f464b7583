import BlazeKV.Proofs.SnapshotCut

/-! The limits of the writer and of the reader of a snapshot. -/

namespace BlazeKV.Snapshot

/-- The strings that `write_object` writes for a value. -/
def strings : Object → List Bytes
  | .string s => [s]
  | .hll s => [s]
  | .list l => l
  | .hash h => h.forEach.flatMap fun e => [e.1, e.2]
  | .set s => s.forEach.map Prod.fst
  | .zset z => z.dict.forEach.map Prod.fst

/-- The element counts that it writes. -/
def counts : Object → List ℕ
  | .string _ => []
  | .hll _ => []
  | .list l => [l.length]
  | .hash h => [h.size]
  | .set s => [s.size]
  | .zset z => [z.size]

/-- The reader reads every string and every count as it was written. -/
structure Agreed (db : Keyspace) : Prop where
  strings : ∀ e ∈ db.forEach, ∀ s ∈ e.1 :: strings e.2, ∀ rest, getStr (putStr s ++ rest) = some (s, rest)
  counts : ∀ e ∈ db.forEach, ∀ n ∈ counts e.2, ∀ rest, getNat 4 (leBytes 4 n ++ rest) = some (n, rest)
  size : ∀ rest, getNat 8 (leBytes 8 db.size ++ rest) = some (db.size, rest)

/-- What both sides can tell. -/
structure Acceptable (db : Keyspace) : Prop where
  strings : ∀ e ∈ db.forEach, ∀ s ∈ e.1 :: strings e.2, s.length ≤ 2 ^ 30
  counts : ∀ e ∈ db.forEach, ∀ n ∈ counts e.2, n < 2 ^ 32
  size : db.size < 2 ^ 64

theorem getStr_agrees_iff (s : Bytes) : (∀ rest, getStr (putStr s ++ rest) = some (s, rest)) ↔ s.length ≤ 2 ^ 30 := by
  refine ⟨fun h => ?_, fun h => getStr_putStr h⟩
  have h0 := h []
  rw [getStr, putStr, List.append_assoc, getNat_leBytes_mod, Option.bind_some] at h0
  dsimp only at h0
  split_ifs at h0 with hbig
  have hlen : (s ++ ([] : Bytes)).take (s.length % 256 ^ 4) = s := by
    rw [getBytes] at h0
    split_ifs at h0
    exact (Prod.mk.inj (Option.some.inj h0)).1
  have hle := List.length_take_le (s.length % 256 ^ 4) (s ++ ([] : Bytes))
  rw [hlen] at hle
  omega

theorem getNat_agrees_iff (w n : ℕ) : (∀ rest, getNat w (leBytes w n ++ rest) = some (n, rest)) ↔ n < 256 ^ w := by
  refine ⟨fun h => ?_, fun h => getNat_leBytes h⟩
  have h0 := h []
  rw [getNat_leBytes_mod] at h0
  have hmod := (Prod.mk.inj (Option.some.inj h0)).1
  rw [← hmod]
  exact Nat.mod_lt _ (by positivity)

theorem agreed_iff {db : Keyspace} : Agreed db ↔ Acceptable db := by
  constructor
  · intro h
    exact ⟨fun e he s hs => (getStr_agrees_iff s).1 (h.strings e he s hs),
      fun e he n hn => (getNat_agrees_iff 4 n).1 (h.counts e he n hn), (getNat_agrees_iff 8 _).1 h.size⟩
  · intro h
    exact ⟨fun e he s hs => (getStr_agrees_iff s).2 (h.strings e he s hs),
      fun e he n hn => (getNat_agrees_iff 4 n).2 (h.counts e he n hn), (getNat_agrees_iff 8 _).2 h.size⟩

theorem fits_of_acceptable {o : Object} (hs : ∀ s ∈ strings o, s.length ≤ 2 ^ 30) (hn : ∀ n ∈ counts o, n < 2 ^ 32) : Fits o := by
  cases o with
  | string s => exact hs s List.mem_cons_self
  | hll s => exact hs s List.mem_cons_self
  | list l => exact ⟨hn _ List.mem_cons_self, hs⟩
  | hash d =>
    refine ⟨hn _ List.mem_cons_self, fun k v hk => ?_⟩
    have hmem := (Dict.mem_forEach d k v).2 hk
    exact ⟨hs k (List.mem_flatMap.2 ⟨_, hmem, by simp⟩), hs v (List.mem_flatMap.2 ⟨_, hmem, by simp⟩)⟩
  | set d =>
    exact ⟨hn _ List.mem_cons_self, fun k v hk => hs k (List.mem_map_of_mem ((Dict.mem_forEach d k v).2 hk))⟩
  | zset z =>
    exact ⟨hn _ List.mem_cons_self, fun k v hk => hs k (List.mem_map_of_mem ((Dict.mem_forEach z.dict k v).2 hk))⟩

/-- A load of a snapshot succeeds, and reads what was written with the lengths it had, just
when no string is longer than the reader takes and no count is cut. -/
theorem load_accepts_iff (now : ℕ) (levels : Bytes → Levels) (db : Keyspace) :
    ((load now levels (save db) .empty).isSome ∧ Agreed db) ↔ Acceptable db := by
  refine ⟨fun h => agreed_iff.1 h.2, fun h => ⟨?_, agreed_iff.2 h⟩⟩
  have hentry : ∀ k o, db.dict.find k = some o → (k, o) ∈ db.forEach := fun k o hk => (Dict.mem_forEach _ _ _).2 hk
  rw [load_written now levels h.size (fun k o hk => h.strings _ (hentry k o hk) k List.mem_cons_self)
    fun k o hk => fits_of_acceptable (fun s hs => h.strings _ (hentry k o hk) s (List.mem_cons_of_mem _ hs))
      (h.counts _ (hentry k o hk))]
  rfl

/-- A string too long for the reader, as the value of the only key. -/
theorem load_one_long (now : ℕ) (levels : Bytes → Levels) {s : Bytes} (hlong : 2 ^ 30 < s.length) (hs : s.length < 2 ^ 32) :
    load now levels (save (.set .empty [97] (.string s))) .empty = none := by
  have hstr : getStr (putStr s) = none := by
    rw [getStr, putStr, getNat_four hs, Option.bind_some]
    exact if_pos hlong
  have hmagic : ∀ x, getBytes 8 (kMagic ++ x) = some (kMagic, x) := getBytes_append kMagic
  have htype : ∀ x, getNat 1 (0 :: x) = some (0, x) := fun x => by simp [getNat, getBytes, leNat]
  have hkey : ([97] : Bytes).length ≤ 2 ^ 30 := by decide
  have hobj : readObject now levels .empty (0 :: (putStr [97] ++ (leBytes 8 0 ++ putStr s))) = none := by
    rw [readObject, htype, Option.bind_some, getStr_putStr hkey, Option.bind_some, getNat_leBytes (by decide),
      Option.bind_some, readValue, if_pos (.inl rfl), hstr]
    rfl
  rw [save_one, load, hmagic, Option.bind_some, if_neg (by simp), getNat_leBytes (by decide), Option.bind_some, getMany,
    hobj]
  rfl

theorem setrange_empty (env : Env) {argv : List Bytes} {n : ℕ} (h : parseInt (arg argv 2) = some (n : ℤ)) :
    (Cmd.setrange env argv .empty).db = .set .empty (arg argv 1) (.string (Cmd.overwrite [] n (arg argv 3))) := by
  have hget : Cmd.getString .empty env.now (arg argv 1) = (.empty, .absent) := by
    simp [Cmd.getString, getAs, Keyspace.lookup, Keyspace.empty]
  have hn : ¬(n : ℤ) < 0 := by omega
  simp only [Cmd.setrange, h, hn, if_false, hget, Result.marked, Int.toNat_natCast]

theorem overwrite_length (n : ℕ) (val : Bytes) : (Cmd.overwrite [] n val).length = n + val.length := by
  simp [Cmd.overwrite]

/-- `SETRANGE a 1073741824 x`: a value one byte longer than the reader takes. -/
theorem load_rejects_saved : ¬ ∀ (cmds : List (Env × List Bytes)) (now : ℕ) (levels : Bytes → Levels),
    (load now levels (save (Lib.runTotal execStep .empty cmds).1) .empty).isSome := by
  intro h
  have hload := h [(.quiet 0, [ascii "SETRANGE", [97], ascii "1073741824", [120]])] 5 (fun _ _ => ⟨0, by decide⟩)
  have hint : parseInt (ascii "1073741824") = some ((2 ^ 30 : ℕ) : ℤ) := by decide +kernel
  have hr : route [ascii "SETRANGE", [97], ascii "1073741824", [120]] =
      .ok ⟨ascii "setrange", Cmd.setrange, 4, true, 1, 1, 1⟩ := rfl
  have hrun : (Lib.runTotal execStep .empty [(.quiet 0, [ascii "SETRANGE", [97], ascii "1073741824", [120]])]).1 =
      .set .empty [97] (.string (Cmd.overwrite [] (2 ^ 30) [120])) := by
    simp only [Lib.runTotal, execStep, execCore, hr]
    exact setrange_empty (.quiet 0) hint
  have hlen := overwrite_length (2 ^ 30) [120]
  rw [List.length_singleton] at hlen
  rw [hrun, load_one_long 5 _ (by rw [hlen]; decide) (by rw [hlen]; decide)] at hload
  cases hload

end BlazeKV.Snapshot
