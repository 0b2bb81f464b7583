import BlazeKV.Lib.Sampling
import BlazeKV.Proofs.Expiry

/-! The active expire cycle, once and repeated. It looks at the first entries of the table of
deadlines only, and a table keeps its order when entries go. -/

namespace BlazeKV

open Keyspace

/-- An erased entry leaves the others in their slots. -/
theorem SwissTable.forEach_eraseAt {κ α : Type} [DecidableEq κ] [Inhabited κ] [Inhabited α] {hash : κ → ℕ}
    {t : SwissTable κ α} (hI : t.Inv hash) {i : ℕ} (hi : i < t.capacity) (hf : isFull (t.ctrlAt i)) :
    (t.eraseAt i).forEach = t.forEach.filter fun e => e.1 ≠ (t.slotAt i).key := by
  have hw : t.Wrote (t.eraseAt i) i kDeleted default := hI.wrote hi _ _ _ _
  rw [forEach, forEach, List.filter_map, List.filter_filter, hw.capacity]
  have hsame : (List.range t.capacity).filter (fun j => isFull ((t.eraseAt i).ctrlAt j)) =
      (List.range t.capacity).filter fun j =>
        ((fun e : κ × α => decide (e.1 ≠ (t.slotAt i).key)) ∘ fun j => ((t.slotAt j).key, (t.slotAt j).value)) j &&
          isFull (t.ctrlAt j) := by
    refine List.filter_congr fun j hj => ?_
    have hj : j < t.capacity := List.mem_range.1 hj
    rw [hw.ctrlAt j hj]
    by_cases hji : j = i
    · subst hji
      simp
    · cases hfull : isFull (t.ctrlAt j) with
      | false => simp [hji, hfull]
      | true =>
        have hne : (t.slotAt j).key ≠ (t.slotAt i).key := fun h => hji (hI.uniq j hj i hi hfull hf h)
        simp [hji, hfull, hne]
  rw [hsame]
  refine List.map_congr_left fun j hj => ?_
  have hne : j ≠ i := by
    rintro rfl
    simp at hj
  rw [hw.slotAt j, if_neg hne]

theorem Dict.forEach_erase {α : Type} [Inhabited α] (d : Dict α) (k : Bytes) :
    (d.erase k).forEach = d.forEach.filter fun e => e.1 ≠ k := by
  rcases d.2.findSlot_spec (G := .scalar) k with ⟨i, hi, h, hf, hk⟩ | ⟨h, habs⟩
  · have he : d.1.erase .scalar bytesHash k = some (d.1.eraseAt i, true) := by rw [SwissTable.erase, h]; rfl
    simp only [forEach, erase, eraseKey, he, Option.get_some, SwissTable.forEach_eraseAt d.2 hi hf, hk]
  · have he : d.1.erase .scalar bytesHash k = some (d.1, false) := by rw [SwissTable.erase, h]; rfl
    simp only [forEach, erase, eraseKey, he, Option.get_some]
    refine (List.filter_eq_self.2 fun e hmem => ?_).symm
    rw [decide_eq_true_eq]
    rintro rfl
    exact habs e.2 ((SwissTable.mem_forEach e.1 e.2).1 hmem)

namespace Keyspace

/-- An entry of the table of deadlines that has passed. -/
def due (now : ℕ) (e : Bytes × ℕ) : Bool := e.2 ≤ now

section Statement

variable (db : Keyspace) (now budget : ℕ)

/-- A cycle takes dead keys from both tables, and reports those. -/
structure ReportsExpired : Prop where
  dead : ∀ k ∈ (db.activeExpireCycle now budget).2, db.dead now k
  once : (db.activeExpireCycle now budget).2.Nodup
  dict : ∀ k, (db.activeExpireCycle now budget).1.dict.find k =
    if k ∈ (db.activeExpireCycle now budget).2 then none else db.dict.find k
  expires : ∀ k, (db.activeExpireCycle now budget).1.expires.find k =
    if k ∈ (db.activeExpireCycle now budget).2 then none else db.expires.find k

/-- The keyspace after `n` cycles. -/
def cycles (n : ℕ) : Keyspace := (fun d : Keyspace => (d.activeExpireCycle now budget).1)^[n] db

/-- Every cycle removes dead keys only and reports them, and some number of cycles leaves none. -/
def ExpiresAll : Prop :=
  (∀ n, ReportsExpired (db.cycles now budget n) now budget) ∧
    ∃ n, ∀ k, db.dead now k → (db.cycles now budget n).dict.find k = none ∧ (db.cycles now budget n).expires.find k = none

end Statement

section Cycle

variable {db : Keyspace} {now budget : ℕ}

theorem foldl_expire (ks : List Bytes) (db : Keyspace) :
    (∀ k, (ks.foldl expire db).dict.find k = if k ∈ ks then none else db.dict.find k) ∧
    (∀ k, (ks.foldl expire db).expires.find k = if k ∈ ks then none else db.expires.find k) ∧
      (ks.foldl expire db).expires.forEach = db.expires.forEach.filter fun e => e.1 ∉ ks := by
  induction ks generalizing db with
  | nil => simp
  | cons x ks ih =>
    obtain ⟨h1, h2, h3⟩ := ih (db.expire x)
    refine ⟨fun k => ?_, fun k => ?_, ?_⟩
    · rw [List.foldl_cons, h1]
      by_cases hx : k = x <;> simp [hx]
    · rw [List.foldl_cons, h2]
      by_cases hx : k = x <;> simp [hx]
    · have he : (db.expire x).expires.forEach = db.expires.forEach.filter fun e => e.1 ≠ x := Dict.forEach_erase _ _
      rw [List.foldl_cons, h3, he, List.filter_filter]
      refine List.filter_congr fun e _ => ?_
      by_cases hx : e.1 = x <;> simp [hx]

theorem activeExpireCycle_eq : db.activeExpireCycle now budget =
    ((db.deadKeys now budget).foldl expire db, db.deadKeys now budget) := by
  unfold activeExpireCycle
  split_ifs with h
  · have hnil : db.expires.forEach = [] := by rwa [← List.length_eq_zero_iff, Dict.forEach_length]
    simp [deadKeys, hnil]
  · rfl

theorem reportsExpired (db : Keyspace) (now budget : ℕ) : ReportsExpired db now budget := by
  obtain ⟨h1, h2, -⟩ := foldl_expire (db.deadKeys now budget) db
  refine ⟨?_, ?_, ?_, ?_⟩ <;> rw [activeExpireCycle_eq]
  · intro k hk
    obtain ⟨e, he, rfl⟩ := List.mem_map.1 hk
    obtain ⟨hmem, hdl⟩ := List.mem_filter.1 he
    rw [dead, (Dict.mem_forEach _ _ _).1 (List.mem_of_mem_take hmem)]
    exact hdl
  · exact db.expires.forEach_nodup.sublist ((List.filter_sublist.trans (List.take_sublist _ _)).map _)
  · exact h1
  · exact h2

/-- On the table of deadlines a cycle is a round. -/
theorem forEach_cycle : (db.activeExpireCycle now budget).1.expires.forEach =
    Lib.reap (due now) budget db.expires.forEach := by
  rw [activeExpireCycle_eq, (foldl_expire _ db).2.2]
  rw [← Lib.reap_eq_filter Prod.fst db.expires.forEach_nodup]
  exact List.filter_congr fun e _ => decide_eq_decide.2 Iff.rfl

theorem forEach_cycles (n : ℕ) : (db.cycles now budget n).expires.forEach =
    (Lib.reap (due now) budget)^[n] db.expires.forEach := by
  induction n with
  | zero => rfl
  | succ n ih =>
    rw [cycles, Function.iterate_succ_apply', forEach_cycle, Function.iterate_succ_apply']
    exact congrArg _ ih

/-- A key is as it was, or gone from both tables. -/
theorem cycles_find (db : Keyspace) (now budget n : ℕ) (k : Bytes) :
    ((db.cycles now budget n).dict.find k = db.dict.find k ∧ (db.cycles now budget n).expires.find k = db.expires.find k) ∨
      (db.cycles now budget n).dict.find k = none ∧ (db.cycles now budget n).expires.find k = none := by
  induction n with
  | zero => exact .inl ⟨rfl, rfl⟩
  | succ n ih =>
    have hr := reportsExpired (db.cycles now budget n) now budget
    rw [cycles, Function.iterate_succ_apply']
    have hd := hr.dict k
    have he := hr.expires k
    split_ifs at hd he with hk
    · exact .inr ⟨hd, he⟩
    · rcases ih with ⟨h1, h2⟩ | ⟨h1, h2⟩
      · exact .inl ⟨hd.trans h1, he.trans h2⟩
      · exact .inr ⟨hd.trans h1, he.trans h2⟩

theorem dead_iff_due (k : Bytes) : db.dead now k ↔ ∃ e ∈ db.expires.forEach, e.1 = k ∧ due now e := by
  simp only [dead, Option.any_eq_true, due, decide_eq_true_eq, Prod.exists, Dict.mem_forEach]
  constructor
  · rintro ⟨dl, h, hle⟩
    exact ⟨k, dl, h, rfl, hle⟩
  · rintro ⟨_, dl, h, rfl, hle⟩
    exact ⟨dl, h, hle⟩

/-- The keys that have expired are gone when the table of deadlines holds none of them. -/
theorem gone_iff (n : ℕ) :
    (∀ k, db.dead now k → (db.cycles now budget n).dict.find k = none ∧ (db.cycles now budget n).expires.find k = none) ↔
      ∀ e ∈ (Lib.reap (due now) budget)^[n] db.expires.forEach, due now e = false := by
  rw [← forEach_cycles]
  constructor
  · intro h e he
    by_contra hd
    have hfind := (Dict.mem_forEach _ _ _).1 he
    rcases cycles_find db now budget n e.1 with ⟨-, hsame⟩ | ⟨-, hnone⟩
    · have hdead : db.dead now e.1 := (dead_iff_due e.1).2
        ⟨e, (Dict.mem_forEach _ _ _).2 (hsame ▸ hfind), rfl, by simpa using hd⟩
      simp [(h e.1 hdead).2] at hfind
    · simp [hnone] at hfind
  · intro h k hdead
    rcases cycles_find db now budget n k with ⟨-, hsame⟩ | hnone
    · obtain ⟨e, he, rfl, hdue⟩ := (dead_iff_due k).1 hdead
      have hmem : e ∈ (db.cycles now budget n).expires.forEach :=
        (Dict.mem_forEach _ _ _).2 (hsame.trans ((Dict.mem_forEach _ _ _).1 he))
      simp [h e hmem] at hdue
    · exact hnone

/-- Repeated cycles remove every expired key exactly when, in the order of the table of deadlines,
fewer than `budget` keys with time left stand in front of each. -/
theorem expiresAll_iff : ExpiresAll db now budget ↔ ∀ front k deadline rest,
    db.expires.forEach = front ++ (k, deadline) :: rest → deadline ≤ now →
      (front.countP fun e => now < e.2) < budget := by
  have hreach : Lib.WithinReach (due now) budget db.expires.forEach ↔ ∀ front k deadline rest,
      db.expires.forEach = front ++ (k, deadline) :: rest → deadline ≤ now →
        (front.countP fun e => now < e.2) < budget := by
    simp [Lib.WithinReach, due, ← decide_not]
  rw [ExpiresAll, ← hreach, ← Lib.reaped_iff]
  simp only [gone_iff, reportsExpired, implies_true, true_and]

/-- The keys `a` to `u` with the deadline 9, but 5 for `u`, which is last in the table. -/
def crowded : Keyspace :=
  (List.range 21).foldl (fun db i =>
    let key := [UInt8.ofNat (97 + i)]
    (db.set key (.string [])).setDeadline key (if i = 20 then 5 else 9)) .empty

/-- At the reading 5 the cycles of the cron, which look at twenty entries, never come to `u`. -/
theorem expired_key_stays : ¬ ∀ (db : Keyspace) (now budget : ℕ), 1 ≤ budget → ExpiresAll db now budget := by
  intro h
  obtain ⟨n, hn⟩ := (h crowded 5 20 (by decide)).2
  have hlast : crowded.expires.forEach = crowded.expires.forEach.take 20 ++ [([117], 5)] := by decide +kernel
  have hfull : 20 ≤ (crowded.expires.forEach.take 20).countP fun e => !due 5 e := by decide +kernel
  have hstays := Lib.reap_behind_iterate [] ([117], 5) hfull n
  rw [← hlast] at hstays
  have := (gone_iff n).1 hn _ hstays
  exact absurd this (by decide)

end Cycle

end Keyspace

end BlazeKV
