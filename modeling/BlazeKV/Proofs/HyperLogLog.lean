import BlazeKV.Lib.Maxima
import BlazeKV.Spec.Commands.Server
import BlazeKV.Proofs.LiveView

/-! The HyperLogLog commands on sets of elements. A register array is the row of the highest ranks of a set, so
that what a key holds is told by the set of the elements that have reached it, through `PFADD` or through a merge. -/

namespace BlazeKV

open Keyspace Cmd

instance uint8Bot : OrderBot UInt8 where
  bot := 0
  bot_le a := Nat.zero_le a.toNat

namespace Hll

def slot (x : Bytes) : ℕ := hashBytes x 0xADC83B19 % kRegisters

def height (x : Bytes) : UInt8 := UInt8.ofNat (rank (hashBytes x 0xADC83B19))

/-- The registers of a set of elements. -/
def registers (S : Finset Bytes) : Bytes := Lib.peaks kRegisters slot height S

variable {S T : Finset Bytes}

theorem length_registers : (registers S).length = kRegisters := by rw [registers, Lib.length_peaks]

theorem slot_lt (x : Bytes) : slot x < kRegisters := Nat.mod_lt _ (by decide)

theorem ensure_registers : ensure (registers S) = registers S := if_neg (not_not.2 length_registers)

theorem ensure_nil : ensure [] = registers ∅ := by
  rw [registers, Lib.peaks_empty]
  rfl

theorem add_registers (x : Bytes) : add (registers S) x = Lib.raise (registers S) (slot x) (height x) := by
  unfold add Lib.raise
  rw [ensure_registers]
  by_cases h : (registers S).getD (slot x) 0 < height x
  · exact (if_pos h).trans (if_pos h).symm
  · exact (if_neg h).trans (if_neg h).symm

theorem foldl_add (xs : List Bytes) (b : Bool) :
    xs.foldl (fun r x => ((add r.1 x).1, r.2 || (add r.1 x).2)) (registers S, b) =
      (registers (S ∪ xs.toFinset), b || decide (registers (S ∪ xs.toFinset) ≠ registers S)) := by
  have hfold := @Lib.foldl_raise _ _ _ _ kRegisters slot height S _ add (fun S x _ => add_registers x) xs (fun x _ => slot_lt x) b
  simp only [← registers.eq_def] at hfold
  convert hfold

theorem merge_registers : merge (registers S) (registers T) = registers (S ∪ T) := by
  have hmax : (fun d s : UInt8 => if d < s then s else d) = max := by
    funext d s
    split_ifs with h
    · exact (max_eq_right h.le).symm
    · exact (max_eq_left (not_lt.1 h)).symm
  rw [merge, ensure_registers, if_neg (not_not.2 length_registers), hmax, registers, registers, registers, Lib.peaks_union]

-- a row of that length is never to be evaluated
attribute [irreducible] registers

end Hll

/-- What a key holds: the elements of its HyperLogLog, and its deadline. -/
abbrev HllSets := Bytes → Option (Finset Bytes × Option ℕ)

namespace HllSets

/-- What a lookup finds. -/
def seen (s : HllSets) (now : ℕ) (k : Bytes) : Option (Finset Bytes × Option ℕ) := (s k).filter fun e => !e.2.any (· ≤ now)

/-- A missing key has no elements. -/
def elements (s : HllSets) (now : ℕ) (k : Bytes) : Finset Bytes := ((s.seen now k).map Prod.fst).getD ∅

def union (s : HllSets) (now : ℕ) (ks : List Bytes) : Finset Bytes := ks.toFinset.biUnion (s.elements now)

/-- The lookups erase the keys that they find dead. -/
def looked (s : HllSets) (now : ℕ) (ks : List Bytes) : HllSets := fun k => if k ∈ ks then s.seen now k else s k

variable (s : HllSets) (now : ℕ) (k : Bytes) (ks : List Bytes)

theorem seen_looked : (s.looked now ks).seen now k = s.seen now k := by
  unfold looked seen
  dsimp only
  split_ifs
  · rw [Option.filter_filter]
    simp only [Bool.and_self]
  · rfl

theorem elements_looked : (s.looked now ks).elements now k = s.elements now k := by rw [elements, seen_looked, elements]

theorem looked_cons : s.looked now (k :: ks) = (s.looked now [k]).looked now ks := by
  funext k'
  have hseen := seen_looked s now k' [k]
  unfold looked at hseen ⊢
  rw [hseen]
  simp only [List.mem_cons, List.not_mem_nil, or_false]
  split_ifs <;> tauto

theorem looked_twice : s.looked now (k :: k :: ks) = s.looked now (k :: ks) := by
  funext k'
  simp only [looked, List.mem_cons, or_self_left]

theorem union_cons : s.union now (k :: ks) = s.elements now k ∪ s.union now ks := by
  rw [union, List.toFinset_cons, Finset.biUnion_insert, union]

end HllSets

/-- A call of one of the three commands. -/
inductive HllCall
  | add (key : Bytes) (xs : List Bytes)
  | count (keys : List Bytes)
  | merge (dest : Bytes) (sources : List Bytes)

namespace HllCall

def keys : HllCall → List Bytes
  | add key _ => [key]
  | count keys => keys
  | merge dest sources => dest :: sources

def run (env : Env) : HllCall → Keyspace → Result
  | add key xs => pfadd env (ascii "pfadd" :: key :: xs)
  | count keys => pfcount env (ascii "pfcount" :: keys)
  | merge dest sources => pfmerge env (ascii "pfmerge" :: dest :: sources)

/-- What a call does to the sets. A register that rises takes the deadline of its key away. -/
def sets (now : ℕ) (s : HllSets) : HllCall → HllSets
  | add key xs =>
    let S := s.elements now key
    Function.update s key (some (S ∪ xs.toFinset,
      if Hll.registers (S ∪ xs.toFinset) = Hll.registers S then (s.seen now key).bind Prod.snd else none))
  | count keys => s.looked now keys
  | merge dest sources => Function.update (s.looked now (dest :: sources)) dest (some (s.union now (dest :: sources), none))

def answer (env : Env) (s : HllSets) : HllCall → Bytes
  | add key xs =>
    let S := s.elements env.now key
    Reply.integer (if (s.seen env.now key).isNone ∨ Hll.registers (S ∪ xs.toFinset) ≠ Hll.registers S then 1 else 0)
  | count keys => Reply.integer (env.estimate (Hll.registers (s.union env.now keys)))
  | merge _ _ => Reply.simpleString (ascii "OK")

end HllCall

/-- The keys `K` hold the register arrays of their sets. -/
structure HoldsSets (K : Set Bytes) (db : Keyspace) (s : HllSets) : Prop where
  array : ∀ k ∈ K, (db.dict.find k).map Object.str? = (s k).map fun e => some (Hll.registers e.1)
  deadline : ∀ k ∈ K, db.expires.find k = (s k).bind Prod.snd

section Calls

variable {K : Set Bytes} {db : Keyspace} {s : HllSets} {k : Bytes}

theorem HoldsSets.seen (h : HoldsSets K db s) (hk : k ∈ K) (now : ℕ) : s.seen now k = if db.dead now k then none else s k := by
  have hdead : db.dead now k = ((s k).bind Prod.snd).any (· ≤ now) := by rw [Keyspace.dead, h.deadline k hk]
  rw [hdead, HllSets.seen]
  cases s k with
  | none => simp
  | some e => cases he : e.2.any (· ≤ now) <;> simp [Option.filter, he]

/-- What a lookup reads at a key. -/
theorem HoldsSets.read (h : HoldsSets K db s) (hk : k ∈ K) (now : ℕ) :
    (db.peek now k).map Object.str? = (s.seen now k).map fun e => some (Hll.registers e.1) := by
  rw [h.seen hk now, Keyspace.peek]
  split_ifs
  · rfl
  · exact h.array k hk

theorem HoldsSets.lookup (h : HoldsSets K db s) (hk : k ∈ K) (now : ℕ) : HoldsSets K (db.lookup now k).1 (s.looked now [k]) := by
  have hlooked : ∀ k', s.looked now [k] k' = if k' = k ∧ db.dead now k then none else s k' := by
    intro k'
    unfold HllSets.looked
    by_cases hkk : k' = k
    · subst hkk
      simp [h.seen hk]
    · simp [hkk]
  constructor
  · intro k' hk'
    rw [hlooked, lookup_find_dict]
    split_ifs
    · rfl
    · exact h.array k' hk'
  · intro k' hk'
    rw [hlooked, lookup_find_expires]
    by_cases hdead : k' = k ∧ db.dead now k
    · obtain ⟨rfl, hd⟩ := hdead
      cases hs : s k' with
      | none => simp [hd, h.deadline k' hk', hs]
      | some e =>
        have hsome : (db.dict.find k').isSome := by
          have := congrArg Option.isSome (h.array k' hk')
          simpa [hs] using this
        simp [hd, hsome]
    · rw [if_neg hdead, if_neg (fun hc => hdead ⟨hc.1, hc.2.2⟩), h.deadline k' hk']

theorem mergeRound_sets (h : HoldsSets K db s) (hk : k ∈ K) (now : ℕ) (S : Finset Bytes) :
    mergeRound now (db, Hll.registers S) k = ((db.lookup now k).1, Hll.registers (S ∪ s.elements now k)) := by
  have hread := h.read hk now
  simp only [mergeRound, lookup_snd]
  refine congrArg (Prod.mk _) ?_
  cases hp : db.peek now k with
  | none =>
    rw [hp] at hread
    have hnone : s.seen now k = none := Option.map_eq_none_iff.1 hread.symm
    rw [HllSets.elements, hnone, Option.map_none, Option.getD_none, Finset.union_empty, Option.bind_none, Option.elim_none]
  | some o =>
    rw [hp, Option.map_some] at hread
    obtain ⟨e, he, ho⟩ := Option.map_eq_some_iff.1 hread.symm
    rw [HllSets.elements, he, Option.map_some, Option.getD_some, Option.bind_some, ← ho, Option.elim_some, Hll.merge_registers]

theorem mergeRounds_sets (h : HoldsSets K db s) (ks : List Bytes) (hks : ∀ k ∈ ks, k ∈ K) (now : ℕ) (S : Finset Bytes) :
    HoldsSets K (ks.foldl (mergeRound now) (db, Hll.registers S)).1 (s.looked now ks) ∧
      (ks.foldl (mergeRound now) (db, Hll.registers S)).2 = Hll.registers (S ∪ s.union now ks) := by
  induction ks generalizing db s S with
  | nil => exact ⟨h, by simp [HllSets.union]⟩
  | cons k ks ih =>
    have hk := hks k List.mem_cons_self
    obtain ⟨hholds, hregs⟩ := ih (h.lookup hk now) (fun k' hk' => hks k' (List.mem_cons_of_mem k hk')) (S ∪ s.elements now k)
    rw [List.foldl_cons, mergeRound_sets h hk now, HllSets.looked_cons]
    refine ⟨hholds, hregs.trans ?_⟩
    have hunion : (s.looked now [k]).union now ks = s.union now ks := by
      rw [HllSets.union, HllSets.union]
      exact Finset.biUnion_congr rfl fun _ _ => HllSets.elements_looked ..
    rw [HllSets.union_cons, hunion, Finset.union_assoc]

theorem HoldsSets.set (h : HoldsSets K db s) (key : Bytes) (S : Finset Bytes) :
    HoldsSets K (db.set key (.string (Hll.registers S))) (Function.update s key (some (S, none))) := by
  constructor
  · intro k hk
    rw [find_dict_set, Function.update_apply]
    split_ifs
    · rfl
    · exact h.array k hk
  · intro k hk
    rw [find_expires_set, Function.update_apply]
    split_ifs
    · rfl
    · exact h.deadline k hk

/-- More elements, when they raise no register. -/
theorem HoldsSets.relabel (h : HoldsSets K db s) {key : Bytes} {S T : Finset Bytes} {dl : Option ℕ} (hs : s key = some (S, dl))
    (hsame : Hll.registers T = Hll.registers S) : HoldsSets K db (Function.update s key (some (T, dl))) := by
  constructor
  · intro k hk
    rw [h.array k hk, Function.update_apply]
    split_ifs with hkey
    · rw [hkey, hs, Option.map_some, Option.map_some, hsame]
    · rfl
  · intro k hk
    rw [h.deadline k hk, Function.update_apply]
    split_ifs with hkey
    · rw [hkey, hs]
      rfl
    · rfl

/-- A lookup of the key that is about to be written leaves no trace. -/
theorem update_looked (s : HllSets) (now : ℕ) (key : Bytes) (v : Option (Finset Bytes × Option ℕ)) :
    Function.update (s.looked now [key]) key v = Function.update s key v := by
  funext k
  simp only [Function.update_apply, HllSets.looked, List.mem_singleton]
  split_ifs <;> rfl

variable (env : Env) (n : Bytes)

theorem add_sets (h : HoldsSets K db s) {key : Bytes} (hk : key ∈ K) (xs : List Bytes) :
    ((HllCall.add key xs).run env db).reply = (HllCall.add key xs).answer env s ∧
      HoldsSets K ((HllCall.add key xs).run env db).db ((HllCall.add key xs).sets env.now s) := by
  have hread := h.read hk env.now
  simp only [HllCall.run, HllCall.answer, HllCall.sets, pfadd, getHll, getAs_eq, HllSets.elements, Hll.ensure_nil,
    show arg (ascii "pfadd" :: key :: xs) 1 = key from rfl, show (ascii "pfadd" :: key :: xs).drop 2 = xs from rfl]
  obtain hs | ⟨e, hs⟩ := (s.seen env.now key).eq_none_or_eq_some
  · rw [hs] at hread
    have hfound : found Object.str? (db.peek env.now key) = .absent := (found_absent _).2 (Option.map_eq_none_iff.1 hread)
    have hholds := (h.lookup hk env.now).set key (∅ ∪ xs.toFinset)
    rw [update_looked] at hholds
    simp only [hs, hfound, Hll.foldl_add, Bool.true_or, if_true]
    exact ⟨by simp [Result.markedIf], by simpa using hholds⟩
  · rw [hs, Option.map_some] at hread
    obtain ⟨o, ho, hstr⟩ := Option.map_eq_some_iff.1 hread
    have hfound : found Object.str? (db.peek env.now key) = .present (Hll.registers e.1) := (found_present _).2 ⟨o, ho, hstr⟩
    simp only [hs, hfound, Hll.foldl_add, Bool.false_or, lookup_of_peek db env.now key o ho]
    by_cases hsame : Hll.registers (e.1 ∪ xs.toFinset) = Hll.registers e.1
    · refine ⟨by simp [Result.markedIf, hsame], ?_⟩
      have hlive : s key = some e := (Option.filter_eq_some_iff.1 hs).1
      simpa [Result.markedIf, hsame] using h.relabel hlive hsame
    · refine ⟨by simp [Result.markedIf, hsame], ?_⟩
      simpa [Result.markedIf, hsame] using h.set key (e.1 ∪ xs.toFinset)

theorem count_sets (h : HoldsSets K db s) (ks : List Bytes) (hks : ∀ k ∈ ks, k ∈ K) :
    ((HllCall.count ks).run env db).reply = (HllCall.count ks).answer env s ∧
      HoldsSets K ((HllCall.count ks).run env db).db ((HllCall.count ks).sets env.now s) := by
  obtain ⟨hholds, hregs⟩ := mergeRounds_sets h ks hks env.now ∅
  simp only [HllCall.run, HllCall.answer, HllCall.sets, pfcount, Hll.ensure_nil, List.tail_cons, Result.clean, hregs,
    Finset.empty_union]
  exact ⟨trivial, hholds⟩

theorem merge_sets (h : HoldsSets K db s) {dest : Bytes} (sources : List Bytes) (hks : ∀ k ∈ dest :: sources, k ∈ K) :
    ((HllCall.merge dest sources).run env db).reply = (HllCall.merge dest sources).answer env s ∧
      HoldsSets K ((HllCall.merge dest sources).run env db).db ((HllCall.merge dest sources).sets env.now s) := by
  have hdest := hks dest List.mem_cons_self
  have hread := h.read hdest env.now
  -- what the destination holds is read first, and once more in the loop
  have hfirst : Hll.ensure (((db.peek env.now dest).bind Object.str?).getD []) = Hll.registers (s.elements env.now dest) := by
    obtain hs | ⟨e, hs⟩ := (s.seen env.now dest).eq_none_or_eq_some
    · rw [hs] at hread
      simp only [Option.map_eq_none_iff.1 hread, HllSets.elements, hs, Option.bind_none, Option.getD_none, Option.map_none,
        Hll.ensure_nil]
    · rw [hs, Option.map_some] at hread
      obtain ⟨o, ho, hstr⟩ := Option.map_eq_some_iff.1 hread
      simp only [ho, hstr, HllSets.elements, hs, Option.bind_some, Option.getD_some, Option.map_some, Hll.ensure_registers]
  obtain ⟨hholds, hregs⟩ := mergeRounds_sets (h.lookup hdest env.now) (dest :: sources) hks env.now (s.elements env.now dest)
  have hunion : (s.looked env.now [dest]).union env.now (dest :: sources) = s.union env.now (dest :: sources) :=
    Finset.biUnion_congr rfl fun _ _ => HllSets.elements_looked ..
  rw [hunion, HllSets.union_cons, ← Finset.union_assoc, Finset.union_self, ← HllSets.union_cons] at hregs
  have hset := hholds.set dest (s.union env.now (dest :: sources))
  rw [← HllSets.looked_cons, HllSets.looked_twice] at hset
  simp only [HllCall.run, HllCall.answer, HllCall.sets, pfmerge, lookup_snd, List.tail_cons, Result.marked, hfirst, hregs,
    show arg (ascii "pfmerge" :: dest :: sources) 1 = dest from rfl]
  exact ⟨trivial, hset⟩

theorem call_sets (h : HoldsSets K db s) (c : HllCall) (hks : ∀ k ∈ c.keys, k ∈ K) :
    (c.run env db).reply = c.answer env s ∧ HoldsSets K (c.run env db).db (c.sets env.now s) := by
  cases c with
  | add key xs => exact add_sets env h (hks key List.mem_cons_self) xs
  | count keys => exact count_sets env h keys hks
  | merge dest sources => exact merge_sets env h sources hks

def HllCall.runAll (calls : List (Env × HllCall)) (db : Keyspace) : Keyspace := calls.foldl (fun db c => (c.2.run c.1 db).db) db

def HllCall.setsAll (calls : List (Env × HllCall)) (s : HllSets) : HllSets := calls.foldl (fun s c => c.2.sets c.1.now s) s

theorem runAll_sets (h : HoldsSets K db s) (calls : List (Env × HllCall)) (hks : ∀ c ∈ calls, ∀ k ∈ c.2.keys, k ∈ K) :
    HoldsSets K (HllCall.runAll calls db) (HllCall.setsAll calls s) := by
  induction calls generalizing db s with
  | nil => exact h
  | cons c calls ih =>
    exact ih (call_sets c.1 h c.2 (hks c List.mem_cons_self)).2 fun c' hc' => hks c' (List.mem_cons_of_mem c hc')

/-- The elements that a call adds to a key. -/
def HllCall.adds (k : Bytes) : HllCall → List Bytes
  | add key xs => if key = k then xs else []
  | _ => []

/-- In a run of `PFADD` a key without a deadline collects its elements. -/
theorem setsAll_adds (calls : List (Env × HllCall)) (hadds : ∀ c ∈ calls, ∃ key xs, c.2 = .add key xs)
    (hk : (∃ c ∈ calls, c.2.keys = [k]) ∨ (s k).isSome) (hd : (s k).bind Prod.snd = none) :
    HllCall.setsAll calls s k = some (((s k).map Prod.fst).getD ∅ ∪ (calls.flatMap fun c => c.2.adds k).toFinset, none) := by
  induction calls generalizing s with
  | nil =>
    obtain ⟨c, hc, -⟩ | hk := hk
    · cases hc
    · obtain ⟨⟨S, dl⟩, he⟩ := Option.isSome_iff_exists.1 hk
      obtain rfl : dl = none := by simpa [he] using hd
      simp [HllCall.setsAll, he]
  | cons c calls ih =>
    obtain ⟨env, c⟩ := c
    obtain ⟨key, xs, rfl⟩ := hadds _ List.mem_cons_self
    have hrest := fun c' hc' => hadds c' (List.mem_cons_of_mem _ hc')
    have hseen : s.seen env.now k = s k := by
      unfold HllSets.seen
      cases hs : s k with
      | none => rfl
      | some e =>
        have : e.2 = none := by simpa [hs] using hd
        simp [Option.filter, this]
    rw [HllCall.setsAll, List.foldl_cons, ← HllCall.setsAll]
    by_cases hkey : key = k
    · subst hkey
      have hnow : HllCall.sets env.now s (.add key xs) key = some (((s key).map Prod.fst).getD ∅ ∪ xs.toFinset, none) := by
        simp only [HllCall.sets, Function.update_self, HllSets.elements, hseen, hd, ite_self]
      rw [ih hrest (.inr (by rw [hnow]; rfl)) (by rw [hnow]; rfl), hnow]
      simp [HllCall.adds, Finset.union_assoc]
    · have hnow : HllCall.sets env.now s (.add key xs) k = s k := Function.update_of_ne (Ne.symm hkey) ..
      rw [ih hrest (by rw [hnow]; simpa [HllCall.keys, hkey] using hk) (by rw [hnow]; exact hd), hnow]
      simp [HllCall.adds, hkey]

/-- The register array at a key. -/
def arrayAt (db : Keyspace) (k : Bytes) : Option Bytes := (db.dict.find k).bind Object.str?

theorem HoldsSets.arrayAt_eq (h : HoldsSets K db s) (hk : k ∈ K) :
    arrayAt db k = (s k).map fun e => Hll.registers e.1 := by
  have := h.array k hk
  unfold arrayAt
  cases hs : s k with
  | none =>
    rw [hs] at this
    rw [Option.map_eq_none_iff.1 this]
    rfl
  | some e =>
    rw [hs, Option.map_some] at this
    obtain ⟨o, ho, hstr⟩ := Option.map_eq_some_iff.1 this
    rw [ho, Option.bind_some, hstr, Option.map_some]

theorem count_merged (h : HoldsSets K db s) {dest : Bytes} (sources : List Bytes) (hks : ∀ k ∈ dest :: sources, k ∈ K) :
    ((HllCall.count [dest]).run env ((HllCall.merge dest sources).run env db).db).reply =
      ((HllCall.count (dest :: sources)).run env db).reply := by
  have hmerged := (call_sets env h (.merge dest sources) hks).2
  rw [(call_sets env hmerged (.count [dest]) fun k hk => hks k (by simp_all [HllCall.keys])).1, (call_sets env h (.count (dest :: sources)) hks).1]
  simp [HllCall.answer, HllCall.sets, HllSets.union, HllSets.elements, HllSets.seen, Function.update_self, Option.filter]

/-- The HyperLogLog commands in any run of them over keys that are missing or hold register arrays. -/
theorem hyperloglog_law (h : HoldsSets K db s) (calls : List (Env × HllCall)) (hks : ∀ c ∈ calls, ∀ k ∈ c.2.keys, k ∈ K) :
    let db' := HllCall.runAll calls db
    let s' := HllCall.setsAll calls s
    HoldsSets K db' s' ∧
      ((∀ c ∈ calls, ∃ key xs, c.2 = .add key xs) → ∀ k ∈ K, (s k).bind Prod.snd = none → (∃ c ∈ calls, c.2.keys = [k]) →
        arrayAt db' k =
          some (Hll.registers (((s k).map Prod.fst).getD ∅ ∪ (calls.flatMap fun c => c.2.adds k).toFinset))) ∧
      (∀ env dest sources, (∀ k ∈ dest :: sources, k ∈ K) →
        let merged := (HllCall.merge dest sources).run env db'
        arrayAt merged.db dest = some (Hll.registers (s'.union env.now (dest :: sources))) ∧
          ((HllCall.count [dest]).run env merged.db).reply = ((HllCall.count (dest :: sources)).run env db').reply ∧
          (dest ∈ sources ∨ s'.seen env.now dest = none →
            ((HllCall.count [dest]).run env merged.db).reply = ((HllCall.count sources).run env db').reply)) ∧
      ∀ env, ∀ key ∈ K, (s'.seen env.now key).isSome → ∀ xs,
        let added := (HllCall.add key xs).run env db'
        added.reply = Reply.integer (if arrayAt added.db key = arrayAt db' key then 0 else 1) := by
  intro db' s'
  have hrun : HoldsSets K db' s' := runAll_sets h calls hks
  refine ⟨hrun, ?_, ?_, ?_⟩
  · intro hadds k hk hd hcall
    rw [hrun.arrayAt_eq hk, show s' k = _ from setsAll_adds calls hadds (.inl hcall) hd]
    rfl
  · intro env dest sources hkeys merged
    have hmerged := (call_sets env hrun (.merge dest sources) hkeys).2
    have hcount := count_merged env hrun sources hkeys
    refine ⟨?_, hcount, fun hdest => hcount.trans ?_⟩
    · rw [hmerged.arrayAt_eq (hkeys dest List.mem_cons_self)]
      simp [HllCall.sets]
    · have hsame : s'.union env.now (dest :: sources) = s'.union env.now sources := by
        rw [HllSets.union_cons]
        obtain hmem | hnone := hdest
        · exact Finset.union_eq_right.2 (Finset.subset_biUnion_of_mem _ (List.mem_toFinset.2 hmem))
        · simp [HllSets.elements, hnone]
      have hall := (call_sets env hrun (.count (dest :: sources)) hkeys).1
      have hrest := (call_sets env hrun (.count sources) fun k hk => hkeys k (List.mem_cons_of_mem dest hk)).1
      rw [hall, hrest, HllCall.answer, HllCall.answer, hsame]
  · intro env key hk hlive xs added
    obtain ⟨hreply, hholds⟩ := call_sets env hrun (.add key xs) (by simpa [HllCall.keys] using hk)
    obtain ⟨e, he⟩ := Option.isSome_iff_exists.1 hlive
    have hfound : s' key = some e := (Option.filter_eq_some_iff.1 he).1
    rw [hreply, hholds.arrayAt_eq hk, hrun.arrayAt_eq hk, hfound]
    by_cases hsame : Hll.registers (e.1 ∪ xs.toFinset) = Hll.registers e.1
    · simp [HllCall.answer, HllCall.sets, HllSets.elements, he, hsame]
    · simp [HllCall.answer, HllCall.sets, HllSets.elements, he, hsame]

theorem holdsSets_empty : HoldsSets K .empty fun _ => none := ⟨fun _ _ => by simp, fun _ _ => by simp⟩

/-- Two ways to add three elements. -/
theorem hyperloglog_law_split :
    let once := [(Env.quiet 0, HllCall.add (ascii "k") [ascii "a", ascii "b", ascii "c"])]
    let often := [(Env.quiet 3, HllCall.add (ascii "k") [ascii "c"]), (Env.quiet 5, .add (ascii "j") [ascii "x"]),
      (Env.quiet 5, .add (ascii "k") []), (Env.quiet 8, .add (ascii "k") [ascii "b", ascii "c", ascii "a", ascii "b"])]
    arrayAt (HllCall.runAll once .empty) (ascii "k") = arrayAt (HllCall.runAll often .empty) (ascii "k") := by
  intro once often
  have honce := (@hyperloglog_law Set.univ .empty (fun _ => none) holdsSets_empty once fun _ _ _ _ => trivial).2.1
    (by simp [once]) (ascii "k") trivial rfl (by simp [once, HllCall.keys])
  have hoften := (@hyperloglog_law Set.univ .empty (fun _ => none) holdsSets_empty often fun _ _ _ _ => trivial).2.1
    (by simp [often]) (ascii "k") trivial rfl (by simp [often, HllCall.keys])
  rw [honce, hoften]
  congr 2
  decide +kernel

end Calls

end BlazeKV
