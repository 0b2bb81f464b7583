import BlazeKV.Lib.Slices
import BlazeKV.Proofs.LiveView
import BlazeKV.Proofs.Replies
import BlazeKV.Proofs.Increments
import BlazeKV.Proofs.ZSetAgree
import BlazeKV.Spec.Checked.Ranges

/-! `ZRANGE` and `ZRANK` over a sorted set whose structures agree: slices of the sorted list of its pairs,
and places in it. -/

namespace BlazeKV

open Lib SkipList Checked

/-- An array reply, with as many elements as its header says. -/
def arrayReply (elements : List Bytes) : Bytes := Reply.arrayHeader elements.length ++ elements.flatten

/-- What the reply has for one pair. -/
def pairReply (withscores : Bool) (p : Bytes × Double) : List Bytes :=
  Reply.bulk p.1 :: if withscores then [Reply.doubleReply p.2] else []

theorem length_pairReplies (withscores : Bool) (ps : List (Bytes × Double)) :
    (ps.flatMap (pairReply withscores)).length = if withscores then ps.length * 2 else ps.length := by
  cases withscores <;> simp [pairReply, List.length_flatMap]

theorem flatten_pairReply (withscores : Bool) (n : SkipNode) :
    (pairReply withscores (content n)).flatten = Cmd.replyNode withscores n := by
  cases withscores <;> simp [pairReply, content, Cmd.replyNode]

/-- The pairs of a sorted set in order. -/
structure ZSet.Sorted (z : ZSet) (xs : List (Bytes × Double)) : Prop where
  sorted : xs.Pairwise fun a b => sortKey a < sortKey b
  pairs : ∀ m s, z.dict.find m = some s ↔ (m, s) ∈ xs

section Arithmetic

variable {len : ℕ} {start stop : ℤ}

theorem fitsInt64_iff {v : ℤ} : fitsInt64 v ↔ -2 ^ 63 ≤ v ∧ v < 2 ^ 63 := by
  simp [fitsInt64]

theorem int64_of {v : ℤ} (h : -2 ^ 63 ≤ v ∧ v < 2 ^ 63) : int64 v = some v := if_pos (fitsInt64_iff.2 h)

theorem mapM_some {α β : Type} {f : α → Option β} {g : α → β} {xs : List α} (h : ∀ x ∈ xs, f x = some (g x)) :
    xs.mapM f = some (xs.map g) := by
  induction xs with
  | nil => rfl
  | cons x xs ih =>
    rw [List.mapM_cons, h x List.mem_cons_self, ih fun y hy => h y (List.mem_cons_of_mem x hy)]
    rfl

/-- Nothing overflows on a set of fewer than `2 ^ 32` members. -/
theorem zrangePlan_eq (hlen : len < 2 ^ 32) (withscores rev : Bool) (hstart : fitsInt64 start) (hstop : fitsInt64 stop) :
    zrangePlan len withscores rev start stop = some (
      let r := clampRange len start stop
      if r.1 > r.2 ∨ len = 0 then (0, [])
      else (if withscores then (r.2 - r.1 + 1) * 2 else r.2 - r.1 + 1,
        (List.range' r.1.toNat (r.2 - r.1 + 1).toNat).map fun i => u32 (if rev then len - i else i + 1))) := by
  rw [fitsInt64_iff] at hstart hstop
  have hend : ∀ {i : ℤ}, -2 ^ 63 ≤ i ∧ i < 2 ^ 63 → fromEnd len i = some (if i < 0 then len + i else i) := by
    intro i hi
    unfold fromEnd
    split_ifs
    · exact int64_of (by omega)
    · rfl
  have hpast : ∀ i : ℤ, notPast len i = some (if i ≥ len then (len : ℤ) - 1 else i) := by
    intro i
    unfold notPast
    split_ifs
    · exact int64_of (by omega)
    · rfl
  have hcount : ∀ i : ℤ, 0 ≤ i → i ≤ len → headerCount withscores i = some (if withscores then i * 2 else i) := by
    intro i h0 hi
    unfold headerCount
    split_ifs
    · exact int64_of (by omega)
    · rfl
  have hrank : ∀ i : ℕ, i < len → rankOfIndex len rev i = some (u32 (if rev then len - i else i + 1)) := by
    intro i hi
    rw [rankOfIndex, int64_of (by omega), Option.bind_eq_bind, Option.bind_some, int64_of (by omega), Option.bind_some]
    cases rev
    · rfl
    · exact congrArg (fun n => some (u32 n)) (by simp)
  have hlow : (if start < 0 then max 0 (if start < 0 then (len : ℤ) + start else start) else if start < 0 then len + start else start) =
      (clampRange len start stop).1 := by
    simp only [clampRange]
    split_ifs <;> rfl
  have hhigh : (if (if stop < 0 then (len : ℤ) + stop else stop) ≥ len then (len : ℤ) - 1 else if stop < 0 then len + stop else stop) =
      (clampRange len start stop).2 := rfl
  simp only [zrangePlan, hend hstart, hend hstop, hpast, Option.bind_eq_bind, Option.bind_some, hlow, hhigh, Nat.cast_eq_zero]
  have hbounds : 0 ≤ (clampRange len start stop).1 ∧ (clampRange len start stop).2 < len := by
    simp only [clampRange]
    omega
  generalize clampRange len start stop = r at *
  by_cases hno : r.1 > r.2 ∨ len = 0
  · rw [if_pos hno, if_pos hno]
    rfl
  · rw [if_neg hno, if_neg hno]
    rw [not_or, not_lt] at hno
    rw [int64_of (by omega), Option.bind_some, int64_of (by omega), Option.bind_some, hcount _ (by omega) (by omega), Option.bind_some,
      mapM_some fun i hi => hrank i (by rw [List.mem_range'_1] at hi; omega)]
    rfl

end Arithmetic

section Slices

variable {z : ZSet} {xs : List (Bytes × Double)}

theorem ZSet.Sorted.of_represents (hR : Represents z.sl xs) (hd : ∀ m s, z.dict.find m = some s ↔ (m, s) ∈ xs) : z.Sorted xs :=
  ⟨hR.sorted, hd⟩

theorem nodup_of_sorted (h : xs.Pairwise fun a b => sortKey a < sortKey b) : xs.Nodup := h.imp fun hab he => by
  rw [he] at hab
  exact lt_irrefl _ hab

theorem ZSet.Sorted.length_eq (h : z.Sorted xs) : xs.length = z.size := by
  have hxs := nodup_of_sorted h.sorted
  have hall : z.dict.forEach.Nodup := List.Nodup.of_map _ (Dict.forEach_nodup _)
  have hperm := (List.perm_ext_iff_of_nodup hxs hall).2 fun p => by rw [Dict.mem_forEach, h.pairs]
  rw [hperm.length_eq, Dict.forEach_length]
  rfl

/-- What a rank gives is the pair at that place, from either end. -/
theorem rankItem_eq (hR : Represents z.sl xs) (hsize : xs.length < 2 ^ 32) (withscores rev : Bool) {i : ℕ} (hi : i < xs.length) :
    rankItem z withscores (u32 (if rev then xs.length - i else i + 1)) =
      (if rev then xs.reverse else xs)[i]?.elim [] fun p => (pairReply withscores p).flatten := by
  have hrank : ∀ r, 0 < r → r ≤ xs.length → rankItem z withscores (u32 r) = xs[r - 1]?.elim [] fun p => (pairReply withscores p).flatten := by
    intro r hpos hle
    rw [u32_of_lt (by omega)]
    obtain ⟨o, ho, hcontent⟩ := hR.atRank_spec hsize r
    rw [if_neg hpos.ne'] at hcontent
    rw [rankItem, ho, ← hcontent]
    cases o with
    | none => rfl
    | some x => exact (flatten_pairReply withscores _).symm
  cases rev with
  | false => exact hrank (i + 1) (Nat.succ_pos i) hi
  | true =>
    rw [if_pos rfl, if_pos rfl, hrank _ (by omega) (by omega), List.getElem?_reverse hi]
    congr 2
    omega

/-- The reply of `ZRANGE` by its arithmetic. -/
theorem zrange_reply (env : Env) (argv : List Bytes) (db : Keyspace)
    (hz : (db.peek env.now (arg argv 1)).bind Object.zset? = some z) (hsize : z.size < 2 ^ 32) {start stop : ℤ}
    (hstart : parseInt (arg argv 2) = some start) (hstop : parseInt (arg argv 3) = some stop) :
    let opts := (argv.drop 4).map lowercase
    let withscores := opts.contains (ascii "withscores")
    ∃ p, zrangePlan z.size withscores (opts.contains (ascii "rev")) start stop = some p ∧
      (Cmd.zrange env argv db).reply = Reply.arrayHeader p.1 ++ p.2.flatMap (rankItem z withscores) := by
  intro opts withscores
  refine ⟨_, zrangePlan_eq hsize _ _ (parseInt_fits hstart) (parseInt_fits hstop), ?_⟩
  simp only [Cmd.zrange, Cmd.getZSet, getAs_eq, found_of_bind _ hz, hstart, hstop]
  by_cases hno : (clampRange z.size start stop).1 > (clampRange z.size start stop).2 ∨ z.size = 0
  · rw [if_pos hno, if_pos hno]
    simp
  · rw [if_neg hno, if_neg hno, Result.clean_reply, List.flatMap_map]
    rfl

/-- The clamped bounds are those of the slice. -/
theorem slice_clamp {α : Type} (ys : List α) (start stop : ℤ) :
    let r := clampRange ys.length start stop
    slice ys start stop = if r.1 > r.2 ∨ ys.length = 0 then [] else (ys.drop r.1.toNat).take (r.2 - r.1 + 1).toNat := by
  intro r
  have hlow : (index ys.length start).toNat = r.1.toNat := by
    simp only [r, clampRange, index]
    omega
  have hhigh : r.2 = min ((ys.length : ℤ) - 1) (index ys.length stop) := by
    simp only [r, clampRange, index]
    omega
  have hpos : 0 ≤ r.1 := by
    simp only [r, clampRange]
    omega
  rw [slice_eq, hlow]
  split_ifs with hno
  · rw [List.eq_nil_iff_length_eq_zero, List.length_take, List.length_drop]
    omega
  · rw [List.take_eq_take_iff, List.length_drop]
    omega

theorem zrange_slice (env : Env) (argv : List Bytes) (db : Keyspace)
    (hz : (db.peek env.now (arg argv 1)).bind Object.zset? = some z) (hR : Represents z.sl xs) (hlen : xs.length = z.size)
    (hsize : z.size < 2 ^ 32) {start stop : ℤ} (hstart : parseInt (arg argv 2) = some start) (hstop : parseInt (arg argv 3) = some stop) :
    let opts := (argv.drop 4).map lowercase
    (Cmd.zrange env argv db).reply = arrayReply
      ((slice (if opts.contains (ascii "rev") then xs.reverse else xs) start stop).flatMap
        (pairReply (opts.contains (ascii "withscores")))) := by
  intro opts
  obtain ⟨p, hp, hreply⟩ := zrange_reply env argv db hz hsize hstart hstop
  rw [zrangePlan_eq hsize _ _ (parseInt_fits hstart) (parseInt_fits hstop)] at hp
  obtain rfl := Option.some.inj hp
  rw [hreply]
  change (_ ++ List.flatMap (rankItem z (opts.contains (ascii "withscores"))) _) = _
  generalize opts.contains (ascii "withscores") = ws
  generalize opts.contains (ascii "rev") = rev
  set ys := if rev then xs.reverse else xs with hys
  have hylen : ys.length = z.size := by
    rw [hys]
    split_ifs
    · rw [List.length_reverse, hlen]
    · exact hlen
  have hslice := slice_clamp ys start stop
  rw [hylen] at hslice
  dsimp only at hslice ⊢
  rw [arrayReply, length_pairReplies, hslice]
  have hbounds : 0 ≤ (clampRange z.size start stop).1 ∧ (clampRange z.size start stop).2 < z.size := by
    simp only [clampRange]
    omega
  generalize clampRange z.size start stop = r at *
  by_cases hno : r.1 > r.2 ∨ z.size = 0
  · rw [if_pos hno, if_pos hno]
    cases ws <;> rfl
  · rw [if_neg hno, if_neg hno]
    rw [not_or, not_lt] at hno
    have hfit : r.1.toNat + (r.2 - r.1 + 1).toNat ≤ ys.length := by omega
    have hcount : ((ys.drop r.1.toNat).take (r.2 - r.1 + 1).toNat).length = (r.2 - r.1 + 1).toNat := by
      rw [List.length_take, List.length_drop]
      omega
    have hitems : (List.range' r.1.toNat (r.2 - r.1 + 1).toNat).flatMap
        (fun i => rankItem z ws (u32 (if rev then z.size - i else i + 1))) =
        (List.range' r.1.toNat (r.2 - r.1 + 1).toNat).flatMap fun i => ys[i]?.elim [] fun p => (pairReply ws p).flatten := by
      refine List.flatMap_congr fun i hi => ?_
      rw [List.mem_range'_1] at hi
      rw [← hlen]
      exact rankItem_eq hR (by omega) ws rev (by omega)
    rw [List.flatMap_map, hitems, flatMap_range' ys _ _ _ hfit, hcount]
    congr 1
    · congr 1
      split_ifs <;> push_cast <;> omega
    · simp only [List.flatMap_def, List.flatten_flatten, List.map_map]
      rfl

end Slices

section Ranks

variable {z : ZSet} {xs : List (Bytes × Double)} (env : Env) (db : Keyspace) {key : Bytes}

/-- `ZRANK` of a member is its place. -/
theorem zrank_reply (hz : (db.peek env.now key).bind Object.zset? = some z) (hR : Represents z.sl xs)
    (hd : ∀ m s, z.dict.find m = some s ↔ (m, s) ∈ xs) (hsize : xs.length < 2 ^ 32) (m : Bytes) (r : ℕ) :
    (Cmd.zrank env [ascii "zrank", key, m] db).reply = Reply.integer r ↔ ∃ s, xs[r]? = some (m, s) := by
  simp only [Cmd.zrank, Cmd.getZSet, getAs_eq, show arg [ascii "zrank", key, m] 1 = key from rfl, found_of_bind _ hz,
    show arg [ascii "zrank", key, m] 2 = m from rfl]
  cases hm : z.dict.find m with
  | none =>
    refine iff_of_false (fun h => ?_) ?_
    · exact absurd (congrArg List.head? h) (by simp [Result.clean, Reply.nullBulk, Reply.integer, ascii])
    · rintro ⟨s, hs⟩
      have := (hd m s).2 (List.mem_of_getElem? hs)
      rw [hm] at this
      cases this
  | some s =>
    obtain ⟨j, hj, hat⟩ := List.getElem_of_mem ((hd m s).1 hm)
    have hnan : s.isNaN = false := hR.number _ ((hd m s).1 hm)
    dsimp only
    rw [hR.rankOf_spec hsize hnan, findIdx?_of_sorted hR.sorted hj (by rw [hat])]
    simp only [Option.elim_some, Option.getD_some, Result.clean_reply, Nat.cast_add, Nat.cast_one, add_sub_cancel_right]
    constructor
    · intro h
      have hjr : (j : ℤ) = r := (integer_append_inj (x := []) (y := []) (by rw [h])).1
      obtain rfl : j = r := by omega
      exact ⟨s, by rw [List.getElem?_eq_getElem hj, hat]⟩
    · rintro ⟨s', hs'⟩
      have hs : s' = s := by
        have := (hd m s').2 (List.mem_of_getElem? hs')
        rw [hm] at this
        exact (Option.some.inj this).symm
      subst hs
      obtain ⟨hr, hget⟩ := List.getElem?_eq_some_iff.1 hs'
      rw [((nodup_of_sorted hR.sorted).getElem_inj_iff).1 (hat.trans hget.symm)]

theorem slice_single {α : Type} (ys : List α) (r : ℕ) : slice ys r r = ys[r]?.toList := by
  have hindex : ∀ len : ℤ, index len r = r := fun len => if_neg (by omega)
  rw [slice_eq, hindex]
  rw [show ((r : ℤ) + 1).toNat - (r : ℤ).toNat = 1 by omega, Int.toNat_natCast, List.take_one, List.head?_drop]

/-- `ZRANGE r r` has the member at place `r`. -/
theorem zrange_single (hz : (db.peek env.now key).bind Object.zset? = some z) (hR : Represents z.sl xs) (hlen : xs.length = z.size)
    (hsize : z.size < 2 ^ 32) (m : Bytes) (r : ℕ) (hr : r < 2 ^ 63) :
    (Cmd.zrange env [ascii "zrange", key, decimal r, decimal r] db).reply = arrayReply [Reply.bulk m] ↔
      ∃ s, xs[r]? = some (m, s) := by
  have hparse : parseInt (decimal r) = some (r : ℤ) := by rw [parseInt_decimal, if_pos hr]
  have h := zrange_slice env [ascii "zrange", key, decimal r, decimal r] db hz hR hlen hsize hparse hparse
  dsimp only at h
  rw [h, List.drop_eq_nil_of_le (by simp)]
  simp only [List.map_nil, List.contains_nil, Bool.false_eq_true, if_false]
  rw [slice_single]
  cases xs[r]? with
  | none =>
    refine iff_of_false (fun h => ?_) (by simp)
    exact absurd (arrayHeader_append_inj h).1 (by simp)
  | some p =>
    constructor
    · intro h
      have hbulk := (arrayHeader_append_inj h).2
      exact ⟨p.2, by rw [show m = p.1 from (bulk_injective (by simpa [pairReply] using hbulk)).symm]⟩
    · rintro ⟨s, hs⟩
      obtain rfl := Option.some.inj hs
      rfl

end Ranks

/-- `ZRANGE` over the sorted list of the pairs, and `ZRANK` beside it. -/
theorem zrange_zrank (env : Env) (db : Keyspace) (key : Bytes) (z : ZSet) (hz : (db.peek env.now key).bind Object.zset? = some z)
    (hagree : z.Coherent) (hsize : z.size < 2 ^ 32) :
    ∃ xs, z.Sorted xs ∧
      (∀ argv start stop, arg argv 1 = key → parseInt (arg argv 2) = some start → parseInt (arg argv 3) = some stop →
        let opts := (argv.drop 4).map lowercase
        let withscores := opts.contains (ascii "withscores")
        let rev := opts.contains (ascii "rev")
        (∃ p, zrangePlan z.size withscores rev start stop = some p ∧
          (Cmd.zrange env argv db).reply = Reply.arrayHeader p.1 ++ p.2.flatMap (rankItem z withscores)) ∧
        (Cmd.zrange env argv db).reply =
          arrayReply ((slice (if rev then xs.reverse else xs) start stop).flatMap (pairReply withscores))) ∧
      ∀ m (r : ℕ), r < 2 ^ 63 →
        ((Cmd.zrank env [ascii "zrank", key, m] db).reply = Reply.integer r ↔
          (Cmd.zrange env [ascii "zrange", key, decimal r, decimal r] db).reply = arrayReply [Reply.bulk m]) := by
  obtain ⟨xs, hR, hd⟩ := hagree
  have hsorted : z.Sorted xs := .of_represents hR hd
  have hlen := hsorted.length_eq
  refine ⟨xs, hsorted, fun argv start stop hkey hstart hstop => ?_, fun m r hr => ?_⟩
  · subst hkey
    exact ⟨zrange_reply env argv db hz hsize hstart hstop, zrange_slice env argv db hz hR hlen hsize hstart hstop⟩
  · rw [zrank_reply env db hz hR hd (by omega), zrange_single env db hz hR hlen hsize m r hr]

/-- Two members of one score. -/
def twoMembers : ZSet :=
  let levels := (Env.quiet 0).levels
  ((ZSet.empty.set levels (ascii "b") .zero).1.set levels (ascii "a") .zero).1

theorem zrange_zrank_two : (Cmd.zrange (.quiet 0) [ascii "zrange", ascii "k", decimal 1, decimal 1]
    (Keyspace.empty.set (ascii "k") (.zset twoMembers))).reply = arrayReply [Reply.bulk (ascii "b")] := by
  obtain ⟨xs, -, -, hrank⟩ := zrange_zrank (.quiet 0) (Keyspace.empty.set (ascii "k") (.zset twoMembers)) (ascii "k") twoMembers
    (by simp [Env.quiet, Keyspace.peek, Keyspace.dead, Object.zset?]) ((ZSet.coherent_empty.set rfl).set rfl) (by decide +kernel)
  exact (hrank (ascii "b") 1 (by decide)).1 (by decide +kernel)

end BlazeKV
