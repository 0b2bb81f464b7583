import BlazeKV.Proofs.FanOut

/-! The values that `begin_multikey` takes out of `argv`. `MSET` with a key and no value passes
the arity check, and only the handler that this way leaves out counts the arguments. -/

namespace BlazeKV

section Lengths

variable {argv keys : List Bytes}

theorem extractKeys_mset_length {spec : CommandSpec} (hf : spec.firstKey = 1) (hl : spec.lastKey = -1)
    (hs : spec.keyStep = 2) : (extractKeys spec argv).length = argv.length / 2 := by
  have h1 : ¬((argv.length : ℤ) + -1 ≥ argv.length) := by omega
  unfold extractKeys keyIndexes
  simp only [hf, hl, hs, one_ne_zero, if_false, h1, show (-1 : ℤ) < 0 by decide, if_true, List.length_map,
    List.length_range']
  omega

/-- Each key has its value among the arguments. -/
theorem value_indexes_iff (h : 0 < keys.length) (hlen : keys.length = argv.length / 2) :
    (∀ i < keys.length, 2 * i + 2 < argv.length) ↔ argv.length % 2 = 1 := by
  constructor
  · intro hall
    have := hall (keys.length - 1) (by omega)
    omega
  · intro hodd i hi
    omega

theorem multikeyIndexes_ok : (∀ e ∈ multikeyIndexes argv keys, e.1 < e.2) ↔
    (lowercase (cmdName argv) = ascii "mset" → ∀ i < keys.length, 2 * i + 2 < argv.length) := by
  unfold multikeyIndexes
  simp only [List.mem_flatMap, List.mem_range]
  by_cases hm : lowercase (cmdName argv) = ascii "mset"
  · simp only [if_pos hm]
    constructor
    · intro h _ i hi
      exact h (2 * i + 2, argv.length) ⟨i, hi, by simp⟩
    · rintro h e ⟨i, hi, he⟩
      rw [List.mem_cons, List.mem_singleton] at he
      rcases he with rfl | rfl
      · exact h hm i hi
      · exact hi
  · simp only [hm, false_imp_iff, iff_true]
    rintro e ⟨i, hi, he⟩
    rw [List.mem_singleton.1 he]
    exact hi

end Lengths

variable {ι : Type} [DecidableEq ι] {shardFor : Bytes → ι} {self : ι} {argv keys : List Bytes}

theorem keys_of_mset (h : plan shardFor self argv = .fanOut keys) (hm : lowercase (cmdName argv) = ascii "mset") :
    0 < keys.length ∧ keys.length = argv.length / 2 := by
  obtain ⟨spec, hr, rfl⟩ := plan_fanOut h
  have hs := route_spec hr ((find_mem (route_ok hr).1).2.trans hm) rfl
  have hlen : (extractKeys spec argv).length = argv.length / 2 := by
    rw [hs]
    exact extractKeys_mset_length rfl rfl rfl
  have har : 3 ≤ argv.length := by
    have := arity_le (route_ok hr).2
    rw [hs] at this
    exact this
  omega

/-- Every index that `begin_multikey` uses is in range, unless it is given an `MSET` whose last
key has no value. -/
theorem multikey_in_range_iff (h : plan shardFor self argv = .fanOut keys) :
    (∀ e ∈ multikeyIndexes argv keys, e.1 < e.2) ↔
      ¬(lowercase (cmdName argv) = ascii "mset" ∧ argv.length % 2 = 0) := by
  rw [multikeyIndexes_ok, not_and]
  refine forall_congr' fun hm => ?_
  obtain ⟨hpos, hlen⟩ := keys_of_mset h hm
  rw [value_indexes_iff hpos hlen]
  omega

theorem multikey_in_range_mset :
    (4, 5) ∈ multikeyIndexes [ascii "MSET", [97], [49], [98], [50]] [[97], [98]] ∧
      ∀ e ∈ multikeyIndexes [ascii "MSET", [97], [49], [98], [50]] [[97], [98]], e.1 < e.2 := by
  have hplan : plan (fun k => decide (k = [97])) true [ascii "MSET", [97], [49], [98], [50]] = .fanOut [[97], [98]] := rfl
  exact ⟨by decide, (multikey_in_range_iff hplan).2 (by decide)⟩

/-- `MSET a 1 b` with `a` and `b` on different shards reads the argument behind the last. -/
theorem mset_reads_past_end : ¬ ∀ (shardFor : Bytes → Bool) (self : Bool) (argv keys : List Bytes),
    plan shardFor self argv = .fanOut keys → ∀ e ∈ multikeyIndexes argv keys, e.1 < e.2 := by
  intro h
  exact absurd (h (fun k => decide (k = [97])) true [ascii "MSET", [97], [49], [98]] [[97], [98]] rfl (4, 4)
    (by decide)) (by decide)

end BlazeKV
