import BlazeKV.Proofs.Latency

/-! The lines of the exported latency histogram. A group of eight buckets holds what is below the
bound before the one that it is labelled with. -/

namespace BlazeKV.LatencyHistogram

variable {b : Bounds} {shards : List (List ℕ)}

theorem below_add (b : Bounds) (shards : List (List ℕ)) (i m : ℕ) : below b shards.flatten i +
    ((List.range' i m).map (sumBucket (shards.map (recorded b)))).sum =
    below b shards.flatten (i + m) := by
  induction m with
  | zero => simp
  | succ m ih =>
    rw [List.range'_concat, List.map_append, List.sum_append, ← Nat.add_assoc, ih]
    simp [sumBucket_recorded, ← below_succ, ← Nat.add_assoc]

theorem below_mono (xs : List ℕ) {i j : ℕ} (h : i ≤ j) : below b xs i ≤ below b xs j :=
  List.countP_mono_left fun _ _ hx => decide_eq_true ((of_decide_eq_true hx).trans_le h)

/-- The line of group `g`. -/
def groupLine (b : Bounds) (xs : List ℕ) (g : ℕ) : ℚ × ℕ :=
  (b.bound (8 * g + 8) / 10 ^ 6, below b xs (8 * g + 8))

theorem groupRounds {n : ℕ} (hn : 8 * n ≤ kBuckets) :
    let r := (List.range' 0 n 8).foldl (groupRound b (shards.map (recorded b))) ([], 0, 0)
    r.1 = (List.range n).map (groupLine b shards.flatten) ∧ r.2.1 = below b shards.flatten (8 * n) := by
  induction n with
  | zero => exact ⟨rfl, (below_zero _).symm⟩
  | succ n ih =>
    obtain ⟨hlines, hsum⟩ := ih (by omega)
    have hall : (List.range' (8 * n) 8).filter (· < kBuckets) = List.range' (8 * n) 8 := by
      rw [List.filter_eq_self]
      intro j hj
      rw [List.mem_range'_1] at hj
      exact decide_eq_true (by omega)
    have hc := below_add b shards (8 * n) 8
    dsimp only
    rw [List.range'_concat, List.foldl_append, List.foldl_cons, List.foldl_nil, Nat.zero_add,
      groupRound, hlines, hsum, hall, hc, List.range_succ, List.map_append, bucketBoundSeconds]
    rw [min_eq_left (min_le_right _ _), min_eq_left (by omega)]
    exact ⟨rfl, rfl⟩

theorem rendered_buckets : (renderLatency b (shards.map (recorded b))).buckets =
    (List.range 64).map (groupLine b shards.flatten) := (groupRounds (n := 64) le_rfl).1

section Exactness

variable {xs : List ℕ}

/-- A line is exact if it counts the latencies up to its bound. -/
def ExactLine (xs : List ℕ) (line : ℚ × ℕ) : Prop :=
  line.2 = xs.countP fun x : ℕ => (x : ℚ) / 10 ^ 6 ≤ line.1

/-- A wider count is the same exactly when nothing is added. -/
theorem countP_eq_iff {p q : ℕ → Bool} (hpq : ∀ x, p x = true → q x = true) :
    xs.countP p = xs.countP q ↔ ∀ x ∈ xs, q x = true → p x = true := by
  induction xs with
  | nil => simp
  | cons x xs ih =>
    have hle : xs.countP p ≤ xs.countP q := List.countP_mono_left fun y _ => hpq y
    simp only [List.countP_cons, List.forall_mem_cons, ← ih]
    cases hp : p x with
    | true => simp [hpq x hp]
    | false =>
      cases hq : q x with
      | true =>
        simp
        omega
      | false => simp

theorem le_bound_iff (x i : ℕ) : (x : ℚ) / 10 ^ 6 ≤ b.bound i / 10 ^ 6 ↔ (x : ℚ) ≤ b.bound i :=
  div_le_div_iff_of_pos_right (by norm_num)

/-- The line of an inner group misses what lies between the last two of its bounds. -/
theorem inner_exact_iff {g : ℕ} (hg : g < 63) : ExactLine xs (groupLine b xs g) ↔
    ∀ x ∈ xs, ¬(b.bound (8 * g + 7) ≤ x ∧ (x : ℚ) ≤ b.bound (8 * g + 8)) := by
  have hk : 8 * g + 7 + 1 < kBuckets := by
    unfold kBuckets
    omega
  have hcount : below b xs (8 * g + 8) = xs.countP fun x : ℕ => (x : ℚ) < b.bound (8 * g + 7) := by
    refine List.countP_congr fun x _ => ?_
    rw [decide_eq_true_eq, decide_eq_true_eq, ← bucketFor_le_iff hk, ← Nat.lt_succ_iff]
  simp only [ExactLine, groupLine, hcount, le_bound_iff]
  rw [countP_eq_iff fun x hx => decide_eq_true
    ((of_decide_eq_true hx).le.trans (Bounds.mono b (Nat.le_succ _) hk.le))]
  refine forall₂_congr fun x _ => ?_
  rw [decide_eq_true_eq, decide_eq_true_eq, ← not_le, not_and, imp_not_comm]

/-- The line of the last group counts everything. -/
theorem last_exact_iff : ExactLine xs (groupLine b xs 63) ↔ ∀ x ∈ xs, (x : ℚ) ≤ b.bound kBuckets := by
  have hall : below b xs (8 * 63 + 8) = xs.length := below_all xs
  simp only [ExactLine, groupLine, hall, le_bound_iff]
  rw [eq_comm, List.countP_eq_length]
  exact forall₂_congr fun x _ => decide_eq_true_iff

end Exactness

/-- What readers of the export rely on. -/
structure ProperLines (xs : List ℕ) (lines : LatencyLines) : Prop where
  exact : ∀ line ∈ lines.buckets, ExactLine xs line
  mono : ∀ line ∈ lines.buckets, ∀ line' ∈ lines.buckets, line.1 ≤ line'.1 → line.2 ≤ line'.2
  inf : lines.inf = lines.count
  count : lines.count = xs.length

/-- No latency lies where an inner group does not count it, and none above the last bound. -/
def OffTheGaps (b : Bounds) (xs : List ℕ) : Prop := ∀ x ∈ xs,
  (∀ g < 63, ¬(b.bound (8 * g + 7) ≤ x ∧ (x : ℚ) ≤ b.bound (8 * g + 8))) ∧ (x : ℚ) ≤ b.bound kBuckets

/-- The bounds of the lines grow with the groups. -/
theorem group_le {g g' : ℕ} (hg : g < 64)
    (h : b.bound (8 * g + 8) / 10 ^ 6 ≤ b.bound (8 * g' + 8) / 10 ^ 6) : g ≤ g' := by
  by_contra hlt
  have hinc := b.increasing (8 * g' + 8) (8 * g + 8) (by omega) (by unfold kBuckets; omega)
  exact absurd ((div_le_div_iff_of_pos_right (by norm_num)).1 h) (not_le.2 hinc)

/-- The exported lines are right exactly when all latencies are off the gaps. -/
theorem properLines_iff : ProperLines shards.flatten (renderLatency b (shards.map (recorded b))) ↔
    OffTheGaps b shards.flatten := by
  have hline : ∀ line, line ∈ (renderLatency b (shards.map (recorded b))).buckets ↔
      ∃ g < 64, groupLine b shards.flatten g = line := by
    intro line
    rw [rendered_buckets, List.mem_map]
    simp only [List.mem_range]
  constructor
  · intro h x hx
    refine ⟨fun g hg => ?_, ?_⟩
    · exact (inner_exact_iff hg).1 (h.exact _ ((hline _).2 ⟨g, by omega, rfl⟩)) x hx
    · exact last_exact_iff.1 (h.exact _ ((hline _).2 ⟨63, by omega, rfl⟩)) x hx
  · intro h
    refine ⟨fun line hmem => ?_, fun line hmem line' hmem' hle => ?_, rfl, totalCount_recorded shards⟩
    · obtain ⟨g, hg, rfl⟩ := (hline line).1 hmem
      rcases Nat.lt_succ_iff_lt_or_eq.1 hg with hg | rfl
      · exact (inner_exact_iff hg).2 fun x hx => (h x hx).1 g hg
      · exact last_exact_iff.2 fun x hx => (h x hx).2
    · obtain ⟨g, hg, rfl⟩ := (hline line).1 hmem
      obtain ⟨g', hg', rfl⟩ := (hline line').1 hmem'
      have := group_le hg hle
      exact below_mono _ (by omega)

/-- A latency of three microseconds is not counted up to the bound 32, which is above it. -/
theorem line_misses : ¬∀ (b : Bounds) (shards : List (List ℕ)),
    ProperLines shards.flatten (renderLatency b (shards.map (recorded b))) := by
  intro h
  have hmem : groupLine geometric [3] 3 ∈ (renderLatency geometric
    ([[3]].map (recorded geometric))).buckets := by
    rw [rendered_buckets]
    exact List.mem_map_of_mem (List.mem_range.2 (by omega))
  have hexact : ExactLine [3] (groupLine geometric [3] 3) := (h geometric [[3]]).exact _ hmem
  exact (inner_exact_iff (by omega)).1 hexact 3 (List.mem_singleton_self 3)
    ⟨by norm_num [geometric], by norm_num [geometric]⟩

end BlazeKV.LatencyHistogram
