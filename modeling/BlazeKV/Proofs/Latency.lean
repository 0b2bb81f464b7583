import BlazeKV.Lib.Ranks
import BlazeKV.Spec.Metrics

/-! What a latency histogram counts, and the percentiles that are read from it. The scan for one
shard rounds the rank upwards, the one for all shards downwards. -/

namespace BlazeKV.LatencyHistogram

open Lib

variable {b : Bounds} {x y : ℕ}

theorem Bounds.mono (b : Bounds) {i j : ℕ} (h : i ≤ j) (hj : j ≤ kBuckets) : b.bound i ≤ b.bound j := by
  rcases h.eq_or_lt with rfl | h
  · exact le_rfl
  · exact (b.increasing i j h hj).le

theorem bucketFor_lt (b : Bounds) (x : ℕ) : bucketFor b x < kBuckets := by
  unfold bucketFor
  dsimp only
  split_ifs with h
  · decide
  · exact not_le.1 h

/-- Below the last bucket, those up to `k` hold what is below bound `k`. -/
theorem bucketFor_le_iff {k : ℕ} (hk : k + 1 < kBuckets) : bucketFor b x ≤ k ↔ (x : ℚ) < b.bound k := by
  unfold bucketFor
  dsimp only
  constructor
  · intro h
    split_ifs at h with hidx
    · omega
    · have hp := List.findIdx_getElem (w := (not_le.1 hidx).trans_eq List.length_range.symm)
      rw [List.getElem_range, decide_eq_true_eq] at hp
      exact hp.trans_le (Bounds.mono b h (by omega))
  · intro h
    have hle : (List.range kBuckets).findIdx (fun i => decide ((x : ℚ) < b.bound i)) ≤ k := by
      by_contra hgt
      have := List.not_of_lt_findIdx (not_le.1 hgt)
      rw [List.getElem_range] at this
      simp [h] at this
    rwa [if_neg (by omega)]

theorem bucketFor_mono (h : x ≤ y) : bucketFor b x ≤ bucketFor b y := by
  have hy := bucketFor_lt b y
  by_cases hk : bucketFor b y + 1 < kBuckets
  · have hxy : (x : ℚ) ≤ y := by exact_mod_cast h
    exact (bucketFor_le_iff hk).2 (hxy.trans_lt ((bucketFor_le_iff hk).1 le_rfl))
  · have := bucketFor_lt b x
    omega

/-- A latency below the top is at most the upper bound of its bucket, and of those above it. -/
theorem le_bound {i : ℕ} (hi : i < kBuckets) (hx : (x : ℚ) < b.bound kBuckets) (h : bucketFor b x ≤ i) :
    (x : ℚ) ≤ b.bound (i + 1) := by
  by_cases hk : i + 1 < kBuckets
  · exact ((bucketFor_le_iff hk).1 h).le.trans (Bounds.mono b (Nat.le_succ i) hk.le)
  · rw [show i + 1 = kBuckets by omega]
    exact hx.le

/-- The histogram of some latencies. -/
def recorded (b : Bounds) (xs : List ℕ) : LatencyHistogram := xs.foldl (record b) new

theorem recorded_snoc (xs : List ℕ) : recorded b (xs ++ [x]) = (recorded b xs).record b x := by
  simp [recorded, List.foldl_append]

theorem recorded_total (xs : List ℕ) : (recorded b xs).total = xs.length := by
  induction xs using List.reverseRecOn with
  | nil => rfl
  | append_singleton xs x ih =>
    rw [recorded_snoc, record, ih, List.length_append, List.length_singleton]

theorem recorded_counts (xs : List ℕ) : (recorded b xs).counts.length = kBuckets ∧
    ∀ i, (recorded b xs).bucketCount i = xs.countP fun x => bucketFor b x = i := by
  induction xs using List.reverseRecOn with
  | nil =>
    refine ⟨List.length_replicate, fun i => ?_⟩
    by_cases hi : i < kBuckets <;> simp [recorded, new, bucketCount, hi]
  | append_singleton xs x ih =>
    obtain ⟨hlen, hcount⟩ := ih
    rw [recorded_snoc]
    refine ⟨by rw [record, List.length_set, hlen], fun i => ?_⟩
    have hlt : bucketFor b x < (recorded b xs).counts.length := hlen ▸ bucketFor_lt b x
    rw [List.countP_append, ← hcount i]
    by_cases hi : bucketFor b x = i
    · subst hi
      simp [bucketCount, record, List.getD, hlt]
    · simp [bucketCount, record, List.getD, hi]

section Shards

variable (shards : List (List ℕ))

theorem totalCount_recorded : totalCount (shards.map (recorded b)) = shards.flatten.length := by
  simp [totalCount, List.length_flatten, Function.comp_def, recorded_total]

theorem sumBucket_recorded (i : ℕ) :
    sumBucket (shards.map (recorded b)) i = shards.flatten.countP fun x => bucketFor b x = i := by
  simp [sumBucket, List.countP_flatten, Function.comp_def, (recorded_counts _).2]

end Shards

/-- The latencies in the buckets below `i`. -/
def below (b : Bounds) (xs : List ℕ) (i : ℕ) : ℕ := xs.countP fun x => bucketFor b x < i

theorem below_zero (xs : List ℕ) : below b xs 0 = 0 := by simp [below]

theorem below_succ (xs : List ℕ) (i : ℕ) :
    below b xs i + xs.countP (fun x => bucketFor b x = i) = below b xs (i + 1) := by
  unfold below
  induction xs with
  | nil => rfl
  | cons x xs ih =>
    simp only [List.countP_cons, decide_eq_true_eq]
    split_ifs <;> omega

theorem below_all (xs : List ℕ) : below b xs kBuckets = xs.length := by
  rw [below, List.countP_eq_length]
  exact fun x _ => decide_eq_true (bucketFor_lt b x)

/-- The scan ends at the first bucket up to which there are enough. -/
theorem scan_eq_some {xs : List ℕ} {count : ℕ → ℕ} {target : ℕ}
    (hcount : ∀ i, count i = xs.countP fun x => bucketFor b x = i)
    (rounds : ℕ) {i k : ℕ} (hik : i ≤ k) (hk : k < i + rounds) (henough : target ≤ below b xs (k + 1))
    (hfirst : ∀ j < k, below b xs (j + 1) < target) :
    scan count target rounds i (below b xs i) = some k := by
  induction rounds generalizing i with
  | zero => omega
  | succ rounds ih =>
    rw [scan, hcount, below_succ]
    rcases hik.eq_or_lt with rfl | hlt
    · rw [if_pos henough]
    · rw [if_neg (not_le.2 (hfirst i hlt))]
      exact ih hlt (by omega)

/-- The bucket of the latency of rank `t`; the first one for rank 0. -/
def bucketAt (b : Bounds) (xs : List ℕ) (t : ℕ) : ℕ := if t = 0 then 0 else bucketFor b (ranked xs t)

theorem bucketAt_lt (xs : List ℕ) (t : ℕ) : bucketAt b xs t < kBuckets := by
  unfold bucketAt
  split_ifs
  · decide
  · exact bucketFor_lt b _

theorem le_below_iff {xs : List ℕ} {t i : ℕ} (h1 : 1 ≤ t) (ht : t ≤ xs.length) :
    t ≤ below b xs (i + 1) ↔ bucketFor b (ranked xs t) ≤ i := by
  rw [below, le_countP_iff (fun x y hxy hy => ?_) h1 ht, decide_eq_true_eq, Nat.lt_succ_iff]
  have := bucketFor_mono (b := b) hxy
  simp only [decide_eq_true_eq] at hy ⊢
  omega

theorem scan_rank {xs : List ℕ} {count : ℕ → ℕ} {t : ℕ}
    (hcount : ∀ i, count i = xs.countP fun x => bucketFor b x = i)
    (ht : t ≤ xs.length) : scan count t kBuckets 0 0 = some (bucketAt b xs t) := by
  have hlt : bucketAt b xs t < 0 + kBuckets := (Nat.zero_add kBuckets).symm ▸ bucketAt_lt xs t
  suffices hscan : scan count t kBuckets 0 (below b xs 0) =
    some (bucketAt b xs t) by rwa [below_zero] at hscan
  refine scan_eq_some hcount kBuckets (Nat.zero_le _) hlt ?_ fun j hj => ?_
  · rcases Nat.eq_zero_or_pos t with rfl | h1
    · exact Nat.zero_le _
    · exact (le_below_iff h1 ht).2 (by rw [bucketAt, if_neg h1.ne'])
  · rcases Nat.eq_zero_or_pos t with rfl | h1
    · exact absurd hj (Nat.not_lt_zero j)
    · rw [bucketAt, if_neg h1.ne'] at hj
      exact not_le.1 fun hle => not_le.2 hj ((le_below_iff h1 ht).1 hle)

section Percentiles

variable {p : ℚ} {xs : List ℕ}

/-- A value covers a fraction `p` of some latencies if it is at least as large as so many of them. -/
def Covered (p : ℚ) (xs : List ℕ) (value : ℕ) : Prop := p * xs.length ≤ xs.countP fun x => x ≤ value

theorem ceil_rank (hp : 0 < p) (hp1 : p ≤ 1) (hne : xs ≠ []) :
    1 ≤ ⌈p * xs.length⌉₊ ∧ ⌈p * xs.length⌉₊ ≤ xs.length := by
  have hlen : (0 : ℚ) < xs.length := by exact_mod_cast List.length_pos_iff.2 hne
  exact ⟨Nat.one_le_iff_ne_zero.2 (Nat.ceil_pos.2 (mul_pos hp hlen)).ne',
    Nat.ceil_le.2 (mul_le_of_le_one_left hlen.le hp1)⟩

/-- The integer part of a bound covers as much as the bound. -/
theorem covered_bound_iff (hone : b.bound 0 = 1) (hp : 0 < p) (hp1 : p ≤ 1) (hne : xs ≠ []) {i : ℕ}
    (hi : i ≤ kBuckets) :
    Covered p xs ⌊b.bound i⌋₊ ↔ ((ranked xs ⌈p * xs.length⌉₊ : ℕ) : ℚ) ≤ b.bound i := by
  have hpos : 0 ≤ b.bound i := zero_le_one.trans (hone ▸ Bounds.mono b (Nat.zero_le i) hi)
  obtain ⟨h1, hle⟩ := ceil_rank hp hp1 hne
  rw [Covered, ← Nat.ceil_le,
    le_countP_iff (fun x y hxy hy => decide_eq_true (hxy.trans (of_decide_eq_true hy))) h1 hle,
    decide_eq_true_eq, Nat.le_floor_iff hpos]

theorem recorded_select (hp1 : p ≤ 1) :
    (recorded b xs).select p = some (bucketAt b xs ⌈p * xs.length⌉₊) := by
  rw [select, recorded_total]
  exact scan_rank (recorded_counts xs).2 (Nat.ceil_le.2 (mul_le_of_le_one_left (Nat.cast_nonneg _) hp1))

/-- Rounding the rank upwards, what a shard reports is always large enough. -/
theorem percentile_covered (hone : b.bound 0 = 1) (hp : 0 < p) (hp1 : p ≤ 1)
    (htop : ∀ x ∈ xs, (x : ℚ) < b.bound kBuckets) :
    Covered p xs ((recorded b xs).percentile b p) := by
  rcases eq_or_ne xs [] with rfl | hne
  · simp [Covered]
  · obtain ⟨h1, hle⟩ := ceil_rank hp hp1 hne
    have hlt := bucketAt_lt (b := b) xs ⌈p * xs.length⌉₊
    rw [percentile, recorded_total, if_neg (List.length_pos_iff.2 hne).ne', recorded_select hp1]
    refine (covered_bound_iff hone hp hp1 hne hlt).2 (le_bound hlt (htop _ (ranked_mem h1 hle)) ?_)
    rw [bucketAt, if_neg (Nat.one_le_iff_ne_zero.1 h1)]

variable {shards : List (List ℕ)}

theorem aggregate_select (hp1 : p ≤ 1) : aggregateSelect (shards.map (recorded b)) p =
    some (bucketAt b shards.flatten ⌊p * shards.flatten.length⌋₊) := by
  have hle : p * (shards.flatten.length : ℚ) ≤ shards.flatten.length :=
    mul_le_of_le_one_left (Nat.cast_nonneg _) hp1
  rw [aggregateSelect, totalCount_recorded]
  exact scan_rank (sumBucket_recorded shards) (Nat.floor_le_of_le hle)

theorem aggregate_percentile (hp1 : p ≤ 1) (hne : shards.flatten ≠ []) :
    aggregatePercentile b (shards.map (recorded b)) p =
      ⌊b.bound (bucketAt b shards.flatten ⌊p * shards.flatten.length⌋₊ + 1)⌋₊ := by
  have hlt := bucketAt_lt (b := b) shards.flatten ⌊p * shards.flatten.length⌋₊
  rw [aggregatePercentile, totalCount_recorded, if_neg (List.length_pos_iff.2 hne).ne',
    aggregate_select hp1]
  show ⌊bucketBoundSeconds b _ * 10 ^ 6⌋₊ = _
  rw [bucketBoundSeconds, min_eq_left (Nat.succ_le_of_lt hlt), div_mul_cancel₀ _ (by norm_num)]

/-- What the server and its shards report of the latencies: enough for a fraction `p`, and of one
shard the same. -/
def PercentilesAgree (b : Bounds) (shards : List (List ℕ)) (p : ℚ) : Prop :=
  (∀ xs ∈ shards, Covered p xs ((recorded b xs).percentile b p)) ∧
    Covered p shards.flatten (aggregatePercentile b (shards.map (recorded b)) p) ∧
    ∀ xs, shards = [xs] → aggregateSelect (shards.map (recorded b)) p = (recorded b xs).select p

/-- Nothing is lost when the rank is rounded downwards: the bucket of the lower rank covers the
latency of the upper one, and of a single shard it holds it. -/
def RankKept (b : Bounds) (shards : List (List ℕ)) (p : ℚ) : Prop :=
  let xs := shards.flatten
  let upper := ranked xs ⌈p * xs.length⌉₊
  let lower := bucketAt b xs ⌊p * xs.length⌋₊
  (upper : ℚ) ≤ b.bound (lower + 1) ∧ (shards.length = 1 → bucketFor b upper = lower)

/-- The percentiles are right exactly when rounding the rank downwards loses nothing. -/
theorem percentiles_agree_iff (hone : b.bound 0 = 1) (hp : 0 < p) (hp1 : p ≤ 1)
    (hne : shards.flatten ≠ [])
    (htop : ∀ x ∈ shards.flatten, (x : ℚ) < b.bound kBuckets) :
    PercentilesAgree b shards p ↔ RankKept b shards p := by
  have hshard : ∀ xs ∈ shards, Covered p xs ((recorded b xs).percentile b p) := fun xs hxs =>
    percentile_covered hone hp hp1 fun x hx => htop x (List.mem_flatten.2 ⟨xs, hxs, hx⟩)
  have hcover := covered_bound_iff hone hp hp1 hne
    (bucketAt_lt (b := b) shards.flatten ⌊p * shards.flatten.length⌋₊)
  rw [PercentilesAgree, aggregate_percentile hp1 hne, RankKept]
  refine Iff.trans ⟨fun h => h.2, fun h => ⟨hshard, h⟩⟩ (and_congr hcover ?_)
  rw [List.length_eq_one_iff]
  constructor
  · rintro h ⟨xs, rfl⟩
    have hsel := h xs rfl
    have h1 := (ceil_rank hp hp1 hne).1
    rw [aggregate_select hp1, recorded_select hp1, Option.some_inj] at hsel
    rw [hsel, List.flatten_singleton, bucketAt, if_neg (Nat.one_le_iff_ne_zero.1 (by simpa using h1))]
  · rintro h xs rfl
    have h1 := (ceil_rank hp hp1 hne).1
    rw [aggregate_select hp1, recorded_select hp1, ← h ⟨xs, rfl⟩, List.flatten_singleton, bucketAt,
      if_neg (Nat.one_le_iff_ne_zero.1 (by simpa using h1))]

theorem rankKept_of_whole (hp : 0 < p) (hp1 : p ≤ 1) (hne : shards.flatten ≠ [])
    (htop : ∀ x ∈ shards.flatten, (x : ℚ) < b.bound kBuckets)
    (hwhole : ⌊p * shards.flatten.length⌋₊ = ⌈p * shards.flatten.length⌉₊) : RankKept b shards p := by
  obtain ⟨h1, hle⟩ := ceil_rank hp hp1 hne
  have hlt := bucketAt_lt (b := b) shards.flatten ⌈p * shards.flatten.length⌉₊
  have hat : bucketAt b shards.flatten ⌈p * shards.flatten.length⌉₊ =
      bucketFor b (ranked shards.flatten ⌈p * shards.flatten.length⌉₊) :=
      if_neg (Nat.one_le_iff_ne_zero.1 h1)
  rw [RankKept, hwhole]
  exact ⟨le_bound hlt (htop _ (ranked_mem h1 hle)) hat.ge, fun _ => hat.symm⟩

/-- Bounds that grow as those of `bounds()`. -/
def geometric : Bounds where
  bound i := (10356 / 10000) ^ i
  increasing _ _ h _ := pow_lt_pow_right₀ (by norm_num) h

theorem geometric_top : (19 : ℚ) ≤ geometric.bound kBuckets :=
  (one_add_mul_le_pow (a := (356 / 10000 : ℚ)) (by norm_num) kBuckets).trans'
    (by norm_num [kBuckets]) |>.trans_eq (by norm_num [geometric])

theorem percentiles_agree_of_two : PercentilesAgree geometric [[3], [5]] 1 ∧
    RankKept geometric [[3], [5]] 1 := by
  have htop : ∀ x ∈ ([[3], [5]] : List (List ℕ)).flatten, (x : ℚ) < geometric.bound kBuckets := by
    intro x hx
    refine lt_of_lt_of_le ?_ geometric_top
    rcases (show x = 3 ∨ x = 5 by simpa using hx) with rfl | rfl <;> norm_num
  have hkept := rankKept_of_whole one_pos le_rfl (by decide) htop (by norm_num)
  exact ⟨(percentiles_agree_iff (pow_zero _) one_pos le_rfl (by decide) htop).2 hkept, hkept⟩

/-- Of one command of three microseconds the median is reported as one microsecond. -/
theorem median_too_low : ¬∀ (b : Bounds) (shards : List (List ℕ)) (p : ℚ), b.bound 0 = 1 → 0 < p →
    p ≤ 1 →
    shards.flatten ≠ [] → (∀ x ∈ shards.flatten, (x : ℚ) < b.bound kBuckets) →
    PercentilesAgree b shards p := by
  intro h
  have htop : ∀ x ∈ ([[3]] : List (List ℕ)).flatten, (x : ℚ) < geometric.bound kBuckets := by
    intro x hx
    rw [show x = 3 by simpa using hx]
    exact lt_of_lt_of_le (by norm_num) geometric_top
  have hbad := (h geometric [[3]] (1 / 2) (pow_zero _) (by norm_num) (by norm_num) (by decide) htop).2.1
  have hvalue : aggregatePercentile geometric ([[3]].map (recorded geometric)) (1 / 2) = 1 := by
    rw [aggregate_percentile (by norm_num) (by decide),
      show ⌊(1 / 2 : ℚ) * ([[3]] : List (List ℕ)).flatten.length⌋₊ = 0 from by norm_num,
      bucketAt, if_pos rfl, geometric]
    exact (Nat.floor_eq_iff (by norm_num)).2 (by norm_num)
  rw [hvalue, Covered] at hbad
  norm_num at hbad

end Percentiles

end BlazeKV.LatencyHistogram
