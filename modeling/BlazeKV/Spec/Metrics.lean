import BlazeKV.Spec.Bytes
import Mathlib.Algebra.Order.Floor.Semiring
import Mathlib.Data.Rat.Floor

/-! `metrics.cpp` and its readers in `server.cpp`: the latency histogram, percentiles of one shard
and of all, and the histogram that Prometheus reads. Bounds are exact numbers here. -/

namespace BlazeKV

def kBuckets : ℕ := 512

/-- The bounds of the buckets in microseconds, one more than there are buckets. -/
structure Bounds where
  bound : ℕ → ℚ
  increasing : ∀ i j, i < j → j ≤ kBuckets → bound i < bound j

/-- Counters of events do not come near `2 ^ 64`; the sum of the latencies may. -/
structure LatencyHistogram where
  counts : List ℕ
  total : ℕ
  sum : ℕ
  max : ℕ

namespace LatencyHistogram

def new : LatencyHistogram := ⟨List.replicate kBuckets 0, 0, 0, 0⟩

variable (b : Bounds)

/-- `std::upper_bound` over all bounds but the last, and the clamp of its position. -/
def bucketFor (micros : ℕ) : ℕ :=
  let idx := (List.range kBuckets).findIdx fun i => (micros : ℚ) < b.bound i
  if idx ≥ kBuckets then kBuckets - 1 else idx

def bucketCount (h : LatencyHistogram) (i : ℕ) : ℕ := h.counts.getD i 0

def record (h : LatencyHistogram) (micros : ℕ) : LatencyHistogram where
  counts := h.counts.set (bucketFor b micros) (h.bucketCount (bucketFor b micros) + 1)
  total := h.total + 1
  sum := u64 (h.sum + micros)
  max := Nat.max h.max micros

/-- The scans over the buckets: the first one at which the counts so far reach the target. -/
def scan (count : ℕ → ℕ) (target : ℕ) : ℕ → ℕ → ℕ → Option ℕ
  | 0, _, _ => none
  | rounds + 1, i, cumulative =>
    if cumulative + count i ≥ target then some i else scan count target rounds (i + 1)
    (cumulative + count i)

/-- The bucket that `percentile` selects. -/
def select (h : LatencyHistogram) (p : ℚ) : Option ℕ := scan h.bucketCount ⌈p * h.total⌉₊ kBuckets 0 0

def percentile (h : LatencyHistogram) (p : ℚ) : ℕ :=
  if h.total = 0 then 0
  else match h.select p with
    | some i => ⌊b.bound (i + 1)⌋₊
    | none => h.max

def bucketBoundSeconds (i : ℕ) : ℚ := b.bound (min i kBuckets) / 10 ^ 6

end LatencyHistogram

open LatencyHistogram

section Readers

variable (b : Bounds) (shards : List LatencyHistogram)

def totalCount : ℕ := (shards.map (·.total)).sum

def sumBucket (i : ℕ) : ℕ := (shards.map (·.bucketCount i)).sum

/-- The bucket that `aggregate_percentile` selects. -/
def aggregateSelect (p : ℚ) : Option ℕ := scan (sumBucket shards) ⌊p * totalCount shards⌋₊ kBuckets 0 0

def aggregatePercentile (p : ℚ) : ℕ :=
  if totalCount shards = 0 then 0
  else match aggregateSelect shards p with
    | some i => ⌊bucketBoundSeconds b (i + 1) * 10 ^ 6⌋₊
    | none => 0

/-- The lines of `command_latency_seconds`: finite buckets with their `le`, and the rest. -/
structure LatencyLines where
  buckets : List (ℚ × ℕ)
  inf : ℕ
  count : ℕ
  sum : ℚ

/-- A round of the loop over groups of eight buckets. -/
def groupRound (acc : List (ℚ × ℕ) × ℕ × ℕ) (start : ℕ) : List (ℚ × ℕ) × ℕ × ℕ :=
  let c := (((List.range' start 8).filter (· < kBuckets)).map (sumBucket shards)).sum
  let cumulative := acc.2.1 + c
  let bound := bucketBoundSeconds b (min (start + 8) kBuckets)
  (acc.1 ++ [(bound, cumulative)], cumulative, acc.2.2 + ⌊c * bound * 10 ^ 6⌋₊)

/-- The histogram part of `render_prometheus`. -/
def renderLatency : LatencyLines :=
  let total := totalCount shards
  let r := (List.range' 0 (kBuckets / 8) 8).foldl (groupRound b shards) ([], 0, 0)
  ⟨r.1, total, total, (r.2.2 : ℚ) / 10 ^ 6⟩

end Readers

end BlazeKV
