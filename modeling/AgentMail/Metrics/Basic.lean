import AgentMail.Lib.OrderStatistic
import AgentMail.Lib.Saturating
import Mathlib.Algebra.Order.Floor.Div

namespace Metrics

def log2Buckets : Nat := 64

structure Log2Histogram where
  buckets : List Nat
  count   : Nat
  sum     : Nat
  min     : Nat
  max     : Nat
  deriving DecidableEq

structure HistogramSnapshot where
  count : Nat
  sum   : Nat
  min   : Nat
  max   : Nat
  p50   : Nat
  p95   : Nat
  p99   : Nat
  deriving DecidableEq

def leadingZeros (value : Nat) : Nat :=
  if value = 0 then 64 else 63 - value.log2

def bucketIndex (value : Nat) : Nat :=
  if value = 0 then 0 else 63 - leadingZeros value

def bucketUpperBound (idx : Nat) : Nat :=
  if idx ≥ 63 then 2 ^ 64 - 1 else 2 ^ (idx + 1) - 1

-- The bucket in which the cumulative count reaches the rank.
def scanBuckets (rank observedMax : Nat) : List Nat → Nat → Nat → Nat
  | [], _, _                       => observedMax
  | c :: buckets, idx, cumulative =>
    let cumulative := U64.saturate (cumulative + c)
    if cumulative ≥ rank then
      min (bucketUpperBound idx) observedMax
    else
      scanBuckets rank observedMax buckets (idx + 1) cumulative

def estimateQuantileFromBuckets (buckets : List Nat)
    (count numerator denominator observedMax : Nat) : Nat :=
  let denom := max denominator 1
  let numerator := min numerator denom
  let rank := U64.saturate (U64.saturate (count * numerator) + (denom - 1)) / denom
  scanBuckets (max 1 (min rank count)) observedMax buckets 0 0

def fetchAdd (v value : Nat) : Nat :=
  (v + value) % 2 ^ 64

def fetchMax (cur value : Nat) : Nat :=
  if value > cur then value else cur

namespace Log2Histogram

def new : Log2Histogram where
  buckets := .replicate log2Buckets 0
  count   := 0
  sum     := 0
  min     := 2 ^ 64 - 1
  max     := 0

variable (h : Log2Histogram)

def record (value : Nat) : Log2Histogram where
  sum     := fetchAdd h.sum value
  min     := Min.min h.min value
  max     := fetchMax h.max value
  buckets := h.buckets.modify (bucketIndex value) (fetchAdd · 1)
  count   := fetchAdd h.count 1

def snapshot : HistogramSnapshot :=
  if h.count = 0 then
    { count := 0, sum := 0, min := 0, max := 0, p50 := 0, p95 := 0, p99 := 0 }
  else
    {
      count := h.count
      sum   := h.sum
      min   := Min.min h.min h.max
      max   := h.max
      p50   := estimateQuantileFromBuckets h.buckets h.count 1 2 h.max
      p95   := estimateQuantileFromBuckets h.buckets h.count 19 20 h.max
      p99   := estimateQuantileFromBuckets h.buckets h.count 99 100 h.max
    }

end Log2Histogram

def Log2Histogram.after (values : List Nat) : Log2Histogram :=
  values.foldl record new

-- The estimate is not below the quantile, and at most about twice as large.
def Brackets (values : List Nat) (numerator denominator observedMax estimate : Nat) : Prop :=
  ∃ t, nthSmallest values ((numerator * values.length) ⌈/⌉ denominator) = some t ∧
    t ≤ estimate ∧ estimate ≤ min observedMax (2 * t + 1)

structure HistogramSnapshot.Describes (s : HistogramSnapshot) (values : List Nat) : Prop where
  min     : values.min? = some s.min
  max     : values.max? = some s.max
  p50     : Brackets values 1 2 s.max s.p50
  p95     : Brackets values 19 20 s.max s.p95
  p99     : Brackets values 99 100 s.max s.p99
  min_p50 : s.min ≤ s.p50
  p50_p95 : s.p50 ≤ s.p95
  p95_p99 : s.p95 ≤ s.p99
  p99_max : s.p99 ≤ s.max

end Metrics
