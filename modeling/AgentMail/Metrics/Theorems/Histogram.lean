import AgentMail.Metrics.Basic
import Mathlib.Algebra.GroupWithZero.Nat

namespace Metrics

variable {values values' : List Nat}
  {value v w t s idx n rank observedMax numerator denominator : Nat}

section Bucket

theorem bucketIndex_eq (h : v < 2 ^ 64) : bucketIndex v = v.log2 := by
  rw [bucketIndex]
  split
  case isTrue hz  => rw [hz, Nat.log2_zero]
  case isFalse hz =>
    have hl : v.log2 < 64 := (Nat.log2_lt hz).mpr h
    rw [leadingZeros, if_neg hz]
    omega

theorem bucketIndex_lt : bucketIndex v < log2Buckets := by
  rw [bucketIndex]
  split
  case isTrue  => decide
  case isFalse => exact Nat.lt_succ_of_le (Nat.sub_le ..)

theorem bucketIndex_mono (hw : w < 2 ^ 64) (h : v ≤ w) : bucketIndex v ≤ bucketIndex w := by
  rw [bucketIndex_eq (h.trans_lt hw), bucketIndex_eq hw]
  by_cases hz : v = 0
  case pos => simp [hz]
  case neg => exact (Nat.le_log2 (by omega)).mpr ((Nat.log2_self_le hz).trans h)

theorem bucketUpperBound_eq (h : idx < log2Buckets) : bucketUpperBound idx = 2 ^ (idx + 1) - 1 := by
  rw [bucketUpperBound]
  split
  case isFalse => rfl
  case isTrue hi =>
    obtain rfl : idx = 63 := by
      rw [log2Buckets] at h
      omega
    rfl

theorem bucketUpperBound_mono (h : v ≤ w) (hw : w < log2Buckets) :
    bucketUpperBound v ≤ bucketUpperBound w := by
  rw [bucketUpperBound_eq (h.trans_lt hw), bucketUpperBound_eq hw]
  exact Nat.sub_le_sub_right (Nat.pow_le_pow_right (by decide) (by omega)) 1

-- The first bucket is shared by 0 and 1.
theorem mem_bucket (h : v < 2 ^ 64) :
    v ≤ bucketUpperBound (bucketIndex v) ∧ bucketUpperBound (bucketIndex v) ≤ 2 * v + 1 := by
  rw [bucketUpperBound_eq bucketIndex_lt, bucketIndex_eq h]
  have hl : v < 2 ^ (v.log2 + 1) := Nat.lt_log2_self
  refine ⟨by omega, ?_⟩
  by_cases hz : v = 0
  case pos =>
    subst hz
    decide
  case neg =>
    have hs := Nat.log2_self_le hz
    rw [pow_succ]
    omega

end Bucket

section Record

theorem fetchMax_eq (v value : Nat) : fetchMax v value = max v value := by
  rw [fetchMax]
  split <;> omega

theorem fetchAdd_of_lt (h : v + value < 2 ^ 64) : fetchAdd v value = v + value :=
  Nat.mod_eq_of_lt h

theorem fetchAdd_mod (v value : Nat) : fetchAdd (v % 2 ^ 64) value = (v + value) % 2 ^ 64 :=
  Nat.mod_add_mod ..

def inBucket (values : List Nat) (idx : Nat) : Nat :=
  values.countP (bucketIndex · = idx)

theorem modify_buckets (hn : values.length + 1 < 2 ^ 64) :
    ((List.range log2Buckets).map (inBucket values)).modify (bucketIndex value) (fetchAdd · 1) =
      (List.range log2Buckets).map (inBucket (values ++ [value])) := by
  refine List.ext_getElem? fun idx => ?_
  rw [List.getElem?_modify, List.getElem?_map, List.getElem?_map]
  cases h : (List.range log2Buckets)[idx]?
  case none => simp
  case some i =>
    obtain ⟨_, rfl⟩ := List.getElem?_eq_some_iff.mp h
    have hc : inBucket values idx < 2 ^ 64 - 1 := List.countP_le_length.trans_lt (by omega)
    simp only [List.getElem_range, Option.map_some, inBucket, List.countP_append,
      List.countP_singleton, decide_eq_true_eq]
    split
    case isTrue  => exact congrArg some (fetchAdd_of_lt (by rw [inBucket] at hc; omega))
    case isFalse => rfl

-- The histogram does not depend on the order of the values.
theorem after_eq (hv : ∀ v ∈ values, v < 2 ^ 64) (hn : values.length < 2 ^ 64) :
    Log2Histogram.after values =
      {
        buckets := (List.range log2Buckets).map (inBucket values)
        count   := values.length
        sum     := values.sum % 2 ^ 64
        min     := values.foldl min (2 ^ 64 - 1)
        max     := values.foldl max 0
      } := by
  induction values using List.reverseRecOn
  case nil => rfl
  case append_singleton values value hi =>
    have hlen : values.length + 1 < 2 ^ 64 := by simpa using hn
    have hi := hi (fun v hm => hv v (List.mem_append_left _ hm)) (by omega)
    have hv := hv value (List.mem_append_right _ (List.mem_singleton_self _))
    have hstep : Log2Histogram.after (values ++ [value]) =
        (Log2Histogram.after values).record value := List.foldl_append
    rw [hstep, hi, Log2Histogram.record]
    dsimp only
    rw [modify_buckets hlen, fetchMax_eq, fetchAdd_mod, fetchAdd_of_lt hlen]
    simp [List.foldl_append]

theorem after_perm (hp : values'.Perm values) (hv : ∀ v ∈ values, v < 2 ^ 64)
    (hn : values.length < 2 ^ 64) : Log2Histogram.after values' = Log2Histogram.after values := by
  have hb : inBucket values' = inBucket values := funext fun idx => hp.countP_eq _
  rw [after_eq hv hn, after_eq (fun v hm => hv v (hp.mem_iff.mp hm)) (hp.length_eq ▸ hn), hb,
    hp.length_eq, hp.sum_nat, hp.foldl_eq, hp.foldl_eq]

end Record

section Scan

-- How many values are in the buckets before the given one.
def cumulated (values : List Nat) (idx : Nat) : Nat :=
  values.countP (bucketIndex · < idx)

theorem cumulated_succ :
    cumulated values (idx + 1) = cumulated values idx + inBucket values idx := by
  rw [cumulated, cumulated, inBucket]
  induction values
  case nil => rfl
  case cons value values hi =>
    simp only [List.countP_cons, decide_eq_true_eq, hi]
    split <;> split <;> split <;> omega

theorem cumulated_mono (h : idx ≤ n) : cumulated values idx ≤ cumulated values n :=
  List.countP_mono_left fun _ _ hv => decide_eq_true ((of_decide_eq_true hv).trans_le h)

-- The scan stops at the bucket in which the rank lies.
theorem scanBuckets_eq (hn : values.length < 2 ^ 64) (hlt : cumulated values s < rank)
    (hle : rank ≤ cumulated values (s + 1)) (hi : idx ≤ s) (hs : s < idx + n) :
    scanBuckets rank observedMax ((List.range' idx n).map (inBucket values)) idx
      (cumulated values idx) =
      min (bucketUpperBound s) observedMax := by
  induction n generalizing idx
  case zero => omega
  case succ n hind =>
    have hc : U64.saturate (cumulated values idx + inBucket values idx) =
        cumulated values (idx + 1) := by
      rw [← cumulated_succ]
      exact U64.saturate_of_lt (List.countP_le_length.trans_lt hn)
    rw [List.range'_succ, List.map_cons, scanBuckets, hc]
    rcases hi.eq_or_lt with rfl | hi
    case inl => rw [if_pos hle]
    case inr =>
      have hnot : ¬cumulated values (idx + 1) ≥ rank := ((cumulated_mono hi).trans_lt hlt).not_ge
      rw [if_neg hnot]
      exact hind hi (by omega)

end Scan

section Quantile

theorem rank_pos (hne : values ≠ []) (hnum : 0 < numerator) (hden : 0 < denominator) :
    0 < (numerator * values.length) ⌈/⌉ denominator := by
  refine Nat.pos_of_ne_zero fun h => ?_
  have hle := (ceilDiv_le_iff_le_mul hden).mp h.le
  have hpos := Nat.mul_pos hnum (List.length_pos_iff.mpr hne)
  omega

theorem rank_le (hden : 0 < denominator) (hq : numerator ≤ denominator) :
    (numerator * values.length) ⌈/⌉ denominator ≤ values.length :=
  (ceilDiv_le_iff_le_mul hden).mpr (Nat.mul_le_mul_right _ hq)

-- The estimate is the upper bound of the bucket in which the quantile is, if this is not above the
-- maximum.
theorem estimate_eq (hv : ∀ v ∈ values, v < 2 ^ 64) (hne : values ≠ []) (hnum : 0 < numerator)
    (hq : numerator ≤ denominator) (hn : numerator * values.length + (denominator - 1) < 2 ^ 64)
    (ht : nthSmallest values ((numerator * values.length) ⌈/⌉ denominator) = some t) :
    estimateQuantileFromBuckets ((List.range log2Buckets).map (inBucket values)) values.length
      numerator denominator observedMax =
      min (bucketUpperBound (bucketIndex t)) observedMax := by
  have hden : 0 < denominator := hnum.trans_le hq
  have hpos := rank_pos hne hnum hden
  have hle : (numerator * values.length) ⌈/⌉ denominator ≤ values.length := rank_le hden hq
  have hmul : U64.saturate (numerator * values.length) = numerator * values.length :=
    U64.saturate_of_lt (by omega)
  have hrank : U64.saturate (U64.saturate (values.length * min numerator (max denominator 1)) +
      (max denominator 1 - 1)) /
      max denominator 1 = (numerator * values.length) ⌈/⌉ denominator := by
    rw [max_eq_left hden, min_eq_left hq, Nat.mul_comm values.length, hmul, U64.saturate_of_lt hn,
      Nat.ceilDiv_eq_add_pred_div, Nat.add_sub_assoc hden]
  have ⟨hlt, hge⟩ := countP_nthSmallest ht hpos
  have htv : t < 2 ^ 64 := hv t (mem_of_nthSmallest ht)
  have hlen : values.length < 2 ^ 64 := by
    have := Nat.le_mul_of_pos_left values.length hnum
    omega
  have hbelow : cumulated values (bucketIndex t) < (numerator * values.length) ⌈/⌉ denominator := by
    refine (List.countP_mono_left fun v hm hb => decide_eq_true ?_).trans_lt hlt
    by_contra hle
    exact absurd (bucketIndex_mono (hv v hm) (not_lt.mp hle)) (of_decide_eq_true hb).not_ge
  have habove :
      (numerator * values.length) ⌈/⌉ denominator ≤ cumulated values (bucketIndex t + 1) := by
    refine hge.trans (List.countP_mono_left fun v hm hb => decide_eq_true ?_)
    exact Nat.lt_succ_of_le (bucketIndex_mono htv (of_decide_eq_true hb))
  have hzero : cumulated values 0 = 0 := List.countP_eq_zero.mpr fun _ _ => by simp
  rw [estimateQuantileFromBuckets, hrank, min_eq_left hle, max_eq_right hpos, List.range_eq_range']
  refine .trans ?_ (scanBuckets_eq hlen hbelow habove (Nat.zero_le _)
    (bucketIndex_lt.trans_eq (Nat.zero_add _).symm))
  rw [hzero]

end Quantile

section Snapshot

variable (hne : values ≠ []) (hv : ∀ v ∈ values, v < 2 ^ 64)

include hne

theorem max?_eq : values.max? = some (values.foldl max 0) := by
  cases values
  case nil               => exact absurd rfl hne
  case cons value values => rw [List.max?_cons', List.foldl_cons, Nat.zero_max]

theorem le_max (hm : v ∈ values) : v ≤ values.foldl max 0 :=
  (List.max?_eq_some_iff.mp (max?_eq hne)).right v hm

include hv

theorem min?_eq : values.min? = some (values.foldl min (2 ^ 64 - 1)) := by
  cases values
  case nil => exact absurd rfl hne
  case cons value values =>
    have hvalue := hv value (List.mem_cons_self ..)
    have hmin : min (2 ^ 64 - 1) value = value := by omega
    rw [List.min?_cons', List.foldl_cons, hmin]

theorem min_le (hm : v ∈ values) : values.foldl min (2 ^ 64 - 1) ≤ v :=
  (List.min?_eq_some_iff.mp (min?_eq hne hv)).right v hm

theorem snapshot_after (hn : values.length < 2 ^ 64) :
    (Log2Histogram.after values).snapshot =
      let buckets := (List.range log2Buckets).map (inBucket values)
      {
        count := values.length
        sum   := values.sum % 2 ^ 64
        min   := values.foldl min (2 ^ 64 - 1)
        max   := values.foldl max 0
        p50   := estimateQuantileFromBuckets buckets values.length 1 2 (values.foldl max 0)
        p95   := estimateQuantileFromBuckets buckets values.length 19 20 (values.foldl max 0)
        p99   := estimateQuantileFromBuckets buckets values.length 99 100 (values.foldl max 0)
      } := by
  have hlen : values.length ≠ 0 := by simpa using hne
  have ⟨v, hm⟩ := List.exists_mem_of_ne_nil values hne
  have hmin : min (values.foldl min (2 ^ 64 - 1)) (values.foldl max 0) =
      values.foldl min (2 ^ 64 - 1) :=
    min_eq_left ((min_le hne hv hm).trans (le_max hne hm))
  rw [after_eq hv hn, Log2Histogram.snapshot, if_neg hlen, hmin]

-- A quantile and what is reported for it.
structure Estimates (values : List Nat) (rank t estimate : Nat) : Prop where
  quantile : nthSmallest values rank = some t
  estimate : estimate = min (bucketUpperBound (bucketIndex t)) (values.foldl max 0)

theorem exists_estimates (numerator denominator : Nat) (hnum : 0 < numerator)
    (hq : numerator ≤ denominator) (hn : numerator * values.length + (denominator - 1) < 2 ^ 64) :
    ∃ t, Estimates values ((numerator * values.length) ⌈/⌉ denominator) t
      (estimateQuantileFromBuckets ((List.range log2Buckets).map (inBucket values)) values.length
        numerator denominator
        (values.foldl max 0)) := by
  have ⟨t, ht⟩ :=
    nthSmallest_isSome (rank_le (hnum.trans_le hq) hq) (rank_pos hne hnum (hnum.trans_le hq))
  exact ⟨t, ht, estimate_eq hv hne hnum hq hn ht⟩

omit hne

namespace Estimates

variable {estimate estimate' : Nat} (h : Estimates values rank t estimate)

include h

omit hv in
theorem le_max : estimate ≤ values.foldl max 0 :=
  h.estimate.trans_le (Nat.min_le_right ..)

theorem le : t ≤ estimate := by
  have hm := mem_of_nthSmallest h.quantile
  rw [h.estimate]
  exact Nat.le_min.mpr ⟨(mem_bucket (hv t hm)).left, Metrics.le_max (List.ne_nil_of_mem hm) hm⟩

theorem min_le : values.foldl min (2 ^ 64 - 1) ≤ estimate := by
  have hm := mem_of_nthSmallest h.quantile
  exact (Metrics.min_le (List.ne_nil_of_mem hm) hv hm).trans (h.le hv)

theorem mono (h' : Estimates values n s estimate') (hr : rank ≤ n) : estimate ≤ estimate' := by
  have hs := hv s (mem_of_nthSmallest h'.quantile)
  have hb :=
    bucketUpperBound_mono (bucketIndex_mono hs (nthSmallest_mono hr h.quantile h'.quantile))
      bucketIndex_lt
  rw [h.estimate, h'.estimate]
  omega

end Estimates

theorem Estimates.brackets {estimate : Nat}
    (h : Estimates values ((numerator * values.length) ⌈/⌉ denominator) t estimate) :
    Brackets values numerator denominator (values.foldl max 0) estimate := by
  have hu := (mem_bucket (hv t (mem_of_nthSmallest h.quantile))).right
  have he := h.estimate
  exact ⟨t, h.quantile, h.le hv, by omega⟩

theorem describes_after (hne : values ≠ []) (hn : 99 * values.length + 99 < 2 ^ 64) :
    (Log2Histogram.after values).snapshot.Describes values := by
  have ⟨t₁, h₁⟩ := exists_estimates hne hv 1 2 (by decide) (by decide) (by omega)
  have ⟨t₂, h₂⟩ := exists_estimates hne hv 19 20 (by decide) (by decide) (by omega)
  have ⟨t₃, h₃⟩ := exists_estimates hne hv 99 100 (by decide) (by decide) (by omega)
  have h₁₂ : (1 * values.length) ⌈/⌉ 2 ≤ (19 * values.length) ⌈/⌉ 20 := by
    rw [Nat.ceilDiv_eq_add_pred_div, Nat.ceilDiv_eq_add_pred_div]
    omega
  have h₂₃ : (19 * values.length) ⌈/⌉ 20 ≤ (99 * values.length) ⌈/⌉ 100 := by
    rw [Nat.ceilDiv_eq_add_pred_div, Nat.ceilDiv_eq_add_pred_div]
    omega
  rw [snapshot_after hne hv (by omega)]
  exact {
    min     := min?_eq hne hv
    max     := max?_eq hne
    p50     := h₁.brackets hv
    p95     := h₂.brackets hv
    p99     := h₃.brackets hv
    min_p50 := h₁.min_le hv
    p50_p95 := h₁.mono hv h₂ h₁₂
    p95_p99 := h₂.mono hv h₃ h₂₃
    p99_max := h₃.le_max
  }

end Snapshot

theorem describes_snapshot (values : List Nat) (hne : values ≠ []) (hv : ∀ v ∈ values, v < 2 ^ 64)
    (hn : 99 * values.length + 99 < 2 ^ 64) :
    (Log2Histogram.after values).snapshot.Describes values ∧
    ∀ values', values'.Perm values →
      (Log2Histogram.after values').snapshot = (Log2Histogram.after values).snapshot :=
  ⟨describes_after hv hne hn,
    fun _ hp => congrArg Log2Histogram.snapshot (after_perm hp hv (by omega))⟩

theorem describes_snapshot_bounds :
    (Log2Histogram.after [0, 2 ^ 64 - 1, 1]).snapshot.Describes [0, 2 ^ 64 - 1, 1] ∧
    ∀ values', values'.Perm [0, 2 ^ 64 - 1, 1] →
      (Log2Histogram.after values').snapshot = (Log2Histogram.after [0, 2 ^ 64 - 1, 1]).snapshot :=
  describes_snapshot _ (by decide) (by decide) (by decide)

end Metrics
