import Mathlib.Algebra.BigOperators.Group.List.Basic
import Wrkx.Hdr.Histogram

/-!
# Statistics objects

`stats.c`, and the functions of `script.c` that show a statistics object to the script. A
statistics object keeps raw samples, or a histogram when it is given one. Floating-point
arithmetic is read as exact rationals.
-/

namespace Wrkx

open Word

/-- `stats`. -/
structure Stats where
  samples : ℕ
  index : ℕ
  limit : ℕ
  min : ℕ
  max : ℕ
  histogram : Option HdrHistogram
  data : ℕ → ℕ

/-- `stats_alloc`. -/
def statsAlloc (samples : ℕ) : Stats where
  samples := samples
  index := 0
  limit := 0
  min := 2 ^ 64 - 1
  max := 0
  histogram := none
  data := fun _ => 0

/-- `stats_record` of an unsigned word, with the given `hdr_record_value`; `none` when an
    assertion of `counts_index` fails. -/
def statsRecordWith (recordValue : HdrHistogram → ℤ → Option (Bool × HdrHistogram)) (s : Stats)
    (x : ℕ) : Option Stats :=
  let s := { s with
    min := if x < s.min then x else s.min
    max := if s.max < x then x else s.max }
  match s.histogram with
  | some h => (recordValue h (int64 x)).map fun recorded =>
    { s with histogram := some recorded.2 }
  | none =>
    some { s with
      data := Function.update s.data s.index x
      index := if s.index + 1 = s.samples then 0 else s.index + 1
      limit := if s.limit < s.samples then s.limit + 1 else s.limit }

/-- `stats_record` on unbounded counters. -/
def statsRecord (s : Stats) (x : ℕ) : Option Stats := statsRecordWith hdrRecordValue s x

/-- `stats_record`. -/
def statsRecord64 (s : Stats) (x : ℕ) : Option Stats := statsRecordWith hdrRecordValue64 s x

/-- The samples `data[0..limit)`. -/
def Stats.raw (s : Stats) : List ℕ := (List.range s.limit).map s.data

/-- `stats_mean`; the inner `none` is not-a-number. -/
def statsMean (s : Stats) : Option (Option ℚ) :=
  match s.histogram with
  | some h => hdrMean h
  | none =>
    if s.limit = 0 then some (some 0) else some (some ((uint64 (s.raw.sum : ℕ) : ℚ) / s.limit))

/-- `stats_stdev`; `sqrt` and `sqrtl` are those of the C library. -/
def statsStdev (sqrt : ℚ → ℚ) (s : Stats) (mean : ℚ) : Option (Option ℚ) :=
  match s.histogram with
  | some h => hdrStddev sqrt h
  | none =>
    if s.limit < 2 then some (some 0)
    else some (some (sqrt ((s.raw.map fun x : ℕ => ((x : ℚ) - mean) ^ 2).sum / (s.limit - 1))))

/-- The round of the loop of `stats_within_stdev`: the new `lower_count`, or both counts when
    the loop is left. -/
def withinStdevStep (upperValue lowerValue : ℤ) (iter : HdrIter) (lowerCount : ℤ) :
    ℤ ⊕ ℤ × ℤ :=
  let lowerCount := if iter.valueFromIndex < lowerValue then iter.countToIndex else lowerCount
  if upperValue < iter.highestEquivalentValue then
    .inr (lowerCount, iter.countToIndex)
  else
    .inl lowerCount

/-- The `lower_count` and the `upper_count` of the histogram. -/
def withinStdevCounts (h : HdrHistogram) (upperValue lowerValue : ℤ) : Option (ℤ × ℤ) :=
  overSlots h (withinStdevStep upperValue lowerValue)
    (fun lowerCount => (lowerCount, h.totalCount)) 0

/-- `stats_within_stdev`; `none` when a bound is outside the `int64_t` it is converted to, the
    inner `none` is the not-a-number of a list without samples. -/
def statsWithinStdev (s : Stats) (mean stdev : ℚ) (n : ℕ) : Option (Option ℚ) :=
  let upper := mean + stdev * n
  let lower := mean - stdev * n
  match s.histogram with
  | some h =>
    if h.totalCount = 0 then
      some (some 0)
    else do
      let upperValue ← int64Result (truncate upper)
      let lowerValue ← int64Result (truncate lower)
      let (lowerCount, upperCount) ← withinStdevCounts h upperValue lowerValue
      return some (100 * ((upperCount - lowerCount : ℤ) : ℚ) / h.totalCount)
  | none =>
    let sum := s.raw.countP fun x : ℕ => lower ≤ x ∧ (x : ℚ) ≤ upper
    some (if s.limit = 0 then none else some ((sum : ℚ) / s.limit * 100))

/-! ## The view of the script -/

/-- A key the script looks up. A string that reads as a number counts as one. -/
inductive StatsKey
  | number (x : ℚ)
  | string (method : String)

/-- What the script gets: a number (`none` for not-a-number), the function
    `script_stats_percentile`, or its own key for an unknown method. -/
inductive StatsField
  | number (x : Option ℚ)
  | percentile
  | key (method : String)

/-- `script_stats_get`; `none` when one of the loops it runs does not end. -/
def scriptStatsGet (sqrt : ℚ → ℚ) (s : Stats) : StatsKey → Option StatsField
  | .number x =>
    let index := int32 (truncate x)
    match s.histogram with
    | some h =>
      let percentile := 100 * (index : ℚ) / h.totalCount
      (hdrValueAtPercentile h percentile).map fun (value : ℤ) => .number (some (value : ℚ))
    | none => some (.number (some (s.data (index - 1).toNat)))
  | .string method =>
    if method = "min" then
      some (.number (some s.min))
    else if method = "max" then
      some (.number (some s.max))
    else if method = "mean" then
      (statsMean s).map .number
    else if method = "stdev" then do
      let mean ← statsMean s
      (statsStdev sqrt s (mean.getD 0)).map .number
    else if method = "percentile" then
      some .percentile
    else
      some (.key method)

/-- `script_stats_len`. -/
def scriptStatsLen (s : Stats) : ℤ :=
  match s.histogram with
  | some h => h.totalCount
  | none => s.limit

end Wrkx
