import Mathlib.Data.Int.Log
import Wrkx.Hdr.Histogram

/-!
# The percentile iterator

`hdr_percentile_iter_init`, `hdr_percentile_iter_next` and `hdr_percentiles_print` of
`hdr_histogram.c`. Logarithms, powers and doubles are read exactly; the integers they are
converted to are those of C. As before, `none` stands for a call without a result: a
conversion or a product that no `int64_t` holds, or a loop that does not end.
-/

namespace Wrkx

/-- `struct hdr_percentile_iter`; the histogram it points to is passed beside it. -/
structure HdrPercentileIter where
  iter : HdrIter
  seenLastValue : Bool
  ticksPerHalfDistance : ℤ
  percentileToIterateTo : ℚ
  percentile : ℚ

def hdrPercentileIterInit (ticksPerHalfDistance : ℤ) : HdrPercentileIter where
  iter := hdrIterInit
  seenLastValue := false
  ticksPerHalfDistance := ticksPerHalfDistance
  percentileToIterateTo := 0
  percentile := 0

/-- `(int64_t) (log (x) / log (2))` of a positive `x`: the logarithm rounded towards zero. -/
def truncateLog2 (x : ℚ) : ℤ := if 1 ≤ x then Int.log 2 x else Int.clog 2 x

/-- `half_distance`. From 100 on there is no logarithm to convert. -/
def halfDistance (percentileToIterateTo : ℚ) : Option ℤ :=
  if percentileToIterateTo < 100 then
    int64Result (truncate (2 ^ (truncateLog2 (100 / (100 - percentileToIterateTo)) + 1)))
  else
    none

/-- `percentile_reporting_ticks`, which the next step is divided by. -/
def percentileReportingTicks (p : HdrPercentileIter) : Option ℤ := do
  let ticks ← int64Result (p.ticksPerHalfDistance * (← halfDistance p.percentileToIterateTo))
  if ticks = 0 then none else some ticks

/-- What the loop of `hdr_percentile_iter_next` does on the slot where it returns. -/
def percentileReported (p : HdrPercentileIter) : Option HdrPercentileIter :=
  (percentileReportingTicks p).map fun (ticks : ℤ) =>
    { p with
      percentile := p.percentileToIterateTo
      percentileToIterateTo := p.percentileToIterateTo + 100 / ticks }

/-- The `do … while` loop of `hdr_percentile_iter_next`, allowed `fuel` rounds. It returns
    true however it is left. -/
def percentileLoop (h : HdrHistogram) : ℕ → HdrPercentileIter → Option HdrPercentileIter
  | 0, _ => none
  | fuel + 1, p =>
    let currentPercentile : ℚ := 100 * p.iter.countToIndex / h.totalCount
    if p.iter.countAtIndex ≠ 0 ∧ p.percentileToIterateTo ≤ currentPercentile then
      percentileReported p
    else do
      let (more, iter) ← hdrIterNext h p.iter
      if more then percentileLoop h fuel { p with iter } else some { p with iter }

def hdrPercentileIterNext (h : HdrHistogram) (p : HdrPercentileIter) :
    Option (Bool × HdrPercentileIter) :=
  if !hasNext h p.iter then
    if p.seenLastValue then
      some (false, p)
    else
      some (true, { p with seenLastValue := true, percentile := 100 })
  else if p.iter.subBucketIndex = -1 then do
    let (more, iter) ← hdrIterNext h p.iter
    if more then
      (percentileLoop h (slotRounds h) { p with iter }).map (Prod.mk true)
    else
      some (false, { p with iter })
  else
    (percentileLoop h (slotRounds h) p).map (Prod.mk true)

/-- `while (hdr_percentile_iter_next (&percentiles)) { … }`, allowed `fuel` rounds: what the
    body sees in each of them. -/
def percentileRows (h : HdrHistogram) : ℕ → HdrPercentileIter → Option (List HdrPercentileIter)
  | 0, _ => none
  | fuel + 1, p => do
    let (more, p) ← hdrPercentileIterNext h p
    if more then (percentileRows h fuel p).map (List.cons p) else some []

/-! ## Printing -/

/-- The numbers of one printed line; `none` is the infinity of `1.0 / (1.0 - 1.0)`. -/
structure PercentileLine where
  value : ℚ
  percentile : ℚ
  totalCount : ℤ
  invertedPercentile : Option ℚ

/-- The body of the loop of `hdr_percentiles_print`. -/
def percentileLine (valueScale : ℚ) (p : HdrPercentileIter) : PercentileLine :=
  let percentile := p.percentile / 100
  { value := p.iter.highestEquivalentValue / valueScale
    percentile
    totalCount := p.iter.countToIndex
    invertedPercentile := if percentile = 1 then none else some (1 / (1 - percentile)) }

/-- The numbers of `CLASSIC_FOOTER`; `none` is not-a-number, as in `hdr_mean`. -/
structure PercentileFooter where
  mean : Option ℚ
  stdDeviation : Option ℚ
  max : ℚ
  totalCount : ℤ
  buckets : ℤ
  subBuckets : ℤ

def percentileFooter (h : HdrHistogram) (valueScale : ℚ) (mean stddev : Option ℚ) (max : ℤ) :
    PercentileFooter where
  mean := mean.map (· / valueScale)
  stdDeviation := stddev.map (· / valueScale)
  max := max / valueScale
  totalCount := h.totalCount
  buckets := h.bucketCount
  subBuckets := h.subBucketCount

/-- `hdr_percentiles_print` in the `CLASSIC` format, on a stream that takes every write. -/
def hdrPercentilesPrint (sqrt : ℚ → ℚ) (h : HdrHistogram) (ticksPerHalfDistance : ℤ)
    (valueScale : ℚ) (fuel : ℕ) : Option (List PercentileLine × PercentileFooter) := do
  let rows ← percentileRows h fuel (hdrPercentileIterInit ticksPerHalfDistance)
  let mean ← hdrMean h
  let stddev ← hdrStddev sqrt h
  let max ← hdrMax h
  return (rows.map (percentileLine valueScale), percentileFooter h valueScale mean stddev max)

end Wrkx
