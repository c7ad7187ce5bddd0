import Mathlib.Data.Nat.Log
import Mathlib.Data.Rat.Floor
import Mathlib.Logic.Function.Basic
import Wrkx.Base.Word

/-!
# The latency histogram

`hdr_histogram.c`: the index arithmetic, `hdr_init`, recording, the iterators and the
functions that walk them. A result `none` stands for a call that does not return: an
`assert` of `counts_index` failed, or the loop never ends.
-/

namespace Wrkx

open Word

/-- `MAX_LATENCY` of `wrk.c`, one day in microseconds. -/
def maxLatency : ℕ := 24 * 60 * 60 * 1000000

/-- `struct hdr_histogram`. The slots are a function of their number, below `countsLen`. -/
structure HdrHistogram where
  lowestTrackableValue : ℤ
  highestTrackableValue : ℤ
  unitMagnitude : ℕ
  significantFigures : ℕ
  subBucketHalfCountMagnitude : ℕ
  subBucketHalfCount : ℤ
  subBucketMask : ℤ
  subBucketCount : ℤ
  bucketCount : ℤ
  countsLen : ℤ
  totalCount : ℤ
  counts : ℕ → ℤ

/-! ## Index arithmetic -/

/-- `power`. -/
def power (base : ℕ) : ℕ → ℕ
  | 0 => 1
  | exp + 1 => power base exp * base

/-- `__builtin_clzll` of a word that is not zero. -/
def clzll (x : ℕ) : ℤ := 63 - x.log2

def getBucketIndex (h : HdrHistogram) (value : ℤ) : ℤ :=
  let pow2ceiling := 64 - clzll (uint64 value ||| uint64 h.subBucketMask)
  pow2ceiling - h.unitMagnitude - (h.subBucketHalfCountMagnitude + 1)

def getSubBucketIndex (value bucketIndex : ℤ) (unitMagnitude : ℕ) : ℤ :=
  int32 (value >>> (bucketIndex + unitMagnitude).toNat)

/-- `counts_index`; `none` when one of its assertions fails. -/
def countsIndex (h : HdrHistogram) (bucketIndex subBucketIndex : ℤ) : Option ℤ :=
  if bucketIndex < h.bucketCount ∧ subBucketIndex < h.subBucketCount ∧
      (bucketIndex = 0 ∨ h.subBucketHalfCount ≤ subBucketIndex) then
    let bucketBaseIndex := (bucketIndex + 1) * 2 ^ h.subBucketHalfCountMagnitude
    let offsetInBucket := subBucketIndex - h.subBucketHalfCount
    some (bucketBaseIndex + offsetInBucket)
  else
    none

def countsIndexFor (h : HdrHistogram) (value : ℤ) : Option ℤ :=
  let bucketIndex := getBucketIndex h value
  let subBucketIndex := getSubBucketIndex value bucketIndex h.unitMagnitude
  countsIndex h bucketIndex subBucketIndex

def valueFromIndex (bucketIndex subBucketIndex : ℤ) (unitMagnitude : ℕ) : ℤ :=
  subBucketIndex * 2 ^ (bucketIndex + unitMagnitude).toNat

def getCountAtIndex (h : HdrHistogram) (bucketIndex subBucketIndex : ℤ) : Option ℤ :=
  (countsIndex h bucketIndex subBucketIndex).map fun i => h.counts i.toNat

def sizeOfEquivalentValueRange (h : HdrHistogram) (value : ℤ) : ℤ :=
  let bucketIndex := getBucketIndex h value
  let subBucketIndex := getSubBucketIndex value bucketIndex h.unitMagnitude
  let adjustedBucket :=
    if h.subBucketCount ≤ subBucketIndex then bucketIndex + 1 else bucketIndex
  -- the `1` that is shifted is an `int`
  int32 (2 ^ (h.unitMagnitude + adjustedBucket).toNat)

def lowestEquivalentValue (h : HdrHistogram) (value : ℤ) : ℤ :=
  let bucketIndex := getBucketIndex h value
  let subBucketIndex := getSubBucketIndex value bucketIndex h.unitMagnitude
  valueFromIndex bucketIndex subBucketIndex h.unitMagnitude

def nextNonEquivalentValue (h : HdrHistogram) (value : ℤ) : ℤ :=
  lowestEquivalentValue h value + sizeOfEquivalentValueRange h value

def highestEquivalentValue (h : HdrHistogram) (value : ℤ) : ℤ :=
  nextNonEquivalentValue h value - 1

def medianEquivalentValue (h : HdrHistogram) (value : ℤ) : ℤ :=
  lowestEquivalentValue h value + (sizeOfEquivalentValueRange h value >>> (1 : ℕ))

/-! ## Set-up and recording -/

/-- The sizing loop of `hdr_init`, on 64-bit words. A word is zero after 64 doublings, and
    the loop then never ends. -/
def bucketsNeeded (highestTrackableValue : ℤ) : ℕ → ℤ → ℤ → Option ℤ
  | 0, _, _ => none
  | fuel + 1, trackableValue, needed =>
    if trackableValue < highestTrackableValue then
      bucketsNeeded highestTrackableValue fuel (int64 (trackableValue * 2)) (needed + 1)
    else
      some needed

/-- `hdr_init`, with its logarithms and powers read exactly; `none` also for `EINVAL`. -/
def hdrInit (lowestTrackableValue highestTrackableValue : ℤ) (significantFigures : ℕ) :
    Option HdrHistogram :=
  if significantFigures < 1 ∨ 5 < significantFigures then
    none
  else
    let largestValueWithSingleUnitResolution := 2 * power 10 significantFigures
    let subBucketCountMagnitude := Nat.clog 2 largestValueWithSingleUnitResolution
    let subBucketHalfCountMagnitude :=
      (if 1 < subBucketCountMagnitude then subBucketCountMagnitude else 1) - 1
    let unitMagnitude := lowestTrackableValue.toNat.log2
    let subBucketCount : ℤ := 2 ^ (subBucketHalfCountMagnitude + 1)
    let subBucketMask := int32 ((subBucketCount - 1) * 2 ^ unitMagnitude)
    (bucketsNeeded highestTrackableValue 65 subBucketMask 1).map fun bucketCount =>
      { lowestTrackableValue, highestTrackableValue, unitMagnitude, significantFigures
        subBucketHalfCountMagnitude
        subBucketHalfCount := subBucketCount / 2
        subBucketMask, subBucketCount, bucketCount
        countsLen := (bucketCount + 1) * (subBucketCount / 2)
        totalCount := 0
        counts := fun _ => 0 }

def hdrReset (h : HdrHistogram) : HdrHistogram :=
  { h with totalCount := 0, counts := fun _ => 0 }

/-- `hdr_record_values`: the returned flag, and the histogram afterwards. The counters are
    unbounded; `hdrRecordValues64` wraps them around. -/
def hdrRecordValues (h : HdrHistogram) (value count : ℤ) : Option (Bool × HdrHistogram) :=
  (countsIndexFor h value).map fun i =>
    if i < 0 ∨ h.countsLen ≤ i then
      (false, h)
    else
      (true, { h with
        counts := Function.update h.counts i.toNat (h.counts i.toNat + count)
        totalCount := h.totalCount + count })

/-- `hdr_record_value`, which adds one where `hdr_record_values` adds `count`. -/
def hdrRecordValue (h : HdrHistogram) (value : ℤ) : Option (Bool × HdrHistogram) :=
  hdrRecordValues h value 1

/-! ## Iterators -/

/-- `struct hdr_iter`; the histogram it points to is passed beside it. -/
structure HdrIter where
  bucketIndex : ℤ
  subBucketIndex : ℤ
  countAtIndex : ℤ
  countToIndex : ℤ
  valueFromIndex : ℤ
  highestEquivalentValue : ℤ

def hdrIterInit : HdrIter :=
  { bucketIndex := 0, subBucketIndex := -1, countAtIndex := 0, countToIndex := 0
    valueFromIndex := 0, highestEquivalentValue := 0 }

def hasBuckets (h : HdrHistogram) (iter : HdrIter) : Bool :=
  decide (iter.bucketIndex < h.bucketCount)

def hasNext (h : HdrHistogram) (iter : HdrIter) : Bool :=
  decide (iter.countToIndex < h.totalCount)

def incrementBucket (h : HdrHistogram) (bucketIndex subBucketIndex : ℤ) : ℤ × ℤ :=
  if h.subBucketCount ≤ subBucketIndex + 1 then
    (bucketIndex + 1, h.subBucketHalfCount)
  else
    (bucketIndex, subBucketIndex + 1)

def moveNext (h : HdrHistogram) (iter : HdrIter) : Option (Bool × HdrIter) :=
  let next := incrementBucket h iter.bucketIndex iter.subBucketIndex
  let iter := { iter with bucketIndex := next.1, subBucketIndex := next.2 }
  if !hasBuckets h iter then
    some (false, iter)
  else
    (getCountAtIndex h iter.bucketIndex iter.subBucketIndex).map fun count =>
      let value := valueFromIndex iter.bucketIndex iter.subBucketIndex h.unitMagnitude
      (true, { iter with
        countAtIndex := count
        countToIndex := iter.countToIndex + count
        valueFromIndex := value
        highestEquivalentValue := highestEquivalentValue h value })

/-- `hdr_iter_next`. What `move_next` returns is not looked at. -/
def hdrIterNext (h : HdrHistogram) (iter : HdrIter) : Option (Bool × HdrIter) :=
  if !hasNext h iter then
    some (false, iter)
  else
    (moveNext h iter).map fun moved => (true, moved.2)

/-- `hdr_recorded_iter_next`, allowed `fuel` rounds of its loop. -/
def hdrRecordedIterNext (h : HdrHistogram) : ℕ → HdrIter → Option (Bool × HdrIter)
  | 0, _ => none
  | fuel + 1, iter => do
    let (more, iter) ← hdrIterNext h iter
    if more then
      if iter.countAtIndex ≠ 0 then some (true, iter) else hdrRecordedIterNext h fuel iter
    else
      some (false, iter)

/-- The number of rounds after which a loop over the slots cannot end any more. -/
def slotRounds (h : HdrHistogram) : ℕ := h.countsLen.toNat + 1

/-- The loop of `hdr_add`. -/
def hdrAddLoop (src : HdrHistogram) : ℕ → HdrIter → ℤ → HdrHistogram → Option (ℤ × HdrHistogram)
  | 0, _, _, _ => none
  | fuel + 1, iter, dropped, h => do
    let (more, iter) ← hdrRecordedIterNext src (slotRounds src) iter
    if more then
      let (ok, h) ← hdrRecordValues h iter.valueFromIndex iter.countAtIndex
      hdrAddLoop src fuel iter (if ok then dropped else dropped + iter.countAtIndex) h
    else
      some (dropped, h)

/-- `hdr_add`: how many samples were dropped, and the histogram added to. -/
def hdrAdd (h src : HdrHistogram) : Option (ℤ × HdrHistogram) :=
  hdrAddLoop src (slotRounds src) hdrIterInit 0 h

/-! ## Counters of 64 bits

The counters above are unbounded. The writers below have the `int64_t` counters of the source,
which wrap around.
-/

/-- `hdr_record_values`. -/
def hdrRecordValues64 (h : HdrHistogram) (value count : ℤ) : Option (Bool × HdrHistogram) :=
  (countsIndexFor h value).map fun i =>
    if i < 0 ∨ h.countsLen ≤ i then
      (false, h)
    else
      (true, { h with
        counts := Function.update h.counts i.toNat (int64 (h.counts i.toNat + count))
        totalCount := int64 (h.totalCount + count) })

/-- `hdr_record_value`. -/
def hdrRecordValue64 (h : HdrHistogram) (value : ℤ) : Option (Bool × HdrHistogram) :=
  hdrRecordValues64 h value 1

/-- The loop of `hdr_add`. While `h` is added to, `from` points to `src h`: to another
    histogram, or to `h` itself. `rounds` is what the iterator is allowed for one sample. -/
def hdrAddLoop64 (src : HdrHistogram → HdrHistogram) (rounds : ℕ) :
    ℕ → HdrIter → ℤ → HdrHistogram → Option (ℤ × HdrHistogram)
  | 0, _, _, _ => none
  | fuel + 1, iter, dropped, h => do
    let (more, iter) ← hdrRecordedIterNext (src h) rounds iter
    if more then
      let (ok, h) ← hdrRecordValues64 h iter.valueFromIndex iter.countAtIndex
      hdrAddLoop64 src rounds fuel iter
        (if ok then dropped else int64 (dropped + iter.countAtIndex)) h
    else
      some (dropped, h)

/-- `hdr_add` of another histogram. -/
def hdrAdd64 (h src : HdrHistogram) : Option (ℤ × HdrHistogram) :=
  hdrAddLoop64 (fun _ => src) (slotRounds src) (slotRounds src) hdrIterInit 0 h

/-- `hdr_add (h, h)`, allowed `rounds` rounds of each of its loops. -/
def hdrAddSelf64 (rounds : ℕ) (h : HdrHistogram) : Option (ℤ × HdrHistogram) :=
  hdrAddLoop64 id rounds rounds hdrIterInit 0 h

/-! ## Readers -/

/-- `while (hdr_iter_next (&iter)) { … }`, allowed `fuel` rounds. The body goes on with a new
    state or leaves the loop with a result; `finish` is what follows the last round. -/
def iterLoop {σ ρ : Type} (h : HdrHistogram) (body : HdrIter → σ → σ ⊕ ρ) (finish : σ → ρ) :
    ℕ → HdrIter → σ → Option ρ
  | 0, _, _ => none
  | fuel + 1, iter, s => do
    let (more, iter) ← hdrIterNext h iter
    if more then
      match body iter s with
      | .inl s => iterLoop h body finish fuel iter s
      | .inr result => some result
    else
      some (finish s)

/-- Such a loop, from `hdr_iter_init` on. -/
def overSlots {σ ρ : Type} (h : HdrHistogram) (body : HdrIter → σ → σ ⊕ ρ) (finish : σ → ρ)
    (s : σ) : Option ρ :=
  iterLoop h body finish (slotRounds h) hdrIterInit s

/-- The round of the loop of `hdr_max`. -/
def hdrMaxStep (iter : HdrIter) (max : ℤ) : ℤ :=
  if iter.countAtIndex ≠ 0 then iter.highestEquivalentValue else max

/-- `hdr_max`. -/
def hdrMax (h : HdrHistogram) : Option ℤ :=
  (overSlots h (fun iter max => .inl (hdrMaxStep iter max)) id 0).map (lowestEquivalentValue h)

/-- The round of the loop of `hdr_min`. -/
def hdrMinStep (iter : HdrIter) (min : ℤ) : ℤ ⊕ ℤ :=
  if iter.countToIndex ≠ 0 ∧ min = 0 then .inr iter.valueFromIndex else .inl min

/-- `hdr_min`. -/
def hdrMin (h : HdrHistogram) : Option ℤ := overSlots h hdrMinStep id 0

/-- A floating-point number converted to an integer type. -/
def truncate (x : ℚ) : ℤ := if 0 ≤ x then ⌊x⌋ else ⌈x⌉

theorem truncate_natCast (n : ℕ) : truncate n = n := by
  rw [truncate, if_pos (Nat.cast_nonneg n)]
  exact Int.floor_natCast n

/-- A result of type `int64_t`; outside its range C gives none. -/
def int64Result (x : ℤ) : Option ℤ := if -2 ^ 63 ≤ x ∧ x < 2 ^ 63 then some x else none

/-- The round of the loop of `hdr_value_at_percentile`. -/
def hdrValueAtPercentileStep (h : HdrHistogram) (countAtPercentile : ℤ) (iter : HdrIter)
    (total : ℤ) : ℤ ⊕ ℤ :=
  let total := total + iter.countAtIndex
  if countAtPercentile ≤ total then
    .inr (highestEquivalentValue h iter.valueFromIndex)
  else
    .inl total

/-- `hdr_value_at_percentile`, its double arithmetic read exactly. -/
def hdrValueAtPercentile (h : HdrHistogram) (percentile : ℚ) : Option ℤ :=
  let requestedPercentile := if percentile < 100 then percentile else 100
  let countAtPercentile := truncate (requestedPercentile / 100 * h.totalCount + 1 / 2)
  let countAtPercentile := if 1 < countAtPercentile then countAtPercentile else 1
  overSlots h (hdrValueAtPercentileStep h countAtPercentile) (fun _ => 0) 0

/-- What one slot adds to the `total` of `hdr_mean`. -/
def hdrMeanStep (h : HdrHistogram) (iter : HdrIter) (total : ℤ) : ℤ :=
  if iter.countAtIndex ≠ 0 then
    int64 (total + iter.countAtIndex * medianEquivalentValue h iter.valueFromIndex)
  else
    total

/-- `hdr_mean`; the inner `none` is the not-a-number of `0.0 / 0`. -/
def hdrMean (h : HdrHistogram) : Option (Option ℚ) :=
  (overSlots h (fun iter total => .inl (hdrMeanStep h iter total)) id 0).map fun (total : ℤ) =>
    if h.totalCount = 0 then none else some ((total : ℚ) / h.totalCount)

/-- What one slot adds to `geometric_dev_total`. -/
def hdrStddevStep (h : HdrHistogram) (mean : Option ℚ) (iter : HdrIter) (total : Option ℚ) :
    Option ℚ :=
  if iter.countAtIndex ≠ 0 then do
    let mean ← mean
    let dev := medianEquivalentValue h iter.valueFromIndex - mean
    return (← total) + dev * dev * iter.countAtIndex
  else
    total

/-- `hdr_stddev`, with not-a-number as in `hdr_mean`; `sqrt` is that of the C library. -/
def hdrStddev (sqrt : ℚ → ℚ) (h : HdrHistogram) : Option (Option ℚ) := do
  let mean ← hdrMean h
  let geometricDevTotal ←
    overSlots h (fun iter total => .inl (hdrStddevStep h mean iter total)) id (some 0)
  some (if h.totalCount = 0 then none
    else geometricDevTotal.map fun total => sqrt (total / h.totalCount))

end Wrkx
