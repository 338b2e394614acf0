import YcsbC.Foundation.TableSearch
import Mathlib.Algebra.Order.Floor.Ring
import Mathlib.Data.Rat.Floor

/-!
# Latency histogram

`Histogram` of `utils/histogram.{h,cc}`.  A sample is counted in one of 154
buckets and in five running totals.  `add` finds the bucket by a linear search
of `kBucketLimit`.  `addFast`, which the client threads call, computes the
index: it divides by ten until the value is below a hundred, and then splits the
decade into sixteen buckets of three widths.

A `double` is read as an exact rational, so there is no rounding, no NaN and no
infinity.  The `int` of the computed index is an unbounded integer here, which
no finite `double` can tell apart (`calPos_lt_intMax`).
-/

namespace YcsbC

namespace Histogram

/-- `kNumBuckets`. -/
abbrev kNumBuckets : ℕ := 154

/-- The entries of `kBucketLimit`, all of them whole numbers.  The last is the decimal number
that the source writes, and not the `double` that is nearest to it. -/
def bucketLimits : Vector ℕ kNumBuckets :=
  #v[1, 2, 3, 4, 5, 6, 7, 8, 9, 10, 12, 14, 16, 18, 20, 25, 30, 35, 40, 45, 50, 60, 70, 80, 90,
    100, 120, 140, 160, 180, 200, 250, 300, 350, 400, 450, 500, 600, 700, 800, 900, 1000, 1200,
    1400, 1600, 1800, 2000, 2500, 3000, 3500, 4000, 4500, 5000, 6000, 7000, 8000, 9000, 10000,
    12000, 14000, 16000, 18000, 20000, 25000, 30000, 35000, 40000, 45000, 50000, 60000, 70000,
    80000, 90000, 100000, 120000, 140000, 160000, 180000, 200000, 250000, 300000, 350000, 400000,
    450000, 500000, 600000, 700000, 800000, 900000, 1000000, 1200000, 1400000, 1600000, 1800000,
    2000000, 2500000, 3000000, 3500000, 4000000, 4500000, 5000000, 6000000, 7000000, 8000000,
    9000000, 10000000, 12000000, 14000000, 16000000, 18000000, 20000000, 25000000, 30000000,
    35000000, 40000000, 45000000, 50000000, 60000000, 70000000, 80000000, 90000000, 100000000,
    120000000, 140000000, 160000000, 180000000, 200000000, 250000000, 300000000, 350000000,
    400000000, 450000000, 500000000, 600000000, 700000000, 800000000, 900000000, 1000000000,
    1200000000, 1400000000, 1600000000, 1800000000, 2000000000, 2500000000, 3000000000,
    3500000000, 4000000000, 4500000000, 5000000000, 6000000000, 7000000000, 8000000000,
    9000000000, 10 ^ 200]

/-- `kBucketLimit`. -/
def kBucketLimit (b : Fin kNumBuckets) : ℚ := (bucketLimits.get b : ℕ)

/-- `kNumBuckets - 1`, the index of the last bucket. -/
abbrev lastBucket : Fin kNumBuckets := Fin.last 153

end Histogram

/-- The state of a `Histogram`. -/
@[ext]
structure Histogram where
  /-- `min_`. -/
  min : ℚ
  /-- `max_`. -/
  max : ℚ
  /-- `num_`. -/
  num : ℚ
  /-- `sum_`. -/
  sum : ℚ
  /-- `sum_squares_`. -/
  sumSquares : ℚ
  /-- `buckets_`. -/
  buckets : Fin Histogram.kNumBuckets → ℚ

namespace Histogram

/-! ## Clear and Merge -/

/-- `Clear`, which overwrites every field. -/
def clear : Histogram where
  min := kBucketLimit lastBucket
  max := 0
  num := 0
  sum := 0
  sumSquares := 0
  buckets := fun _ => 0

/-- `Merge`. -/
def merge (h other : Histogram) : Histogram where
  min := if other.min < h.min then other.min else h.min
  max := if other.max > h.max then other.max else h.max
  num := h.num + other.num
  sum := h.sum + other.sum
  sumSquares := h.sumSquares + other.sumSquares
  buckets := fun b => h.buckets b + other.buckets b

/-! ## Add and AddFast -/

/-- The statements that `Add` and `AddFast` share once the bucket is known. -/
def recordIn (h : Histogram) (b : Fin kNumBuckets) (value : ℚ) : Histogram where
  min := if h.min > value then value else h.min
  max := if h.max < value then value else h.max
  num := h.num + 1
  sum := h.sum + value
  sumSquares := h.sumSquares + value * value
  buckets := Function.update h.buckets b (h.buckets b + 1)

/-- The loop of `Add`, which runs while `b < kNumBuckets - 1 && kBucketLimit[b] <= value`. -/
def addLoop (value : ℚ) : Fin kNumBuckets := TableSearch.scan kBucketLimit value 0

/-- `Add`. -/
def add (h : Histogram) (value : ℚ) : Histogram :=
  h.recordIn (addLoop value) value

/-- A `double` converted to `int`, which drops the fraction. -/
def toInt (x : ℚ) : ℤ := if 0 ≤ x then ⌊x⌋ else ⌈x⌉

theorem floor_div_ten_lt {b : ℚ} (h : 100 ≤ b) : ⌊b / 10⌋₊ < ⌊b⌋₊ := by
  rw [Nat.floor_lt (by positivity)]
  have hb := Nat.lt_floor_add_one b
  have hbig : (100 : ℚ) ≤ ⌊b⌋₊ := by exact_mod_cast Nat.le_floor (by exact_mod_cast h)
  linarith

/-- The decade loop of `AddFast`: `while (b >= 100) { b = b / 10; cal_pos += 16; }`. -/
def decadeLoop (b : ℚ) (calPos : ℤ) : ℚ × ℤ :=
  if 100 ≤ b then decadeLoop (b / 10) (calPos + 16) else (b, calPos)
termination_by ⌊b⌋₊
decreasing_by exact floor_div_ten_lt ‹_›

/-- The three formulas of `AddFast` for a value below a hundred.  `cal_pos` is an
`int`, so the sum is truncated when it is stored. -/
def subDecade (b : ℚ) (calPos : ℤ) : ℤ :=
  if 10 ≤ b ∧ b < 20 then toInt (calPos + (10 + (b - 10) / 2))
  else if 20 ≤ b ∧ b < 50 then toInt (calPos + (15 + (b - 20) / 5))
  else if 50 ≤ b ∧ b < 100 then toInt (calPos + (21 + (b - 50) / 10))
  else calPos

/-- `cal_pos` of `AddFast` before the clamp. -/
def calPos (value : ℚ) : ℤ :=
  if 0 ≤ value ∧ value < 10 then toInt value
  else
    let r := decadeLoop value 0
    subDecade r.1 r.2

/-- The clamp of `AddFast`.  The position is never negative (`calPos_nonneg`), so
`toNat` changes nothing. -/
def clampPos (pos : ℤ) : Fin kNumBuckets :=
  if h : (kNumBuckets : ℤ) ≤ pos then lastBucket
  else ⟨pos.toNat, (Int.toNat_lt' (by decide)).mpr (not_le.mp h)⟩

/-- `AddFast`. -/
def addFast (h : Histogram) (value : ℚ) : Histogram :=
  h.recordIn (clampPos (calPos value)) value

end Histogram

end YcsbC
