import YcsbC.Core.Utils
import YcsbC.Foundation.PrintedNumber
import YcsbC.Utils.Histogram

/-!
# The text of a histogram

`ToString` prints the totals, three percentiles and a line for each bucket that is not
empty.  A histogram without samples divides zero by zero in `Percentile`.

The text has no tabs (`tab_notMem_toString`).
-/

namespace YcsbC

namespace Histogram

open PrintedNumber

variable (h : Histogram)

/-! ## Statistics -/

/-- The left end of a bucket. -/
def leftLimit (b : Fin kNumBuckets) : ℚ :=
  if b.val = 0 then 0 else kBucketLimit ⟨b.val - 1, Nat.lt_of_le_of_lt (Nat.sub_le _ _) b.isLt⟩

/-- What `Percentile` returns at the bucket at which the sum reaches the threshold. -/
def percentileIn (threshold sum : ℚ) (b : Fin kNumBuckets) : ExtRat :=
  let leftPoint := leftLimit b
  let rightPoint := kBucketLimit b
  let leftSum := sum - h.buckets b
  let pos := ExtRat.div (threshold - leftSum) (sum - leftSum)
  let r := pos.affine leftPoint (rightPoint - leftPoint)
  let r := if r.lt h.min then .finite h.min else r
  if r.gt h.max then .finite h.max else r

/-- The loop of `Percentile` on the buckets left. -/
def percentileLoop (threshold sum : ℚ) : List (Fin kNumBuckets) → ExtRat
  | [] => .finite h.max
  | b :: rest =>
      let sum := sum + h.buckets b
      if sum ≥ threshold then h.percentileIn threshold sum b
      else percentileLoop threshold sum rest

/-- `Percentile`. -/
def percentile (p : ℚ) : ExtRat :=
  h.percentileLoop (h.num * (p / 100)) 0 (List.finRange kNumBuckets)

/-- `Median`. -/
def median : ExtRat := h.percentile 50

/-- `Average`. -/
def average : ℚ := if h.num = 0 then 0 else h.sum / h.num

/-- The variance in `StandardDeviation`, which returns its square root. -/
def variance : ℚ :=
  if h.num = 0 then 0 else (h.sumSquares * h.num - h.sum * h.sum) / (h.num * h.num)

/-! ## `ToString` -/

/-- `snprintf` to `buf`, which holds 200 characters and ends with a NUL. -/
def snprintf (text : Str) : Str := text.take 199

/-- `%7.nf`, for a `precision` of `n`. -/
def fixed7 (precision : ℕ) (x : ExtRat) : Str := (fixed precision x).leftpad 7 ' '

/-- The line of totals. -/
def totals : Str :=
  "Count: ".toList ++ fixed 0 (.finite h.num) ++
    "  Average: ".toList ++ fixed 4 (.finite h.average) ++
    "  StdDev: ".toList ++ fixedSqrt 2 h.variance ++ "\n".toList

/-- The line of percentiles. -/
def percentiles : Str :=
  "Min: ".toList ++ fixed 4 (.finite (if h.num = 0 then 0 else h.min)) ++
    "  Median: ".toList ++ fixed 4 h.median ++
    "  Max: ".toList ++ fixed 4 (.finite h.max) ++
    "  P95: ".toList ++ fixed 4 (h.percentile 95) ++
    "  P99: ".toList ++ fixed 4 (h.percentile 99) ++
    "  P99.9: ".toList ++ fixed 4 (h.percentile (999 / 10)) ++ "\n".toList

/-- The text of a bucket without its marks. -/
def bucketText (sum : ℚ) (b : Fin kNumBuckets) : Str :=
  "[ ".toList ++ fixed7 0 (.finite (leftLimit b)) ++
    ", ".toList ++ fixed7 0 (.finite (kBucketLimit b)) ++
    " ) ".toList ++ fixed7 0 (.finite (h.buckets b)) ++
    " ".toList ++ fixed7 3 ((ExtRat.div 100 h.num).affine 0 (h.buckets b)) ++
    "% ".toList ++ fixed7 3 ((ExtRat.div 100 h.num).affine 0 sum) ++ "% ".toList

/-- `marks`.  Only a number is converted to `int`. -/
def marks (b : Fin kNumBuckets) : ℤ :=
  match ExtRat.div (h.buckets b) h.num with
  | .finite x => toInt (20 * x + 1 / 2)
  | _ => 0

/-- The loop of `ToString` on the buckets left. -/
def bucketLines (sum : ℚ) : List (Fin kNumBuckets) → Str
  | [] => []
  | b :: rest =>
      if h.buckets b ≤ 0 then bucketLines sum rest
      else
        let sum := sum + h.buckets b
        snprintf (h.bucketText sum b) ++ List.replicate (h.marks b).toNat '#' ++ "\n".toList ++
          bucketLines sum rest

/-- `ToString`. -/
def toString : Str :=
  snprintf h.totals ++ snprintf h.percentiles ++
    "------------------------------------------------------\n".toList ++
    h.bucketLines 0 (List.finRange kNumBuckets)

/-! ## No tabs -/

theorem tab_notMem_fixed (precision : ℕ) (x : ExtRat) : '\t' ∉ fixed precision x := by
  intro hc
  have hnumeral := isNumeral_of_mem_fixed hc
  revert hnumeral
  decide

theorem tab_notMem_fixedSqrt (precision : ℕ) (x : ℚ) : '\t' ∉ fixedSqrt precision x := by
  intro hc
  have hnumeral := isNumeral_of_mem_fixedSqrt hc
  revert hnumeral
  decide

theorem tab_notMem_fixed7 (precision : ℕ) (x : ExtRat) : '\t' ∉ fixed7 precision x := by
  simp [fixed7, List.leftpad, tab_notMem_fixed]

theorem tab_notMem_snprintf {text : Str} (htext : '\t' ∉ text) : '\t' ∉ snprintf text :=
  fun hc => htext (List.mem_of_mem_take hc)

theorem tab_notMem_totals : '\t' ∉ h.totals := by
  unfold totals
  simp only [List.mem_append, tab_notMem_fixed, tab_notMem_fixedSqrt, or_false]
  decide

theorem tab_notMem_percentiles : '\t' ∉ h.percentiles := by
  unfold percentiles
  simp only [List.mem_append, tab_notMem_fixed, or_false]
  decide

theorem tab_notMem_bucketText (sum : ℚ) (b : Fin kNumBuckets) : '\t' ∉ h.bucketText sum b := by
  unfold bucketText
  simp only [List.mem_append, tab_notMem_fixed7, or_false]
  decide

theorem tab_notMem_bucketLines (sum : ℚ) (bs : List (Fin kNumBuckets)) :
    '\t' ∉ h.bucketLines sum bs := by
  induction bs generalizing sum with
  | nil => simp [bucketLines]
  | cons b rest ih =>
      rw [bucketLines]
      split
      · exact ih sum
      · simp [tab_notMem_snprintf (h.tab_notMem_bucketText _ b), ih]

theorem tab_notMem_toString : '\t' ∉ h.toString := by
  simp [toString, tab_notMem_snprintf h.tab_notMem_totals,
    tab_notMem_snprintf h.tab_notMem_percentiles, h.tab_notMem_bucketLines]

/-- The text starts with the `C` of `Count`. -/
theorem exists_toString_eq_cons : ∃ rest, h.toString = 'C' :: rest := ⟨_, rfl⟩

end Histogram

end YcsbC
