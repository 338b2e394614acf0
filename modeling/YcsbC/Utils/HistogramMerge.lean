import YcsbC.Foundation.MultisetSummary
import YcsbC.Utils.HistogramSearch
import Mathlib.Data.Multiset.Fold

/-!
# A histogram describes the samples it has seen

`ofSamples s` is the histogram of a multiset `s` of samples, written down without
any loop: the least and the largest sample next to the values `Clear` starts
from, how many there are, their sum and sum of squares, and for each bucket how
many belong to it.  `Clear`, `Add`, `AddFast` and `Merge` all follow it
(`summary`), so a histogram depends on nothing but the samples.

`mergeThreads` is the loop of `main` that folds the histograms of the client
threads into the first one before the report.
-/

namespace YcsbC.Histogram

open TableSearch

/-! ## The histogram of a multiset -/

/-- The histogram of a multiset of samples. -/
def ofSamples (s : Multiset ℚ) : Histogram where
  min := s.fold Min.min (kBucketLimit lastBucket)
  max := s.fold Max.max 0
  num := s.card
  sum := s.sum
  sumSquares := (s.map fun x => x * x).sum
  buckets := fun b => s.countP fun x => addLoop x = b

theorem clear_eq_ofSamples : clear = ofSamples 0 := by
  ext <;> simp [clear, ofSamples]

theorem ofSamples_add (s : Multiset ℚ) (x : ℚ) :
    (ofSamples s).add x = ofSamples (x ::ₘ s) := by
  unfold add recordIn ofSamples
  ext b
  · simp only [Multiset.fold_cons_left, gt_iff_lt]
    split_ifs with h
    · exact (min_eq_left h.le).symm
    · exact (min_eq_right (not_lt.mp h)).symm
  · simp only [Multiset.fold_cons_left]
    split_ifs with h
    · exact (max_eq_left h.le).symm
    · exact (max_eq_right (not_lt.mp h)).symm
  · simp
  · simp only [Multiset.sum_cons]
    exact add_comm _ _
  · simp only [Multiset.map_cons, Multiset.sum_cons]
    exact add_comm _ _
  · by_cases h : addLoop x = b
    · subst h
      simp [Multiset.countP_cons_of_pos]
    · simp only [Function.update_of_ne (Ne.symm h)]
      rw [Multiset.countP_cons_of_neg (p := fun x => addLoop x = b) s h]

theorem ofSamples_addFast (s : Multiset ℚ) (x : ℚ) :
    (ofSamples s).addFast x = ofSamples (x ::ₘ s) := by
  rw [addFast, ← addLoop_eq_clampPos]
  exact ofSamples_add s x

theorem ofSamples_merge (s t : Multiset ℚ) :
    (ofSamples s).merge (ofSamples t) = ofSamples (s + t) := by
  have hmin := Multiset.fold_add Min.min (kBucketLimit lastBucket) (kBucketLimit lastBucket) s t
  have hmax := Multiset.fold_add Max.max (0 : ℚ) 0 s t
  rw [min_self] at hmin
  rw [max_self] at hmax
  unfold merge ofSamples
  ext b
  · simp only [hmin]
    split_ifs with h
    · exact (min_eq_right h.le).symm
    · exact (min_eq_left (not_lt.mp h)).symm
  · simp only [hmax, gt_iff_lt]
    split_ifs with h
    · exact (max_eq_right h.le).symm
    · exact (max_eq_left (not_lt.mp h)).symm
  · simp
  · simp
  · simp
  · simp [Multiset.countP_add]

/-- Samples added with `AddFast` are summarized by `ofSamples`. -/
def summary : MultisetSummary clear addFast merge where
  summary := ofSamples
  empty_eq := clear_eq_ofSamples
  add_eq := ofSamples_addFast
  merge_eq := ofSamples_merge

/-! ## The histograms of the threads -/

/-- What one client thread does to its histogram: `Clear` at the start, then one
`AddFast` for each operation. -/
def recordThread (samples : List ℚ) : Histogram := samples.foldl addFast clear

/-- The merge loop of `main` and the histogram it reports.  There is none without
a thread, where the code reads `histograms[0]` out of bounds. -/
def mergeThreads : List Histogram → Option Histogram
  | [] => none
  | first :: rest => some (rest.foldl merge first)

/-- The report does not depend on how the samples were spread over the threads,
nor on their order. -/
theorem mergeThreads_recordThread (threads : List (List ℚ)) (hpos : 1 ≤ threads.length)
    (all : List ℚ) (hall : all.Perm threads.flatten) :
    mergeThreads (threads.map recordThread) = some (recordThread all) := by
  cases threads with
  | nil => simp at hpos
  | cons first rest =>
      have hfirst : recordThread first = ofSamples first := summary.record_eq first
      have hall' : recordThread all = ofSamples all := summary.record_eq all
      have hrest := summary.foldl_merge rest first
      rw [List.map_cons, mergeThreads, hall', hfirst, Multiset.coe_eq_coe.mpr hall,
        List.flatten_cons, ← Multiset.coe_add]
      exact congrArg some hrest

/-- Three threads, one of which records nothing, and the samples in another
order. -/
theorem mergeThreads_recordThread_three :
    mergeThreads ([[5, 1200], [], [7]].map recordThread) = some (recordThread [7, 5, 1200]) :=
  mergeThreads_recordThread [[5, 1200], [], [7]] (by decide) [7, 5, 1200] (by decide)

end YcsbC.Histogram
