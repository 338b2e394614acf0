import YcsbC.Foundation.Dispersion
import YcsbC.Utils.HistogramReport
import YcsbC.Utils.RecordedSamples
import Mathlib.Algebra.BigOperators.Fin

/-!
# Mean and variance

Of the samples recorded in it a histogram keeps the number, the sum and the sum of squares.
They determine the mean, which is between the minimum and the maximum, and the variance,
which is never negative (`recorded_moments`).
-/

namespace YcsbC.Histogram

variable {s : Multiset ℚ}

/-- The mean and the variance of a histogram make sense for the samples recorded. -/
structure MeaningfulMoments (h : Histogram) (s : Multiset ℚ) : Prop where
  sum_buckets : ∑ b, h.buckets b = h.num
  radicand_nonneg : 0 ≤ h.sumSquares * h.num - h.sum * h.sum
  radicand_eq_zero_iff : h.sumSquares * h.num - h.sum * h.sum = 0 ↔ ∀ x ∈ s, ∀ y ∈ s, x = y
  variance_nonneg : 0 ≤ h.variance
  average_mem : 0 < h.num → h.min ≤ h.average ∧ h.average ≤ h.max

theorem sum_buckets_ofSamples (s : Multiset ℚ) : ∑ b, (ofSamples s).buckets b = s.card := by
  rw [← upto_ofSamples_last, upto, RunningSum.before_of_length_le _ (by simp), Fin.sum_univ_def]

theorem radicand_ofSamples (s : Multiset ℚ) :
    (ofSamples s).sumSquares * (ofSamples s).num - (ofSamples s).sum * (ofSamples s).sum =
      Dispersion.spread s := rfl

theorem average_ofSamples (hs : s ≠ 0) : (ofSamples s).average = Dispersion.mean s := by
  have hcard : (ofSamples s).num ≠ 0 := Nat.cast_ne_zero.mpr (Multiset.card_pos.mpr hs).ne'
  rw [average, if_neg hcard]
  rfl

theorem variance_ofSamples_nonneg (s : Multiset ℚ) : 0 ≤ (ofSamples s).variance := by
  rw [variance]
  split
  · exact le_rfl
  · rw [radicand_ofSamples]
    exact div_nonneg (Dispersion.spread_nonneg s) (mul_self_nonneg _)

/-- The mean is between the minimum and the maximum. -/
theorem average_ofSamples_mem (hs : s ≠ 0) :
    (ofSamples s).min ≤ (ofSamples s).average ∧ (ofSamples s).average ≤ (ofSamples s).max := by
  rw [average_ofSamples hs]
  exact ⟨Dispersion.le_mean hs fun _ hx => min_ofSamples_le hx,
    Dispersion.mean_le hs fun _ hx => le_max_ofSamples hx⟩

/-- In every histogram that can be reached the mean and the variance make sense, also when
samples are negative or above the last limit. -/
theorem recorded_moments {h : Histogram} (hrec : Recorded s h) :
    MeaningfulMoments h s := by
  obtain rfl := hrec.eq_ofSamples
  refine ⟨sum_buckets_ofSamples s, ?_, ?_, variance_ofSamples_nonneg s, fun hnum => ?_⟩
  · rw [radicand_ofSamples]
    exact Dispersion.spread_nonneg s
  · rw [radicand_ofSamples]
    exact Dispersion.spread_eq_zero_iff s
  · refine average_ofSamples_mem ?_
    rintro rfl
    simp at hnum

/-- The theorem on two histograms merged. -/
theorem recorded_moments_twoMerged :
    MeaningfulMoments ((clear.add 7).merge (clear.addFast 5)) ({7} + {5}) :=
  recorded_moments ((Recorded.clear.add 7).merge (Recorded.clear.addFast 5))

end YcsbC.Histogram
