import YcsbC.Foundation.MultisetExtremes
import YcsbC.Foundation.OrderStatistic
import YcsbC.Foundation.RunningSum
import YcsbC.Utils.HistogramMerge

/-!
# Histograms and the samples recorded in them

A histogram that `Add`, `AddFast` and `Merge` have led to from `Clear` is the histogram of
the samples recorded in it (`Recorded.eq_ofSamples`).  Its minimum and maximum are samples
when there are any, and its buckets up to a limit hold the samples below that limit
(`upto_succ_eq`).
-/

namespace YcsbC.Histogram

open RunningSum TableSearch

/-- A histogram that calls have led to from `Clear`, with the samples recorded in it. -/
inductive Recorded : Multiset ℚ → Histogram → Prop where
  | clear : Recorded 0 clear
  | add {s h} (x : ℚ) : Recorded s h → Recorded (x ::ₘ s) (h.add x)
  | addFast {s h} (x : ℚ) : Recorded s h → Recorded (x ::ₘ s) (h.addFast x)
  | merge {s t h other} : Recorded s h → Recorded t other → Recorded (s + t) (h.merge other)

/-- Samples from zero to below the last limit. -/
def InRange (s : Multiset ℚ) : Prop := ∀ x ∈ s, 0 ≤ x ∧ x < 10 ^ 200

instance (s : Multiset ℚ) : Decidable (InRange s) :=
  inferInstanceAs (Decidable (∀ x ∈ s, 0 ≤ x ∧ x < 10 ^ 200))

theorem Recorded.eq_ofSamples {s : Multiset ℚ} {h : Histogram} (hrec : Recorded s h) :
    h = ofSamples s := by
  induction hrec with
  | clear => exact clear_eq_ofSamples
  | add x hrec ih => rw [ih, ofSamples_add]
  | addFast x hrec ih => rw [ih, ofSamples_addFast]
  | merge hrec hrec' ih ih' => rw [ih, ih', ofSamples_merge]

/-- What one thread records. -/
theorem recorded_recordThread (samples : List ℚ) :
    Recorded (samples : Multiset ℚ) (recordThread samples) := by
  induction samples using List.reverseRecOn with
  | nil => exact .clear
  | append_singleton samples x ih =>
      have hrec := ih.addFast x
      rw [Multiset.cons_coe] at hrec
      rw [Multiset.coe_eq_coe.mpr (List.perm_append_singleton x samples), recordThread,
        List.foldl_append]
      exact hrec

/-! ## Limits -/

theorem limit_last : kBucketLimit lastBucket = 10 ^ 200 := by
  have hlimit : bucketLimits.get lastBucket = 10 ^ 200 := by decide +kernel
  rw [kBucketLimit, hlimit, Nat.cast_pow, Nat.cast_ofNat]

/-- A sample below the last limit is in one of the buckets up to a limit when it is below
this limit. -/
theorem addLoop_le_iff {x : ℚ} (hx : x < 10 ^ 200) {b : Fin kNumBuckets} :
    addLoop x ≤ b ↔ x < kBucketLimit b := by
  have hbucket : IsBucket kBucketLimit x (addLoop x) :=
    scan_isBucket kBucketLimit x 0 fun i hi => absurd hi (Fin.not_lt_zero i)
  have hlt : x < kBucketLimit (addLoop x) := by
    rcases hbucket.above with hlt | hlast
    · exact hlt
    · rw [hlast, limit_last]
      exact hx
  constructor
  · exact fun hle => hlt.trans_le (kBucketLimit_strictMono.monotone hle)
  · intro hxb
    by_contra hgt
    exact (hbucket.below b (not_le.mp hgt)).not_gt hxb

/-! ## What the fields hold -/

section Fields

variable {s : Multiset ℚ}

theorem min_ofSamples_le {x : ℚ} (hx : x ∈ s) : (ofSamples s).min ≤ x :=
  MultisetExtremes.fold_min_le hx

theorem le_max_ofSamples {x : ℚ} (hx : x ∈ s) : x ≤ (ofSamples s).max :=
  MultisetExtremes.le_fold_max hx

theorem min_ofSamples_mem (hrange : InRange s) (hs : s ≠ 0) : (ofSamples s).min ∈ s := by
  refine MultisetExtremes.fold_min_mem hs fun x hx => ?_
  rw [limit_last]
  exact (hrange x hx).2.le

theorem max_ofSamples_mem (hrange : InRange s) (hs : s ≠ 0) : (ofSamples s).max ∈ s :=
  MultisetExtremes.fold_max_mem hs fun x hx => (hrange x hx).1

@[simp] theorem num_ofSamples (s : Multiset ℚ) : (ofSamples s).num = s.card := rfl

theorem buckets_ofSamples_nonneg (s : Multiset ℚ) (b : Fin kNumBuckets) :
    0 ≤ (ofSamples s).buckets b :=
  Nat.cast_nonneg _

/-- The count of the first `i` buckets. -/
def upto (h : Histogram) (i : ℕ) : ℚ := before h.buckets (List.finRange kNumBuckets) i

@[simp] theorem upto_zero (h : Histogram) : h.upto 0 = 0 := before_zero _ _

theorem upto_succ (h : Histogram) (b : Fin kNumBuckets) :
    h.upto (b + 1) = h.upto b + h.buckets b := by
  have hb : (b : ℕ) < (List.finRange kNumBuckets).length := by simp
  rw [upto, before_succ _ hb, upto]
  simp

/-- The first `i` buckets hold the samples that were put there. -/
theorem upto_ofSamples {i : ℕ} (hi : i ≤ kNumBuckets) :
    (ofSamples s).upto i = s.countP fun x => (addLoop x : ℕ) < i := by
  induction i with
  | zero => simp
  | succ i ih =>
      have hsplit := OrderStatistic.countP_lt_succ (fun x => (addLoop x : ℕ)) s i
      have hbucket : (ofSamples s).buckets ⟨i, hi⟩ = s.countP fun x => (addLoop x : ℕ) = i :=
        congrArg Nat.cast (Multiset.countP_congr rfl fun x _ => propext Fin.ext_iff)
      rw [(ofSamples s).upto_succ ⟨i, hi⟩, ih (Nat.le_of_succ_le hi), hsplit, hbucket, Nat.cast_add]

/-- All buckets together hold all samples. -/
theorem upto_ofSamples_last : (ofSamples s).upto kNumBuckets = s.card := by
  rw [upto_ofSamples le_rfl, Nat.cast_inj, Multiset.countP_eq_card]
  exact fun x _ => (addLoop x).isLt

/-- The buckets up to a limit hold the samples below it. -/
theorem upto_succ_eq (hrange : InRange s) (b : Fin kNumBuckets) :
    (ofSamples s).upto (b + 1) = s.countP (· < kBucketLimit b) := by
  rw [upto_ofSamples (Nat.succ_le_of_lt b.isLt), Nat.cast_inj]
  refine Multiset.countP_congr rfl fun x hx => ?_
  rw [Nat.lt_succ_iff, ← Fin.le_def, addLoop_le_iff (hrange x hx).2]

end Fields

end YcsbC.Histogram
