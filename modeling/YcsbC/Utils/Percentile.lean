import YcsbC.Utils.HistogramReport
import YcsbC.Utils.RecordedSamples

/-!
# Percentiles

The loop of `Percentile` stops at the bucket in which the count of samples reaches the
threshold (`ReachesAt`).  This bucket is not empty, so the division there is one of
numbers, and the number it interpolates is between the limits of the bucket.
-/

namespace YcsbC.Histogram

open OrderStatistic PrintedNumber RunningSum

variable (h : Histogram)

/-- `threshold` of `Percentile`. -/
def threshold (p : ℚ) : ℚ := h.num * (p / 100)

/-- The bucket at which the loop of `Percentile` returns, if there is one. -/
def stopBucket (p : ℚ) : Option ℕ :=
  stop h.buckets (h.threshold p ≤ ·) 0 (List.finRange kNumBuckets)

/-- The count of samples reaches the threshold in this bucket. -/
structure ReachesAt (t : ℚ) (b : Fin kNumBuckets) : Prop where
  lt : h.upto b < t
  le : t ≤ h.upto (b + 1)

/-- The number at a threshold between the limits of a bucket. -/
def interpolate (t : ℚ) (b : Fin kNumBuckets) : ℚ :=
  leftLimit b + (kBucketLimit b - leftLimit b) * ((t - h.upto b) / h.buckets b)

/-- The nearest number from the minimum to the maximum. -/
def clamp (r : ℚ) : ℚ := Min.min (Max.max r h.min) h.max

/-! ## Limits of buckets -/

theorem leftLimit_succ {b c : Fin kNumBuckets} (hbc : (c : ℕ) = b + 1) :
    leftLimit c = kBucketLimit b := by
  have hpred : (⟨c - 1, by omega⟩ : Fin kNumBuckets) = b := Fin.ext (by simp [hbc])
  rw [leftLimit, if_neg (by omega), hpred]

theorem exists_pred_or_zero (b : Fin kNumBuckets) :
    b = 0 ∨ ∃ c : Fin kNumBuckets, (b : ℕ) = c + 1 := by
  rcases Nat.eq_zero_or_pos b with hzero | hpos
  · exact .inl (Fin.ext hzero)
  · exact .inr ⟨⟨b - 1, by omega⟩, by simp; omega⟩

theorem limit_pos (b : Fin kNumBuckets) : 0 < kBucketLimit b := by
  have hfirst : kBucketLimit 0 = 1 := by
    rw [kBucketLimit]
    exact_mod_cast limit_unit 0
  calc (0 : ℚ) < 1 := one_pos
    _ = kBucketLimit 0 := hfirst.symm
    _ ≤ kBucketLimit b := kBucketLimit_strictMono.monotone (Fin.zero_le b)

theorem leftLimit_lt (b : Fin kNumBuckets) : leftLimit b < kBucketLimit b := by
  rcases exists_pred_or_zero b with rfl | ⟨c, hc⟩
  · exact limit_pos 0
  · rw [leftLimit_succ hc]
    exact kBucketLimit_strictMono (Fin.lt_def.mpr (by omega))

/-- The buckets do not overlap. -/
theorem limit_le_leftLimit {b c : Fin kNumBuckets} (hbc : b < c) :
    kBucketLimit b ≤ leftLimit c := by
  rcases exists_pred_or_zero c with rfl | ⟨d, hd⟩
  · exact absurd hbc (Fin.not_lt_zero b)
  · rw [leftLimit_succ hd]
    exact kBucketLimit_strictMono.monotone (Fin.le_def.mpr (by omega))

/-! ## The loop -/

section Loop

variable {h}

theorem percentileLoop_of_stop {t sum : ℚ} {l : List (Fin kNumBuckets)} {i : ℕ}
    (hstop : stop h.buckets (t ≤ ·) sum l = some i) :
    ∃ b, l[i]? = some b ∧
      h.percentileLoop t sum l = h.percentileIn t (sum + before h.buckets l (i + 1)) b := by
  induction l generalizing sum i with
  | nil => cases hstop
  | cons b rest ih =>
      rw [stop] at hstop
      split at hstop
      · rename_i hle
        cases hstop
        exact ⟨b, rfl, by simp [percentileLoop, hle]⟩
      · rename_i hlt
        obtain ⟨i, hrest, rfl⟩ := Option.map_eq_some_iff.mp hstop
        obtain ⟨c, hc, hloop⟩ := ih hrest
        refine ⟨c, by simpa using hc, ?_⟩
        rw [percentileLoop, if_neg hlt, hloop, before_cons_succ, add_assoc]

theorem percentileLoop_of_stop_eq_none {t sum : ℚ} {l : List (Fin kNumBuckets)}
    (hstop : stop h.buckets (t ≤ ·) sum l = none) :
    h.percentileLoop t sum l = .finite h.max := by
  induction l generalizing sum with
  | nil => rfl
  | cons b rest ih =>
      rw [stop] at hstop
      split at hstop
      · cases hstop
      · rename_i hlt
        rw [percentileLoop, if_neg hlt, ih (Option.map_eq_none_iff.mp hstop)]

/-- What `Percentile` returns from inside its loop. -/
theorem percentile_of_stopBucket {p : ℚ} {b : Fin kNumBuckets}
    (hstop : h.stopBucket p = some b.val) :
    h.percentile p = h.percentileIn (h.threshold p) (h.upto (b + 1)) b := by
  obtain ⟨c, hc, hloop⟩ := percentileLoop_of_stop hstop
  obtain rfl : b = c := by simpa using hc
  rw [percentile, ← threshold, hloop, zero_add, upto]

/-- What `Percentile` returns after its loop. -/
theorem percentile_of_stopBucket_eq_none {p : ℚ} (hstop : h.stopBucket p = none) :
    h.percentile p = .finite h.max :=
  percentileLoop_of_stop_eq_none hstop

/-- The two tests at the end of `Percentile`. -/
theorem clamp_eq (r : ℚ) :
    h.clamp r =
      (let x := if r < h.min then h.min else r
        if x > h.max then h.max else x) := by
  rw [clamp, max_def_lt, min_comm, min_def_lt]

/-- The two tests on a number of the report. -/
theorem clamp_finite (r : ℚ) :
    (let x := if (ExtRat.finite r).lt h.min then .finite h.min else .finite r
      if x.gt h.max then .finite h.max else x) = ExtRat.finite (h.clamp r) := by
  have hmin : (if (ExtRat.finite r).lt h.min then .finite h.min else .finite r) =
      ExtRat.finite (if r < h.min then h.min else r) := by
    simp [apply_ite ExtRat.finite, ExtRat.lt]
  dsimp only
  rw [hmin, clamp_eq]
  generalize (if r < h.min then h.min else r) = x
  simp [apply_ite ExtRat.finite, ExtRat.gt]

/-- In a bucket that is not empty the division is one of numbers. -/
theorem percentileIn_eq {t : ℚ} {b : Fin kNumBuckets} (hb : h.buckets b ≠ 0) :
    h.percentileIn t (h.upto (b + 1)) b = .finite (h.clamp (h.interpolate t b)) := by
  have hleft : h.upto (b + 1) - h.buckets b = h.upto b := by
    rw [upto_succ, add_sub_cancel_right]
  have hcount : h.upto (b + 1) - h.upto b = h.buckets b := by
    rw [upto_succ, add_sub_cancel_left]
  simp only [percentileIn, hleft, hcount, ExtRat.div, if_pos hb, ExtRat.affine]
  exact clamp_finite (h.interpolate t b)

end Loop

/-! ## The bucket that reaches the threshold -/

section Reaches

variable {h} {p t : ℚ} {b : Fin kNumBuckets}

theorem ReachesAt.isCut (hb : h.ReachesAt t b) :
    IsCut h.buckets (t ≤ ·) (List.finRange kNumBuckets) b :=
  ⟨by simp, not_le.mpr hb.lt, hb.le⟩

theorem ReachesAt.pos (hb : h.ReachesAt t b) : 0 < h.buckets b := by
  have hlt := hb.lt.trans_le hb.le
  rw [upto_succ] at hlt
  exact pos_of_lt_add_right hlt

theorem exists_reachesAt (ht : 0 < t) (htotal : t ≤ h.upto kNumBuckets) :
    ∃ b, h.ReachesAt t b := by
  have hall : h.upto kNumBuckets = ((List.finRange kNumBuckets).map h.buckets).sum :=
    before_of_length_le _ (by simp)
  obtain ⟨i, hi⟩ := exists_isCut h.buckets (P := (t ≤ ·)) (not_le.mpr ht) (hall ▸ htotal)
  have hlt : i < kNumBuckets := by simpa using hi.lt
  exact ⟨⟨i, hlt⟩, not_le.mp hi.not_before, hi.upto⟩

/-- The number is in the bucket. -/
theorem ReachesAt.leftLimit_le (hb : h.ReachesAt t b) : leftLimit b ≤ h.interpolate t b := by
  have hwidth := (sub_pos.mpr (leftLimit_lt b)).le
  exact le_add_of_nonneg_right
    (mul_nonneg hwidth (div_nonneg (sub_nonneg.mpr hb.lt.le) hb.pos.le))

theorem ReachesAt.le_limit (hb : h.ReachesAt t b) : h.interpolate t b ≤ kBucketLimit b := by
  have hwidth := (sub_pos.mpr (leftLimit_lt b)).le
  have hpos : (t - h.upto b) / h.buckets b ≤ 1 := by
    have hle := hb.le
    rw [upto_succ] at hle
    rw [div_le_one hb.pos]
    linarith
  calc h.interpolate t b ≤ leftLimit b + (kBucketLimit b - leftLimit b) * 1 :=
        add_le_add_right (mul_le_mul_of_nonneg_left hpos hwidth) _
    _ = kBucketLimit b := by ring

/-- At the whole count of the buckets so far the number is the limit. -/
theorem interpolate_upto (hb : h.buckets b ≠ 0) :
    h.interpolate (h.upto (b + 1)) b = kBucketLimit b := by
  rw [interpolate, upto_succ, add_sub_cancel_left, div_self hb]
  ring

variable (hnonneg : ∀ b, 0 ≤ h.buckets b)

include hnonneg

theorem ReachesAt.stopBucket (hb : h.ReachesAt (h.threshold p) b) :
    h.stopBucket p = some b.val :=
  hb.isCut.stop_eq (fun b _ => hnonneg b) fun _ _ hle ht => le_trans ht hle

/-- What `Percentile` returns when the count reaches the threshold in a bucket. -/
theorem ReachesAt.percentile (hb : h.ReachesAt (h.threshold p) b) :
    h.percentile p = .finite (h.clamp (h.interpolate (h.threshold p) b)) := by
  rw [percentile_of_stopBucket (hb.stopBucket hnonneg), percentileIn_eq hb.pos.ne']

/-- What `Percentile` returns when the threshold is above the whole count. -/
theorem percentile_of_upto_lt (hlt : h.upto kNumBuckets < h.threshold p) :
    h.percentile p = .finite h.max := by
  have hall : h.upto kNumBuckets = ((List.finRange kNumBuckets).map h.buckets).sum :=
    before_of_length_le _ (by simp)
  refine percentile_of_stopBucket_eq_none ?_
  exact stop_eq_none_of_total (fun b _ => hnonneg b) (fun _ _ hle ht => le_trans ht hle)
    (not_le.mpr (hall ▸ hlt))

/-- A greater threshold gives a greater number. -/
theorem ReachesAt.interpolate_mono {t' : ℚ} {b' : Fin kNumBuckets} (hb : h.ReachesAt t b)
    (hb' : h.ReachesAt t' b') (hle : t ≤ t') : h.interpolate t b ≤ h.interpolate t' b' := by
  have hbb' : b ≤ b' :=
    hb.isCut.le_of_imp (fun b _ => hnonneg b) (fun _ _ hle ht => le_trans ht hle) hb'.isCut
      fun _ ht' => le_trans hle ht'
  rcases hbb'.lt_or_eq with hlt | rfl
  · calc h.interpolate t b ≤ kBucketLimit b := hb.le_limit
      _ ≤ leftLimit b' := limit_le_leftLimit hlt
      _ ≤ h.interpolate t' b' := hb'.leftLimit_le
  · have hwidth := (sub_pos.mpr (leftLimit_lt b)).le
    have hpos := hb.pos
    rw [interpolate, interpolate]
    gcongr

end Reaches

/-! ## The minimum and the maximum -/

section Clamp

variable {h}

theorem clamp_mono : Monotone h.clamp := fun _ _ hle =>
  min_le_min_right _ (max_le_max_right _ hle)

theorem clamp_le_max (r : ℚ) : h.clamp r ≤ h.max := min_le_right _ _

theorem min_le_clamp (hle : h.min ≤ h.max) (r : ℚ) : h.min ≤ h.clamp r :=
  le_min (le_max_right _ _) hle

theorem le_clamp {r lo : ℚ} (hr : lo ≤ r) (hmax : lo ≤ h.max) : lo ≤ h.clamp r :=
  le_min (hr.trans (le_max_left _ _)) hmax

theorem clamp_le {r hi : ℚ} (hr : r ≤ hi) (hmin : h.min ≤ hi) : h.clamp r ≤ hi :=
  (min_le_left _ _).trans (max_le hr hmin)

theorem clamp_of_max_le {r : ℚ} (hr : h.max ≤ r) : h.clamp r = h.max :=
  min_eq_right (hr.trans (le_max_left _ _))

end Clamp

/-! ## Percentiles and samples -/

/-- `Percentile(p)` returns `r` from inside its loop, at a bucket that holds the sample of
the nearest rank, and `r` is between the limits of this bucket. -/
structure BucketAccurate (h : Histogram) (s : Multiset ℚ) (p : ℚ) (b : Fin kNumBuckets)
    (r x : ℚ) : Prop where
  stops : h.stopBucket p = some b.val
  count_ne_zero : h.buckets b ≠ 0
  returns : h.percentile p = .finite r
  min_le : h.min ≤ r
  le_max : r ≤ h.max
  leftLimit_le : leftLimit b ≤ r
  le_limit : r ≤ kBucketLimit b
  nearestRank : smallest s ⌈s.card * (p / 100)⌉₊ = some x
  leftLimit_le_rank : leftLimit b ≤ x
  rank_lt_limit : x < kBucketLimit b

/-- The report lists its percentiles between the minimum and the maximum in ascending order,
also when they are rounded to the four decimals that it prints. -/
def ListsInOrder (h : Histogram) : Prop :=
  ∃ median p95 p99 p999 : ℚ, h.median = .finite median ∧ h.percentile 95 = .finite p95 ∧
    h.percentile 99 = .finite p99 ∧ h.percentile (999 / 10) = .finite p999 ∧
    [h.min, median, p95, p99, p999, h.max].IsChain (· ≤ ·) ∧
    ([h.min, median, p95, p99, p999, h.max].map fun x => roundHalfEven (x * 10 ^ 4)).IsChain
      (· ≤ ·)

section Samples

variable {h : Histogram} {s : Multiset ℚ} {p : ℚ}

theorem threshold_pos (hs : s ≠ 0) (hp : 0 < p) : 0 < (ofSamples s).threshold p := by
  have hcard : (0 : ℚ) < s.card := Nat.cast_pos.mpr (Multiset.card_pos.mpr hs)
  exact mul_pos hcard (div_pos hp (by norm_num))

theorem threshold_le (hp : p ≤ 100) : (ofSamples s).threshold p ≤ (ofSamples s).upto kNumBuckets := by
  rw [upto_ofSamples_last, threshold, num_ofSamples]
  exact mul_le_of_le_one_right (Nat.cast_nonneg _) ((div_le_one (by norm_num)).mpr hp)

theorem min_le_max (hrange : InRange s) (hs : s ≠ 0) : (ofSamples s).min ≤ (ofSamples s).max :=
  le_max_ofSamples (min_ofSamples_mem hrange hs)

/-- The sample of the nearest rank is in the bucket that reaches the threshold. -/
theorem ReachesAt.rank_mem {b : Fin kNumBuckets} (hrange : InRange s)
    (hb : (ofSamples s).ReachesAt ((ofSamples s).threshold p) b) {x : ℚ}
    (hx : smallest s ⌈(ofSamples s).threshold p⌉₊ = some x) :
    leftLimit b ≤ x ∧ x < kBucketLimit b := by
  have hlimit : ∀ c, x < kBucketLimit c ↔
      (ofSamples s).threshold p ≤ (ofSamples s).upto (c + 1) := by
    intro c
    rw [smallest_lt_iff hx, upto_succ_eq hrange, Nat.ceil_le]
  refine ⟨?_, (hlimit b).mpr hb.le⟩
  rcases exists_pred_or_zero b with rfl | ⟨c, hc⟩
  · exact (hrange x (smallest_mem hx)).1
  · rw [leftLimit_succ hc, ← not_lt, hlimit, not_le, ← hc]
    exact hb.lt

/-- At the whole count `Percentile` returns the maximum. -/
theorem percentile_hundred (hrange : InRange s) (hs : s ≠ 0) :
    (ofSamples s).percentile 100 = .finite (ofSamples s).max := by
  obtain ⟨b, hb⟩ := exists_reachesAt (threshold_pos hs (by norm_num)) (threshold_le le_rfl)
  have hall : (ofSamples s).threshold 100 = s.card := by
    rw [threshold, num_ofSamples, div_self (by norm_num), mul_one]
  have hcount : (ofSamples s).upto (b + 1) = s.countP (· < kBucketLimit b) := upto_succ_eq hrange b
  have hle : s.card ≤ s.countP (· < kBucketLimit b) := by
    have := hb.le
    rw [hall, hcount] at this
    exact_mod_cast this
  have hbelow : ∀ x ∈ s, x < kBucketLimit b :=
    Multiset.countP_eq_card.mp (le_antisymm (Multiset.countP_le_card _ _) hle)
  have hupto : (ofSamples s).threshold 100 = (ofSamples s).upto (b + 1) := by
    rw [hall, hcount, le_antisymm (Multiset.countP_le_card _ _) hle]
  rw [hb.percentile (buckets_ofSamples_nonneg s), hupto, interpolate_upto hb.pos.ne',
    clamp_of_max_le (hbelow _ (max_ofSamples_mem hrange hs)).le]

/-- A percentile up to 100 is in the bucket of the sample of the nearest rank. -/
theorem percentile_bucketAccurate (hrec : Recorded s h) (hrange : InRange s) (hs : s ≠ 0)
    (hp : 0 < p) (hp100 : p ≤ 100) :
    (∃ b r x, BucketAccurate h s p b r x) ∧ h.percentile 100 = .finite h.max := by
  obtain rfl := hrec.eq_ofSamples
  refine ⟨?_, percentile_hundred hrange hs⟩
  have hpos := threshold_pos hs hp
  have hle : (ofSamples s).threshold p ≤ s.card := upto_ofSamples_last (s := s) ▸ threshold_le hp100
  obtain ⟨b, hb⟩ := exists_reachesAt hpos (threshold_le hp100)
  obtain ⟨x, hx⟩ := exists_smallest (Nat.ceil_pos.mpr hpos) (Nat.ceil_le.mpr hle)
  obtain ⟨hleft, hright⟩ := hb.rank_mem hrange hx
  have hmem := smallest_mem hx
  have hnonneg := buckets_ofSamples_nonneg s
  exact ⟨b, _, x, {
    stops := hb.stopBucket hnonneg
    count_ne_zero := hb.pos.ne'
    returns := hb.percentile hnonneg
    min_le := min_le_clamp (min_le_max hrange hs) _
    le_max := clamp_le_max _
    leftLimit_le := le_clamp hb.leftLimit_le (hleft.trans (le_max_ofSamples hmem))
    le_limit := clamp_le hb.le_limit ((min_ofSamples_le hmem).trans hright.le)
    nearestRank := hx
    leftLimit_le_rank := hleft
    rank_lt_limit := hright }⟩

/-- `Percentile` returns a number between the minimum and the maximum. -/
theorem exists_percentile (hrange : InRange s) (hs : s ≠ 0) (hp : 0 < p) :
    ∃ r, (ofSamples s).percentile p = .finite r ∧ (ofSamples s).min ≤ r ∧
      r ≤ (ofSamples s).max := by
  have hminmax := min_le_max hrange hs
  have hnonneg := buckets_ofSamples_nonneg s
  rcases le_or_gt ((ofSamples s).threshold p) ((ofSamples s).upto kNumBuckets) with hle | hgt
  · obtain ⟨b, hb⟩ := exists_reachesAt (threshold_pos hs hp) hle
    exact ⟨_, hb.percentile hnonneg, min_le_clamp hminmax _, clamp_le_max _⟩
  · exact ⟨_, percentile_of_upto_lt hnonneg hgt, hminmax, le_rfl⟩

/-- `Percentile` keeps the order. -/
theorem percentile_mono (hs : s ≠ 0) {p₁ p₂ : ℚ} (hp : 0 < p₁) (hle : p₁ ≤ p₂) {r₁ r₂ : ℚ}
    (hr₁ : (ofSamples s).percentile p₁ = .finite r₁)
    (hr₂ : (ofSamples s).percentile p₂ = .finite r₂) : r₁ ≤ r₂ := by
  have hnonneg := buckets_ofSamples_nonneg s
  have hthreshold : (ofSamples s).threshold p₁ ≤ (ofSamples s).threshold p₂ := by
    rw [threshold, threshold, num_ofSamples]
    gcongr
  rcases le_or_gt ((ofSamples s).threshold p₂) ((ofSamples s).upto kNumBuckets) with hle₂ | hgt₂
  · obtain ⟨b₁, hb₁⟩ := exists_reachesAt (threshold_pos hs hp) (hthreshold.trans hle₂)
    obtain ⟨b₂, hb₂⟩ := exists_reachesAt (threshold_pos hs (hp.trans_le hle)) hle₂
    cases hr₁.symm.trans (hb₁.percentile hnonneg)
    cases hr₂.symm.trans (hb₂.percentile hnonneg)
    exact clamp_mono (hb₁.interpolate_mono hnonneg hb₂ hthreshold)
  · -- the second call returns the maximum, after its loop
    cases hr₂.symm.trans (percentile_of_upto_lt hnonneg hgt₂)
    rcases le_or_gt ((ofSamples s).threshold p₁) ((ofSamples s).upto kNumBuckets) with hle₁ | hgt₁
    · obtain ⟨b₁, hb₁⟩ := exists_reachesAt (threshold_pos hs hp) hle₁
      cases hr₁.symm.trans (hb₁.percentile hnonneg)
      exact clamp_le_max _
    · cases hr₁.symm.trans (percentile_of_upto_lt hnonneg hgt₁)
      exact le_rfl

theorem listsInOrder (hrange : InRange s) (hs : s ≠ 0) : (ofSamples s).ListsInOrder := by
  obtain ⟨median, hmedian, hmin, -⟩ := exists_percentile (p := 50) hrange hs (by norm_num)
  obtain ⟨p95, hp95, -⟩ := exists_percentile (p := 95) hrange hs (by norm_num)
  obtain ⟨p99, hp99, -⟩ := exists_percentile (p := 99) hrange hs (by norm_num)
  obtain ⟨p999, hp999, -, hmax⟩ := exists_percentile (p := 999 / 10) hrange hs (by norm_num)
  have h₁ : median ≤ p95 := percentile_mono hs (by norm_num) (by norm_num) hmedian hp95
  have h₂ : p95 ≤ p99 := percentile_mono hs (by norm_num) (by norm_num) hp95 hp99
  have h₃ : p99 ≤ p999 := percentile_mono hs (by norm_num) (by norm_num) hp99 hp999
  have hround : ∀ {x y : ℚ}, x ≤ y → roundHalfEven (x * 10 ^ 4) ≤ roundHalfEven (y * 10 ^ 4) :=
    fun hxy => roundHalfEven_mono (mul_le_mul_of_nonneg_right hxy (by positivity))
  refine ⟨median, p95, p99, p999, hmedian, hp95, hp99, hp999, ?_, ?_⟩
  · simp [hmin, h₁, h₂, h₃, hmax]
  · simp [hround hmin, hround h₁, hround h₂, hround h₃, hround hmax]

/-- Percentiles are ordered as their arguments. -/
theorem percentiles_ordered (hrec : Recorded s h) (hrange : InRange s) (hs : s ≠ 0) {p₁ p₂ : ℚ}
    (hp : 0 < p₁) (hle : p₁ ≤ p₂) :
    (∃ r₁ r₂, h.percentile p₁ = .finite r₁ ∧ h.percentile p₂ = .finite r₂ ∧ r₁ ≤ r₂) ∧
      h.ListsInOrder := by
  obtain rfl := hrec.eq_ofSamples
  obtain ⟨r₁, hr₁, -⟩ := exists_percentile hrange hs hp
  obtain ⟨r₂, hr₂, -⟩ := exists_percentile hrange hs (hp.trans_le hle)
  exact ⟨⟨r₁, r₂, hr₁, hr₂, percentile_mono hs hp hle hr₁ hr₂⟩, listsInOrder hrange hs⟩

/-- Four samples, two of them recorded by another thread. -/
theorem recorded_fourSamples :
    Recorded {5, 7, 1200, 7} (((clear.add 7).addFast 5).merge ((clear.add 7).add 1200)) := by
  have hrec := ((Recorded.clear.add 7).addFast 5).merge ((Recorded.clear.add 7).add 1200)
  convert hrec using 1
  decide

/-- The theorem on the 95th percentile of these samples. -/
theorem percentile_bucketAccurate_fourSamples :
    let h := ((clear.add 7).addFast 5).merge ((clear.add 7).add 1200)
    (∃ b r x, BucketAccurate h {5, 7, 1200, 7} 95 b r x) ∧ h.percentile 100 = .finite h.max :=
  percentile_bucketAccurate recorded_fourSamples (by decide +kernel) (by decide) (by norm_num)
    (by norm_num)

/-- The theorem on the median and a percentile above 100 of these samples. -/
theorem percentiles_ordered_fourSamples :
    let h := ((clear.add 7).addFast 5).merge ((clear.add 7).add 1200)
    (∃ r₁ r₂, h.percentile 50 = .finite r₁ ∧ h.percentile 110 = .finite r₂ ∧ r₁ ≤ r₂) ∧
      h.ListsInOrder :=
  percentiles_ordered recorded_fourSamples (by decide +kernel) (by decide) (by norm_num)
    (by norm_num)

end Samples

end YcsbC.Histogram
