import YcsbC.Core.CounterGenerator
import YcsbC.Utils.Percentile

/-!
# Divisions in the report

`Checked` has the functions behind `ToString` once more, with divisions that give nothing
when the divisor is zero.  Where they give a number it is the one that the report prints.
`Average` and `StandardDeviation` look at the number of samples first, `Percentile` and
`ToString` do not.  So the report divides by zero exactly when no sample was recorded, which
is so when there are fewer operations than threads (`dividesByNoZero_iff`).
-/

namespace YcsbC.Histogram

/-- `x / y`, unless the divisor is zero. -/
def divide (x y : ℚ) : Option ℚ := if y = 0 then none else some (x / y)

theorem divide_of_ne_zero {x y : ℚ} (hy : y ≠ 0) : divide x y = some (x / y) := if_neg hy

theorem divide_eq_some {x y r : ℚ} (hdivide : divide x y = some r) : y ≠ 0 ∧ r = x / y := by
  rw [divide] at hdivide
  split at hdivide
  · cases hdivide
  · rename_i hy
    cases hdivide
    exact ⟨hy, rfl⟩

/-- A division that gives a number is the one of the report. -/
theorem div_eq_finite {x y r : ℚ} (hdivide : divide x y = some r) :
    ExtRat.div x y = .finite r := by
  obtain ⟨hy, rfl⟩ := divide_eq_some hdivide
  rw [ExtRat.div, if_pos hy]

namespace Checked

variable (h : Histogram)

/-- What `Percentile` returns from inside its loop. -/
def percentileIn (threshold sum : ℚ) (b : Fin kNumBuckets) : Option ℚ := do
  let leftPoint := leftLimit b
  let rightPoint := kBucketLimit b
  let leftSum := sum - h.buckets b
  let pos ← divide (threshold - leftSum) (sum - leftSum)
  let r := leftPoint + (rightPoint - leftPoint) * pos
  let r := if r < h.min then h.min else r
  return if r > h.max then h.max else r

/-- The loop of `Percentile` on the buckets left. -/
def percentileLoop (threshold sum : ℚ) : List (Fin kNumBuckets) → Option ℚ
  | [] => some h.max
  | b :: rest =>
      let sum := sum + h.buckets b
      if sum ≥ threshold then percentileIn h threshold sum b
      else percentileLoop threshold sum rest

/-- `Percentile`. -/
def percentile (p : ℚ) : Option ℚ := do
  let share ← divide p 100
  percentileLoop h (h.num * share) 0 (List.finRange kNumBuckets)

/-- `Average`. -/
def average : Option ℚ := if h.num = 0 then some 0 else divide h.sum h.num

/-- The variance in `StandardDeviation`. -/
def variance : Option ℚ :=
  if h.num = 0 then some 0
  else divide (h.sumSquares * h.num - h.sum * h.sum) (h.num * h.num)

/-- The shares of the buckets left, from which `ToString` computes their marks. -/
def shares : List (Fin kNumBuckets) → Option (List ℚ)
  | [] => some []
  | b :: rest =>
      if h.buckets b ≤ 0 then shares rest
      else do
        let share ← divide (h.buckets b) h.num
        return share :: (← shares rest)

/-- `ToString`, which divides in this order. -/
def toString : Option Str := do
  let _ ← average h
  let _ ← variance h
  let _ ← percentile h 50
  let _ ← percentile h 95
  let _ ← percentile h 99
  let _ ← percentile h (999 / 10)
  let _ ← divide 100 h.num
  let _ ← shares h (List.finRange kNumBuckets)
  return h.toString

/-! ## The numbers are those of the report -/

variable {h}

/-- A division behind the test for the empty histogram. -/
theorem guarded_eq_some {n x y r : ℚ} (hr : (if n = 0 then some 0 else divide x y) = some r) :
    (if n = 0 then 0 else x / y) = r := by
  split at hr
  · cases hr
    exact if_pos ‹_›
  · rw [if_neg ‹_›]
    exact (divide_eq_some hr).2.symm

theorem average_eq_some {r : ℚ} (hr : average h = some r) : h.average = r := guarded_eq_some hr

theorem variance_eq_some {r : ℚ} (hr : variance h = some r) : h.variance = r := guarded_eq_some hr

theorem percentileIn_eq_some {t sum : ℚ} {b : Fin kNumBuckets} {r : ℚ}
    (hr : percentileIn h t sum b = some r) : h.percentileIn t sum b = .finite r := by
  obtain ⟨pos, hpos, hrest⟩ := Option.bind_eq_some_iff.mp hr
  cases hrest
  simp only [Histogram.percentileIn, div_eq_finite hpos, ExtRat.affine]
  exact (clamp_finite _).trans (congrArg ExtRat.finite (clamp_eq _))

theorem percentileLoop_eq_some {t sum : ℚ} {l : List (Fin kNumBuckets)} {r : ℚ}
    (hr : percentileLoop h t sum l = some r) : h.percentileLoop t sum l = .finite r := by
  induction l generalizing sum with
  | nil =>
      cases hr
      rfl
  | cons b rest ih =>
      rw [percentileLoop] at hr
      rw [Histogram.percentileLoop]
      split at hr
      · rw [if_pos ‹_›]
        exact percentileIn_eq_some hr
      · rw [if_neg ‹_›]
        exact ih hr

theorem percentile_eq_some {p r : ℚ} (hr : percentile h p = some r) :
    h.percentile p = .finite r := by
  rw [percentile, divide_of_ne_zero (by norm_num), Option.bind_eq_bind, Option.bind_some] at hr
  exact percentileLoop_eq_some hr

theorem shares_eq_some {l : List (Fin kNumBuckets)} {xs : List ℚ} (hxs : shares h l = some xs) :
    (l.filter (0 < h.buckets ·)).map h.marks = xs.map fun x => toInt (20 * x + 1 / 2) := by
  induction l generalizing xs with
  | nil =>
      cases hxs
      rfl
  | cons b rest ih =>
      rw [shares] at hxs
      split at hxs
      · rename_i hle
        rw [List.filter_cons_of_neg (by simpa using hle)]
        exact ih hxs
      · rename_i hgt
        obtain ⟨x, hx, hrest⟩ := Option.bind_eq_some_iff.mp hxs
        obtain ⟨ys, hys, hcons⟩ := Option.bind_eq_some_iff.mp hrest
        cases hcons
        rw [List.filter_cons_of_pos (by simpa using hgt), List.map_cons, List.map_cons, ih hys,
          marks, div_eq_finite hx]

/-! ## When there is no division by zero -/

theorem isSome_percentileIn {t sum : ℚ} {b : Fin kNumBuckets} (hb : h.buckets b ≠ 0) :
    (percentileIn h t sum b).isSome := by
  simp [percentileIn, divide, hb]

/-- The bucket at which the count passes the threshold is not empty. -/
theorem isSome_percentileLoop {t sum : ℚ} {l : List (Fin kNumBuckets)} (hlow : sum < t) :
    (percentileLoop h t sum l).isSome := by
  induction l generalizing sum with
  | nil => rfl
  | cons b rest ih =>
      rw [percentileLoop]
      split
      · rename_i hge
        refine isSome_percentileIn fun hzero => ?_
        rw [hzero, add_zero] at hge
        exact hlow.not_ge hge
      · exact ih (not_le.mp ‹_›)

theorem isSome_percentile {p : ℚ} (hnum : 0 < h.num) (hp : 0 < p) : (percentile h p).isSome := by
  rw [percentile, divide_of_ne_zero (by norm_num), Option.bind_eq_bind, Option.bind_some]
  exact isSome_percentileLoop (mul_pos hnum (div_pos hp (by norm_num)))

theorem isSome_guarded {n x y : ℚ} (hy : n ≠ 0 → y ≠ 0) :
    (if n = 0 then some 0 else divide x y).isSome := by
  split
  · rfl
  · rw [divide_of_ne_zero (hy ‹_›)]
    rfl

theorem isSome_average : (average h).isSome := isSome_guarded id

theorem isSome_variance : (variance h).isSome := isSome_guarded mul_self_ne_zero.mpr

theorem isSome_shares (hnum : h.num ≠ 0) (l : List (Fin kNumBuckets)) : (shares h l).isSome := by
  induction l with
  | nil => rfl
  | cons b rest ih =>
      obtain ⟨xs, hxs⟩ := Option.isSome_iff_exists.mp ih
      rw [shares]
      split
      · exact ih
      · simp [divide_of_ne_zero hnum, hxs]

/-- The report of a histogram divides by no zero exactly when there are samples. -/
theorem isSome_toString_iff (hnonneg : 0 ≤ h.num) : (toString h).isSome ↔ 0 < h.num := by
  constructor
  · intro hsome
    refine hnonneg.lt_of_ne fun hzero => ?_
    simp [toString, divide, ← hzero] at hsome
  · intro hnum
    obtain ⟨mean, hmean⟩ := Option.isSome_iff_exists.mp (isSome_average (h := h))
    obtain ⟨var, hvar⟩ := Option.isSome_iff_exists.mp (isSome_variance (h := h))
    obtain ⟨m, hm⟩ := Option.isSome_iff_exists.mp (isSome_percentile (p := 50) hnum (by norm_num))
    obtain ⟨r, hr⟩ := Option.isSome_iff_exists.mp (isSome_percentile (p := 95) hnum (by norm_num))
    obtain ⟨r', hr'⟩ := Option.isSome_iff_exists.mp
      (isSome_percentile (p := 99) hnum (by norm_num))
    obtain ⟨r'', hr''⟩ := Option.isSome_iff_exists.mp
      (isSome_percentile (p := 999 / 10) hnum (by norm_num))
    obtain ⟨xs, hxs⟩ := Option.isSome_iff_exists.mp
      (isSome_shares hnum.ne' (List.finRange kNumBuckets))
    simp [toString, hmean, hvar, hm, hr, hr', hr'', divide_of_ne_zero hnum.ne', hxs]

end Checked

/-! ## The report of a phase -/

/-- The histograms of the threads of a phase, each of which executes its share of the
operations and records how long it took. -/
def phaseHistograms (totalOps numThreads : Int32) (duration : ℕ → ℕ → ℚ) : List Histogram :=
  (List.range numThreads.toInt.toNat).map fun thread =>
    recordThread ((List.range (totalOps / numThreads).toInt.toNat).map (duration thread))

/-- The report on the merged histogram divides by no zero. -/
def DividesByNoZero (totalOps numThreads : Int32) (duration : ℕ → ℕ → ℚ) : Prop :=
  ∃ h, mergeThreads (phaseHistograms totalOps numThreads duration) = some h ∧
    (Checked.toString h).isSome

/-- The merged histogram has counted every operation. -/
theorem exists_mergeThreads (totalOps : Int32) {numThreads : Int32}
    (hthreads : 1 ≤ numThreads.toInt) (duration : ℕ → ℕ → ℚ) :
    ∃ h, mergeThreads (phaseHistograms totalOps numThreads duration) = some h ∧
      h.num = (numThreads.toInt.toNat * (totalOps / numThreads).toInt.toNat : ℕ) := by
  obtain ⟨n, hn⟩ : ∃ n, numThreads.toInt.toNat = n + 1 :=
    Nat.exists_eq_succ_of_ne_zero (by omega)
  generalize hturns : (totalOps / numThreads).toInt.toNat = turns
  let part (thread : ℕ) : List ℚ := (List.range turns).map (duration thread)
  let rest : List (List ℚ) := (List.range n).map fun thread => part (thread + 1)
  have hmerged : mergeThreads (phaseHistograms totalOps numThreads duration) =
      some (ofSamples (part 0 + rest.flatten)) := by
    have hfirst : recordThread (part 0) = ofSamples (part 0) := summary.record_eq (part 0)
    have hrest := summary.foldl_merge rest (part 0)
    rw [List.map_map] at hrest
    rw [phaseHistograms, hn, hturns, List.range_succ_eq_map, List.map_cons, mergeThreads,
      List.map_map]
    change some (List.foldl merge (recordThread (part 0)) _) = _
    rw [hfirst]
    exact congrArg some hrest
  refine ⟨_, hmerged, ?_⟩
  rw [num_ofSamples, hn, Nat.cast_inj, Multiset.card_add, Multiset.coe_card, Multiset.coe_card,
    List.length_flatten]
  simp [rest, part, Function.comp_def]
  ring

/-- The report of a phase divides by no zero exactly when no thread is without operations. -/
theorem dividesByNoZero_iff {totalOps numThreads : Int32} (hops : 0 ≤ totalOps.toInt)
    (hthreads : 1 ≤ numThreads.toInt) (duration : ℕ → ℕ → ℚ) :
    DividesByNoZero totalOps numThreads duration ↔ numThreads.toInt ≤ totalOps.toInt := by
  obtain ⟨h, hmerge, hnum⟩ := exists_mergeThreads totalOps hthreads duration
  have hiff : 0 < h.num ↔ numThreads.toInt ≤ totalOps.toInt := by
    rw [hnum, Nat.cast_pos, toNat_div (by omega), Nat.mul_pos_iff_of_pos_left (by omega),
      Nat.div_pos_iff]
    omega
  rw [← hiff, ← Checked.isSome_toString_iff (hnum ▸ Nat.cast_nonneg _)]
  constructor
  · rintro ⟨h', hmerge', hsome⟩
    cases hmerge.symm.trans hmerge'
    exact hsome
  · exact fun hsome => ⟨h, hmerge, hsome⟩

/-- The theorem for one operation on two threads. -/
theorem dividesByNoZero_iff_oneOnTwo :
    DividesByNoZero 1 2 (fun _ _ => 5) ↔ (2 : Int32).toInt ≤ (1 : Int32).toInt :=
  dividesByNoZero_iff (by decide) (by decide) _

/-- One operation on two threads is left out, and the report of the empty histogram divides
by zero. -/
theorem not_dividesByNoZero_oneOnTwo : ¬ DividesByNoZero 1 2 fun _ _ => 5 := by
  rintro ⟨h, hmerge, hsome⟩
  cases hmerge
  simp [Checked.toString, divide, recordThread, merge, clear] at hsome

end YcsbC.Histogram
