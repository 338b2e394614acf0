import YcsbC.Utils.Histogram
import Mathlib.Data.List.Chain
import Mathlib.Tactic.Linarith
import Mathlib.Tactic.FieldSimp
import Mathlib.Tactic.IntervalCases

/-!
# The two bucket searches agree

`calPos` computes what the linear search finds.  From the value ten on, the table
repeats itself: the limits of one decade are the limits of the decade before
times ten (`limit_decade`).  The decade loop divides by ten as often as it adds
sixteen (`decadeLoop_spec`), and the formulas of `subDecade` locate the rest in
the first decade (`subDecade_spec`).  Together they place the value between two
neighbouring limits, which is all `TableSearch.IsBucket.of_adjacent` asks for.
-/

namespace YcsbC.Histogram

open TableSearch

/-! ## The table -/

/-- The table is strictly increasing. -/
theorem isChain_bucketLimits : bucketLimits.toList.IsChain (· < ·) := by
  decide +kernel

theorem bucketLimits_lt_succ (b : Fin 153) :
    bucketLimits.get b.castSucc < bucketLimits.get b.succ := by
  have hlength : bucketLimits.toList.length = 154 := Vector.length_toList
  have hlt := List.isChain_iff_getElem.mp isChain_bucketLimits b (by omega)
  simpa [Vector.get] using hlt

theorem kBucketLimit_strictMono : StrictMono kBucketLimit := by
  exact Fin.strictMono_iff_lt_succ.mpr fun b => Nat.cast_lt.mpr (bucketLimits_lt_succ b)

/-- The limits of the first decade of sixteen, from ten to a hundred. -/
def decadeLimit (j : Fin 17) : ℕ :=
  (#v[10, 12, 14, 16, 18, 20, 25, 30, 35, 40, 45, 50, 60, 70, 80, 90, 100] : Vector ℕ 17).get j

theorem bucketLimits_decade : ∀ (k : Fin 9) (j : Fin 17) (h : 9 + 16 * (k : ℕ) + j < 153),
    bucketLimits.get ⟨9 + 16 * k + j, Nat.lt_succ_of_lt h⟩ = 10 ^ (k : ℕ) * decadeLimit j := by
  decide +kernel

/-- Below the last entry, the limits of decade `k` are those of the first decade
times `10 ^ k`. -/
theorem limit_decade {k j : ℕ} (hj : j < 17) (h : 9 + 16 * k + j < 153) :
    kBucketLimit ⟨9 + 16 * k + j, Nat.lt_succ_of_lt h⟩ = 10 ^ k * decadeLimit ⟨j, hj⟩ := by
  have hk : k < 9 := by omega
  unfold kBucketLimit
  rw [bucketLimits_decade ⟨k, hk⟩ ⟨j, hj⟩ h]
  push_cast
  rfl

/-- The first ten limits are the numbers from one to ten. -/
theorem limit_unit : ∀ b : Fin 10, bucketLimits.get (b.castLE (by decide)) = b + 1 := by
  decide +kernel

/-- The last limit that the linear search compares with. -/
theorem limit_beforeLast : kBucketLimit ⟨152, by decide⟩ = 9 * 10 ^ 9 := by
  have h : bucketLimits.get ⟨152, by decide⟩ = 9 * 10 ^ 9 := by decide +kernel
  unfold kBucketLimit
  rw [h]
  norm_num

/-! ## The decade loop -/

theorem decadeLoop_of_lt {b : ℚ} (h : b < 100) (pos : ℤ) : decadeLoop b pos = (b, pos) := by
  rw [decadeLoop, if_neg (not_le.mpr h)]

/-- The loop takes `k` decades off a value from ten on, and counts them. -/
theorem decadeLoop_spec (b : ℚ) (pos : ℤ) (hb : 10 ≤ b) :
    ∃ k : ℕ, decadeLoop b pos = (b / 10 ^ k, pos + 16 * k) ∧
      10 ≤ b / 10 ^ k ∧ b / 10 ^ k < 100 := by
  induction b, pos using decadeLoop.induct with
  | case1 b pos h ih =>
      obtain ⟨k, hk, hlo, hhi⟩ := ih (by linarith)
      have hpow : b / 10 / 10 ^ k = b / 10 ^ (k + 1) := by rw [pow_succ, div_div, mul_comm]
      rw [hpow] at hk hlo hhi
      refine ⟨k + 1, ?_, hlo, hhi⟩
      rw [decadeLoop, if_pos h, hk]
      push_cast
      ring_nf
  | case2 b pos h =>
      have hlt : b < 100 := not_le.mp h
      exact ⟨0, by rw [decadeLoop_of_lt hlt]; simp, by simpa using hb, by simpa using hlt⟩

/-! ## The formulas below a hundred -/

theorem toInt_of_nonneg {x : ℚ} (h : 0 ≤ x) : toInt x = ⌊x⌋ := by
  rw [toInt, if_pos h]

/-- A stretch of `count` buckets of width `w` from `lo` on: the truncated quotient
is the number of the bucket within the stretch. -/
theorem stretch (w : ℚ) (count : ℕ) {b lo : ℚ} (hw : 0 < w) (hlo : lo ≤ b)
    (hhi : b < lo + w * count) (pos base : ℕ) :
    ∃ m < count, toInt ((pos : ℤ) + (base + (b - lo) / w)) = (pos + base + m : ℕ) ∧
      lo + w * m ≤ b ∧ b < lo + w * (m + 1) := by
  have hq : 0 ≤ (b - lo) / w := div_nonneg (by linarith) hw.le
  have hmul : (b - lo) / w * w = b - lo := div_mul_cancel₀ _ hw.ne'
  refine ⟨⌊(b - lo) / w⌋₊, ?_, ?_, ?_, ?_⟩
  · rw [Nat.floor_lt hq, div_lt_iff₀ hw]
    linarith
  · have hsum : ((pos : ℤ) : ℚ) + (base + (b - lo) / w) = (b - lo) / w + (pos + base : ℕ) := by
      push_cast
      ring
    rw [toInt_of_nonneg (by positivity), hsum, Int.floor_add_natCast,
      ← Int.natCast_floor_eq_floor hq]
    push_cast
    ring
  · have := mul_le_mul_of_nonneg_right (Nat.floor_le hq) hw.le
    linarith
  · have := mul_lt_mul_of_pos_right (Nat.lt_floor_add_one ((b - lo) / w)) hw
    linarith

/-- The formulas place a value between ten and a hundred among the limits of the
first decade. -/
theorem subDecade_spec {b : ℚ} (hlo : 10 ≤ b) (hhi : b < 100) (pos : ℕ) :
    ∃ (j : ℕ) (hj : j < 16), subDecade b pos = (pos + 10 + j : ℕ) ∧
      (decadeLimit ⟨j, by omega⟩ : ℚ) ≤ b ∧ b < decadeLimit ⟨j + 1, by omega⟩ := by
  by_cases h20 : b < 20
  · obtain ⟨m, hm, heq, hle, hlt⟩ := stretch 2 5 two_pos hlo (by norm_num; linarith) pos 10
    refine ⟨m, by omega, ?_, ?_, ?_⟩
    · rw [subDecade, if_pos ⟨hlo, h20⟩]
      exact_mod_cast heq
    all_goals
      interval_cases m <;> norm_num [decadeLimit, Vector.get] at hle hlt ⊢ <;> assumption
  · by_cases h50 : b < 50
    · obtain ⟨m, hm, heq, hle, hlt⟩ := stretch 5 6 (by norm_num) (not_lt.mp h20)
        (by norm_num; linarith) pos 15
      refine ⟨5 + m, by omega, ?_, ?_, ?_⟩
      · rw [subDecade, if_neg (fun h => h20 h.2), if_pos ⟨not_lt.mp h20, h50⟩,
          show pos + 10 + (5 + m) = pos + 15 + m by omega]
        exact_mod_cast heq
      all_goals
        interval_cases m <;> norm_num [decadeLimit, Vector.get] at hle hlt ⊢ <;> assumption
    · obtain ⟨m, hm, heq, hle, hlt⟩ := stretch 10 5 (by norm_num) (not_lt.mp h50)
        (by norm_num; linarith) pos 21
      refine ⟨11 + m, by omega, ?_, ?_, ?_⟩
      · rw [subDecade, if_neg (fun h => h20 h.2), if_neg (fun h => h50 h.2),
          if_pos ⟨not_lt.mp h50, hhi⟩, show pos + 10 + (11 + m) = pos + 21 + m by omega]
        exact_mod_cast heq
      all_goals
        interval_cases m <;> norm_num [decadeLimit, Vector.get] at hle hlt ⊢ <;> assumption

/-! ## The computed index -/

/-- A value below ten: the index is the whole part, and the limits there are one
apart. -/
theorem calPos_unit {v : ℚ} (h0 : 0 ≤ v) (h10 : v < 10) :
    IsBucket kBucketLimit v (clampPos (calPos v)) := by
  have hfloor : ⌊v⌋₊ < 10 := (Nat.floor_lt h0).mpr (by exact_mod_cast h10)
  have hpos : calPos v = (⌊v⌋₊ : ℕ) := by
    rw [calPos, if_pos ⟨h0, h10⟩, toInt_of_nonneg h0, Int.natCast_floor_eq_floor h0]
  have hclamp : clampPos (calPos v) = (⟨⌊v⌋₊, hfloor⟩ : Fin 10).castLE (by decide) := by
    rw [hpos, clampPos, dif_neg (by simp only [kNumBuckets]; omega)]
    rfl
  rw [hclamp]
  refine IsBucket.of_adjacent kBucketLimit_strictMono.monotone (fun i hi => ?_) (.inl ?_)
  · have hi' : (i : ℕ) + 1 = ⌊v⌋₊ := hi
    have hlim := limit_unit ⟨i, by omega⟩
    have hle : ((i : ℕ) + 1 : ℚ) ≤ v := by
      have := Nat.floor_le h0
      rw [← hi'] at this
      exact_mod_cast this
    calc kBucketLimit i = ((i + 1 : ℕ) : ℚ) := congrArg Nat.cast hlim
      _ ≤ v := by exact_mod_cast hle
  · have hlim := limit_unit ⟨⌊v⌋₊, hfloor⟩
    calc v < ⌊v⌋₊ + 1 := Nat.lt_floor_add_one v
      _ = ((⌊v⌋₊ + 1 : ℕ) : ℚ) := by push_cast; rfl
      _ = kBucketLimit _ := (congrArg Nat.cast hlim).symm

/-- A value from ten on: `k` decades and `j` buckets into the next one. -/
theorem calPos_decade {v : ℚ} (hv : 10 ≤ v) :
    ∃ (k j : ℕ) (hj : j < 16), calPos v = (10 + 16 * k + j : ℕ) ∧
      10 ^ k * (decadeLimit ⟨j, by omega⟩ : ℚ) ≤ v ∧
      v < 10 ^ k * decadeLimit ⟨j + 1, by omega⟩ := by
  obtain ⟨k, hloop, hlo, hhi⟩ := decadeLoop_spec v 0 hv
  obtain ⟨j, hj, hpos, hle, hlt⟩ := subDecade_spec hlo hhi (16 * k)
  have hpow : (0 : ℚ) < 10 ^ k := by positivity
  refine ⟨k, j, hj, ?_, ?_, ?_⟩
  · rw [calPos, if_neg (fun h => absurd hv (not_le.mpr h.2)), hloop]
    simp only [zero_add]
    rw [show (16 * (k : ℤ)) = ((16 * k : ℕ) : ℤ) by push_cast; rfl, hpos]
    congr 1
    omega
  · rwa [le_div_iff₀ hpow, mul_comm] at hle
  · rwa [div_lt_iff₀ hpow, mul_comm] at hlt

/-- Past the end of the table the value is at least the limit before the last. -/
theorem beforeLast_le {v : ℚ} {k j : ℕ} (hj : j < 16) (hpast : 153 ≤ 10 + 16 * k + j)
    (hle : 10 ^ k * (decadeLimit ⟨j, by omega⟩ : ℚ) ≤ v) :
    kBucketLimit ⟨152, by decide⟩ ≤ v := by
  rw [limit_beforeLast]
  refine le_trans ?_ hle
  by_cases hk : k ≤ 8
  · obtain rfl : k = 8 := by omega
    obtain rfl : j = 15 := by omega
    norm_num [decadeLimit, Vector.get]
  · have hten : (10 : ℚ) ≤ decadeLimit ⟨j, by omega⟩ := by
      have : ∀ j : Fin 17, 10 ≤ decadeLimit j := by decide
      exact_mod_cast this ⟨j, by omega⟩
    have hpow : (10 : ℚ) ^ 9 ≤ 10 ^ k := pow_le_pow_right₀ (by norm_num) (by omega)
    calc (9 * 10 ^ 9 : ℚ) ≤ 10 ^ 9 * 10 := by norm_num
      _ ≤ 10 ^ k * (decadeLimit ⟨j, by omega⟩ : ℚ) := by gcongr

theorem calPos_tens {v : ℚ} (hv : 10 ≤ v) :
    IsBucket kBucketLimit v (clampPos (calPos v)) := by
  obtain ⟨k, j, hj, hpos, hle, hlt⟩ := calPos_decade hv
  rw [hpos]
  by_cases hpast : 153 ≤ 10 + 16 * k + j
  · have hclamp : clampPos (10 + 16 * k + j : ℕ) = lastBucket := by
      unfold clampPos
      split_ifs with h
      · rfl
      · refine Fin.ext ?_
        simp only [kNumBuckets, Fin.val_last] at h ⊢
        omega
    rw [hclamp]
    refine IsBucket.of_adjacent kBucketLimit_strictMono.monotone (fun i hi => ?_) (.inr rfl)
    have hi' : i = ⟨152, by decide⟩ := Fin.ext (Nat.succ.inj hi)
    rw [hi']
    exact beforeLast_le hj hpast hle
  · have hbound : 10 + 16 * k + j < 154 := by omega
    have hclamp : clampPos (10 + 16 * k + j : ℕ) = ⟨10 + 16 * k + j, hbound⟩ := by
      rw [clampPos, dif_neg (by simp only [kNumBuckets]; omega)]
      rfl
    rw [hclamp]
    refine IsBucket.of_adjacent kBucketLimit_strictMono.monotone (fun i hi => ?_) (.inl ?_)
    · have hprev : 9 + 16 * k + j < 153 := by omega
      have hi' : (i : ℕ) + 1 = 10 + 16 * k + j := hi
      have hi'' : i = ⟨9 + 16 * k + j, Nat.lt_succ_of_lt hprev⟩ :=
        Fin.ext (by show (i : ℕ) = 9 + 16 * k + j; omega)
      rw [hi'']
      exact le_of_eq_of_le (limit_decade (by omega) hprev) hle
    · have hlim := limit_decade (k := k) (j := j + 1) (by omega) (by omega)
      rw [← hlim] at hlt
      have hnext : (⟨9 + 16 * k + (j + 1), by omega⟩ : Fin 154) = ⟨10 + 16 * k + j, hbound⟩ :=
        Fin.ext (by show 9 + 16 * k + (j + 1) = 10 + 16 * k + j; omega)
      exact hnext ▸ hlt

/-- A negative value is counted with those below 1. -/
theorem calPos_negative {v : ℚ} (hneg : v < 0) : calPos v = 0 := by
  rw [calPos, if_neg (fun h => absurd h.1 (not_le.mpr hneg)), decadeLoop_of_lt (by linarith)]
  simp only [subDecade]
  rw [if_neg (by intro h; linarith), if_neg (by intro h; linarith),
    if_neg (by intro h; linarith)]

/-- The index `AddFast` computes is the bucket of the value. -/
theorem clampPos_calPos_isBucket (v : ℚ) : IsBucket kBucketLimit v (clampPos (calPos v)) := by
  by_cases h10 : v < 10
  · by_cases h0 : 0 ≤ v
    · exact calPos_unit h0 h10
    · rw [calPos_negative (not_le.mp h0)]
      refine ⟨fun i hi => absurd hi (Fin.not_lt_zero i), .inl ?_⟩
      have hlim := limit_unit 0
      calc v < 1 := by linarith
        _ = kBucketLimit (clampPos 0) := by rw [kBucketLimit]; exact_mod_cast hlim.symm
  · exact calPos_tens (not_lt.mp h10)

theorem calPos_nonneg (v : ℚ) : 0 ≤ calPos v := by
  by_cases h10 : v < 10
  · by_cases h0 : 0 ≤ v
    · rw [calPos, if_pos ⟨h0, h10⟩, toInt_of_nonneg h0]
      exact Int.floor_nonneg.mpr h0
    · exact (calPos_negative (not_le.mp h0)).ge
  · obtain ⟨k, j, -, hpos, -, -⟩ := calPos_decade (not_lt.mp h10)
    rw [hpos]
    exact Int.natCast_nonneg _

/-- No finite `double` reaches `2 ^ 1024`, so the `int` position does not
overflow. -/
theorem calPos_lt_intMax {v : ℚ} (hv : v < 2 ^ 1024) : calPos v < 2 ^ 31 := by
  by_cases h10 : 10 ≤ v
  · obtain ⟨k, j, hj, hpos, hle, -⟩ := calPos_decade h10
    have hten : (1 : ℚ) ≤ decadeLimit ⟨j, by omega⟩ := by
      have : ∀ j : Fin 17, 1 ≤ decadeLimit j := by decide
      exact_mod_cast this ⟨j, by omega⟩
    have hpow : (10 : ℚ) ^ k < 10 ^ 1024 := by
      calc (10 : ℚ) ^ k ≤ 10 ^ k * decadeLimit ⟨j, by omega⟩ :=
            le_mul_of_one_le_right (by positivity) hten
        _ ≤ v := hle
        _ < 2 ^ 1024 := hv
        _ ≤ 10 ^ 1024 := pow_le_pow_left₀ (by norm_num) (by norm_num) _
    have hk : k < 1024 := (pow_lt_pow_iff_right₀ (by norm_num)).mp hpow
    rw [hpos]
    push_cast
    omega
  · by_cases h0 : 0 ≤ v
    · rw [calPos, if_pos ⟨h0, not_le.mp h10⟩, toInt_of_nonneg h0]
      exact lt_trans (Int.floor_lt.mpr (by exact_mod_cast not_le.mp h10)) (by norm_num)
    · rw [calPos_negative (not_le.mp h0)]
      norm_num

/-- The linear search and the computed index give the same bucket. -/
theorem addLoop_eq_clampPos (v : ℚ) : addLoop v = clampPos (calPos v) :=
  (scan_isBucket kBucketLimit v 0 fun i hi => absurd hi (Fin.not_lt_zero i)).unique
    (clampPos_calPos_isBucket v)

/-- `AddFast` and `Add` lead to the same state, and the index that `AddFast`
computes is the least one whose limit is above the value, or the last index when
there is none. -/
theorem addFast_eq_add (h : Histogram) (v : ℚ) :
    h.addFast v = h.add v ∧
      (IsLeast {b | v < kBucketLimit b} (clampPos (calPos v)) ∨
        (∀ b, ¬ v < kBucketLimit b) ∧ clampPos (calPos v) = lastBucket) := by
  refine ⟨?_, (clampPos_calPos_isBucket v).isLeast_or⟩
  rw [addFast, add, addLoop_eq_clampPos]

end YcsbC.Histogram
