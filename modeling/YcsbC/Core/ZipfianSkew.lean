import YcsbC.Core.ZipfianCover

/-!
# How often a zipfian generator draws an item

The draws of one item are an interval, so its length is how often the item is drawn.  The
shortcuts give items 0 and 1 as often as the zipfian distribution does, and the intervals
of the power law grow shorter from item 2 on, which is drawn no more often than item 1
(`next_skewed`).  In the latest distribution the newest key has the longest interval, and
key 0 has none (`latest_skewed`).
-/

namespace YcsbC

namespace ZipfianGenerator

/-- Where the draws of a rank begin. -/
noncomputable def edge (n : ℕ) : ℕ → ℝ
  | 0 => 0
  | 1 => 1 / zetaOf n
  | r + 2 => PowerLaw.draw n (1 - kZipfianConst)
      (PowerLaw.slope (2 : ℕ) n (1 - kZipfianConst) (zetaOf 2 / zetaOf n)) ((r + 2 : ℕ) : ℝ)

theorem edge_add_two (n r : ℕ) : edge n (r + 2) = PowerLaw.draw n (1 - kZipfianConst)
    (PowerLaw.slope 2 n (1 - kZipfianConst) (zetaOf 2 / zetaOf n)) ((r + 2 : ℕ) : ℝ) := by
  rw [edge, Nat.cast_ofNat]

theorem exponent_lt_one : 1 - kZipfianConst < 1 := by
  rw [kZipfianConst]
  norm_num

section Edges

variable {n : ℕ} (hn : 2 ≤ n)

include hn

theorem ratio_le_one : zetaOf 2 / zetaOf n ≤ 1 :=
  (div_le_one (zetaOf_pos hn le_rfl)).mpr (zetaOf_strictMono.monotone hn)

theorem slope_nonneg : 0 ≤ PowerLaw.slope 2 n (1 - kZipfianConst) (zetaOf 2 / zetaOf n) := by
  have hbase : (2 / n : ℝ) ≤ 1 := (div_le_one (by positivity)).mpr (Nat.ofNat_le_cast.mpr hn)
  have hpower : (2 / n : ℝ) ^ (1 - kZipfianConst) ≤ 1 :=
    Real.rpow_le_one (by positivity) hbase exponent_pos.le
  exact div_nonneg (by linarith) (by linarith [ratio_le_one hn])

/-- The power law begins where the second shortcut ends. -/
theorem edge_two : edge n 2 = zetaOf 2 / zetaOf n := by
  rcases hn.eq_or_lt with rfl | hlt
  · rw [div_self (zetaOf_pos le_rfl le_rfl).ne']
    exact PowerLaw.draw_end (by norm_num)
  · rw [edge]
    exact_mod_cast PowerLaw.draw_start two_pos (Nat.ofNat_lt_cast.mpr hlt) exponent_pos

theorem edge_last : edge n n = 1 := by
  obtain ⟨r, rfl⟩ := Nat.exists_eq_add_of_le' hn
  exact PowerLaw.draw_end (by positivity)

theorem edge_two_le (r : ℕ) : edge n 2 ≤ edge n (r + 2) := by
  have hpower : ((0 + 2 : ℕ) : ℝ) ^ (1 - kZipfianConst) ≤
      ((r + 2 : ℕ) : ℝ) ^ (1 - kZipfianConst) :=
    Real.rpow_le_rpow (by positivity) (by exact_mod_cast Nat.add_le_add_right r.zero_le 2)
      exponent_pos.le
  rw [edge_add_two n 0, edge_add_two, ← sub_nonneg,
    PowerLaw.draw_sub_draw (by positivity) (by positivity) (by positivity)]
  exact div_nonneg (sub_nonneg.mpr hpower)
    (mul_nonneg (Real.rpow_nonneg n.cast_nonneg _) (slope_nonneg hn))

/-- The draws of the power law are those from its first edge on. -/
theorem zetaOf_two_le {r : ℕ} {u : ℝ} (hu : edge n (r + 2) ≤ u) : zetaOf 2 ≤ u * zetaOf n := by
  have htwo := (edge_two_le hn r).trans hu
  rw [edge_two hn] at htwo
  exact (div_le_iff₀ (zetaOf_pos hn le_rfl)).mp htwo

/-- The draws with ranks from `r` on. -/
theorem le_rank_iff {r : ℕ} (u : RandomDouble) : r ≤ rank n u ↔ edge n r ≤ u := by
  have honeTwo := (one_lt_zetaOf le_rfl).le
  match r with
  | 0 => exact iff_of_true (Nat.zero_le _) u.2.1
  | 1 =>
      rw [edge, div_le_iff₀ (zetaOf_pos hn le_rfl), rank_eq_item]
      rcases item_cases hn le_rfl u 0 n with ⟨hone, hitem⟩ | ⟨hone, -, hitem⟩ | ⟨htwo, hitem⟩
      · exact iff_of_false (by omega) hone.not_ge
      · exact iff_of_true (by omega) hone
      · have hmem := floor_powerLaw_mem hn htwo u.2.2
        exact iff_of_true (by omega) (honeTwo.trans htwo)
  | r + 2 =>
      rw [rank_eq_item]
      rcases item_cases hn le_rfl u 0 n with ⟨hone, hitem⟩ | ⟨-, htwo, hitem⟩ | ⟨htwo, hitem⟩
      · exact iff_of_false (by omega)
          fun hu => (honeTwo.trans (zetaOf_two_le hn hu)).not_gt hone
      · exact iff_of_false (by omega) fun hu => (zetaOf_two_le hn hu).not_gt htwo
      · have hlt := two_lt hn htwo u.2.2
        rw [hitem, Nat.zero_add, Nat.le_floor_iff (powerLaw_nonneg hn le_rfl htwo u.2.2 n),
          edge_add_two, powerLaw, Nat.cast_ofNat]
        exact PowerLaw.le_value_iff two_pos (Nat.ofNat_lt_cast.mpr hlt) exponent_pos
          (ratio_lt_one hn le_rfl htwo u.2.2) (Nat.cast_nonneg _)
          (ratio_le_draw hn le_rfl htwo) u.2.2.le

theorem rank_eq_iff {r : ℕ} (u : RandomDouble) :
    rank n u = r ↔ edge n r ≤ u ∧ u < edge n (r + 1) := by
  rw [← le_rank_iff hn, ← not_le, ← le_rank_iff hn]
  omega

end Edges

/-! ## How long the intervals are -/

/-- The zipfian weight of an item as a power with the exponent of the power law. -/
theorem weight_eq (i : ℕ) : 1 / (i : ℝ) ^ kZipfianConst = (i : ℝ) ^ (1 - kZipfianConst - 1) := by
  rw [show 1 - kZipfianConst - 1 = -kZipfianConst by ring, Real.rpow_neg i.cast_nonneg, one_div]

/-- The zeta sum from 2 on grows no faster than the power that inverts it. -/
theorem zetaOf_sub_le {n : ℕ} (hn : 2 ≤ n) :
    ((3 : ℝ) ^ (1 - kZipfianConst) - 2 ^ (1 - kZipfianConst)) * (zetaOf n - zetaOf 2) ≤
      (1 / 2) ^ kZipfianConst * ((n : ℝ) ^ (1 - kZipfianConst) - 2 ^ (1 - kZipfianConst)) := by
  induction n, hn using Nat.le_induction with
  | base => simp
  | succ n hn ih =>
      have hpos : (0 : ℝ) < n + 1 := by positivity
      have hweight : 0 ≤ ((n + 1 : ℕ) : ℝ) ^ (1 - kZipfianConst - 1) :=
        Real.rpow_nonneg (Nat.cast_nonneg _) _
      have htwo : (0 : ℝ) ≤ (1 / 2) ^ kZipfianConst := Real.rpow_nonneg (by norm_num) _
      -- the tangents at 2 and at `n + 1`
      have hthree : (3 : ℝ) ^ (1 - kZipfianConst) - 2 ^ (1 - kZipfianConst) ≤
          (1 - kZipfianConst) * (1 / 2) ^ kZipfianConst := by
        have htangent := PowerLaw.rpow_le_tangent two_pos (by norm_num : (0 : ℝ) ≤ 3)
          exponent_pos.le exponent_lt_one.le
        rw [Real.div_rpow zero_le_one zero_le_two, Real.one_rpow,
          show (1 : ℝ) / 2 ^ kZipfianConst = 2 ^ (1 - kZipfianConst - 1) by exact_mod_cast weight_eq 2]
        linarith
      have hnext : (1 - kZipfianConst) * ((n + 1 : ℕ) : ℝ) ^ (1 - kZipfianConst - 1) ≤
          ((n + 1 : ℕ) : ℝ) ^ (1 - kZipfianConst) - (n : ℝ) ^ (1 - kZipfianConst) := by
        have htangent := PowerLaw.rpow_le_tangent hpos n.cast_nonneg exponent_pos.le
          exponent_lt_one.le
        push_cast
        linarith
      rw [zetaOf_succ, weight_eq]
      nlinarith [mul_le_mul_of_nonneg_right hthree hweight, mul_le_mul_of_nonneg_left hnext htwo]

/-- Item 1 is drawn as often as its weight says. -/
theorem edge_two_sub {n : ℕ} (hn : 2 ≤ n) :
    edge n 2 - edge n 1 = (1 / 2 : ℝ) ^ kZipfianConst / zetaOf n := by
  rw [edge_two hn, edge, ← sub_div, zetaOf_two, add_sub_cancel_left]

/-- Item 2 is drawn no more often than item 1. -/
theorem edge_three_le {n : ℕ} (hn : 3 ≤ n) :
    edge n 3 - edge n 2 ≤ edge n 2 - edge n 1 := by
  have hzeta := zetaOf_pos (by omega : 2 ≤ n) le_rfl
  have hzetaTwo : zetaOf 2 < zetaOf n := zetaOf_strictMono (by omega)
  have hpower : (2 : ℝ) ^ (1 - kZipfianConst) < n ^ (1 - kZipfianConst) :=
    Real.rpow_lt_rpow zero_le_two (Nat.ofNat_lt_cast.mpr hn) exponent_pos
  have hslope : (n : ℝ) ^ (1 - kZipfianConst) *
      PowerLaw.slope 2 n (1 - kZipfianConst) (zetaOf 2 / zetaOf n) =
      (n ^ (1 - kZipfianConst) - 2 ^ (1 - kZipfianConst)) * zetaOf n / (zetaOf n - zetaOf 2) := by
    have hn0 : (n : ℝ) ^ (1 - kZipfianConst) ≠ 0 := (Real.rpow_pos_of_pos (by positivity) _).ne'
    rw [PowerLaw.slope, Real.div_rpow zero_le_two n.cast_nonneg, one_sub_div hn0,
      one_sub_div hzeta.ne']
    field_simp
  have hwidth : edge n 3 - edge n 2 =
      ((3 : ℝ) ^ (1 - kZipfianConst) - 2 ^ (1 - kZipfianConst)) * (zetaOf n - zetaOf 2) /
        ((n ^ (1 - kZipfianConst) - 2 ^ (1 - kZipfianConst)) * zetaOf n) := by
    rw [edge_add_two n 1, edge_add_two n 0,
      PowerLaw.draw_sub_draw n.cast_nonneg (Nat.cast_nonneg _) (Nat.cast_nonneg _), hslope, div_div_eq_mul_div]
    norm_num
  rw [edge_two_sub (by omega), hwidth,
    div_le_div_iff₀ (mul_pos (sub_pos.mpr hpower) hzeta) hzeta]
  have hsum := zetaOf_sub_le (by omega : 2 ≤ n)
  nlinarith [mul_le_mul_of_nonneg_right hsum hzeta.le]

/-- The interval of an item is no longer than that of the item before it. -/
theorem edge_shrinks {n : ℕ} (hn : 2 ≤ n) {r : ℕ} (hr : r + 2 ≤ n) :
    edge n (r + 2) - edge n (r + 1) ≤ edge n (r + 1) - edge n r := by
  match r with
  | 0 =>
      rw [edge_two_sub hn, edge, edge, sub_zero]
      exact div_le_div_of_nonneg_right (Real.rpow_le_one (by norm_num) (by norm_num)
        (by rw [kZipfianConst]; norm_num)) (zetaOf_pos hn le_rfl).le
  | 1 => exact edge_three_le hr
  | r + 2 =>
      have hspacing := PowerLaw.draw_spacing n.cast_nonneg (slope_nonneg hn)
        (Nat.cast_nonneg (r + 2)) exponent_pos.le exponent_lt_one.le
      rw [edge_add_two n (r + 2), edge_add_two n (r + 1), edge_add_two]
      push_cast at hspacing ⊢
      ring_nf at hspacing ⊢
      exact hspacing

/-! ## The generators -/

/-- Intervals that fill the draws, one for each of `n` items, the first two as long as the
weights of their items say, and none longer than the one before it. -/
structure Shrinking (n : ℕ) (edge : ℕ → ℝ) : Prop where
  zero : edge 0 = 0
  last : edge n = 1
  first : edge 1 - edge 0 = 1 / zetaOf n
  second : edge 2 - edge 1 = (1 / 2 : ℝ) ^ kZipfianConst / zetaOf n
  shrinks : ∀ r, r + 2 ≤ n → edge (r + 2) - edge (r + 1) ≤ edge (r + 1) - edge r

theorem shrinking_edge {n : ℕ} (hn : 2 ≤ n) : Shrinking n (edge n) where
  zero := rfl
  last := edge_last hn
  first := by rw [edge, edge, sub_zero]
  second := edge_two_sub hn
  shrinks _ hr := edge_shrinks hn hr

section OnItems

variable {n : UInt64} {g : ZipfianGenerator} (hg : OnItems n g)

include hg

/-- The draws of an item. -/
theorem OnItems.nextOf_iff (u : RandomDouble) (value : UInt64) :
    (∃ g', g.nextOf n (.double u) = some (value, g')) ↔
      value < n ∧ edge n.toNat value.toNat ≤ u ∧ u < edge n.toNat (value.toNat + 1) := by
  have hlt := rank_lt hg.two_le_toNat u.2.2
  have hrank : UInt64.ofNat (rank n.toNat u) = value ↔ rank n.toNat u = value.toNat := by
    rw [← UInt64.toNat_inj, UInt64.toNat_ofNat_of_lt' (hlt.trans n.toNat_lt)]
  rw [← rank_eq_iff hg.two_le_toNat, hg.nextOf, ← hrank, UInt64.lt_iff_toNat_lt]
  constructor
  · rintro ⟨g', heq⟩
    cases heq
    refine ⟨?_, rfl⟩
    rwa [UInt64.toNat_ofNat_of_lt' (hlt.trans n.toNat_lt)]
  · rintro ⟨-, rfl⟩
    exact ⟨_, rfl⟩

end OnItems

/-- After any draws of a generator that the constructor makes on `n` items, the draws of the
items are intervals that shrink. -/
theorem next_skewed {n : UInt64} (htwo : 2 ≤ n) (hmax : n < kMaxNumItems) (u₀ : RandomDouble) :
    ∃ g₀, ofNumItems n (.double u₀) = some g₀ ∧
      ∀ draws g, drawing.run g₀ draws = some g → ∃ edge, Shrinking n.toNat edge ∧
        ∀ (u : RandomDouble) (value : UInt64),
          (∃ g', g.next (.double u) = some (value, g')) ↔
            value < n ∧ edge value.toNat ≤ u ∧ u < edge (value.toNat + 1) := by
  obtain ⟨g₀, hmake, hg₀⟩ := exists_grown htwo hmax u₀
  refine ⟨g₀, hmake, fun draws g hrun => ?_⟩
  have hg := (hg₀.drawing_run hrun).onItems
  refine ⟨_, shrinking_edge hg.two_le_toNat, fun u value => ?_⟩
  rw [ZipfianGenerator.next, hg.numItems]
  exact hg.nextOf_iff u value

/-- The theorem for ten items. -/
theorem next_skewed_ten :
    ∃ g₀, ofNumItems 10 (.double 0) = some g₀ ∧
      ∀ draws g, drawing.run g₀ draws = some g → ∃ edge, Shrinking (10 : UInt64).toNat edge ∧
        ∀ (u : RandomDouble) (value : UInt64),
          (∃ g', g.next (.double u) = some (value, g')) ↔
            value < 10 ∧ edge value.toNat ≤ u ∧ u < edge (value.toNat + 1) :=
  next_skewed (by decide) (by decide) _

end ZipfianGenerator

namespace SkewedLatestGenerator

open ZipfianGenerator (OnItems Shrinking kMaxNumItems)

/-- The machine of the calls `Next()` while the counter stands. -/
noncomputable def drawing (basis : CounterGenerator) :
    Machine SkewedLatestGenerator RandomDouble :=
  ⟨fun g u => (next basis g (.double u)).map (·.2)⟩

/-- A draw leaves the zipfian generator on its items. -/
theorem onItems_of_next {basis : CounterGenerator} {g g' : SkewedLatestGenerator} {key : UInt64}
    {draw : RandomDraw} (hg : OnItems basis.last g.zipfian)
    (hnext : next basis g draw = some (key, g')) : OnItems basis.last g'.zipfian := by
  obtain ⟨⟨rank, zipfian⟩, hdraw, heq⟩ := Option.map_eq_some_iff.mp hnext
  cases heq
  exact (hg.nextOf_eq_some hdraw).2

/-- A key and its rank. -/
theorem keyOfRank_eq_iff {basis : CounterGenerator} {rank key : UInt64} (hrank : rank < basis.last) :
    keyOfRank basis rank = key ↔
      (1 ≤ key ∧ key ≤ basis.last) ∧ rank = basis.last - key := by
  rw [UInt64.lt_iff_toNat_lt] at hrank
  rw [keyOfRank, UInt64.le_iff_toNat_le, UInt64.le_iff_toNat_le, UInt64.toNat_one]
  have hsub : (basis.last - rank).toNat = basis.last.toNat - rank.toNat :=
    UInt64.toNat_sub_of_le _ _ (UInt64.le_iff_toNat_le.mpr hrank.le)
  constructor
  · rintro rfl
    rw [hsub]
    exact ⟨by omega, by grind⟩
  · rintro ⟨-, rfl⟩
    grind

/-- The draws of a key. -/
theorem next_iff {basis : CounterGenerator} {g : SkewedLatestGenerator}
    (hg : OnItems basis.last g.zipfian) (v : RandomDouble) (key : UInt64) :
    (∃ g', next basis g (.double v) = some (key, g')) ↔ (1 ≤ key ∧ key ≤ basis.last) ∧
      ZipfianGenerator.edge basis.last.toNat (basis.last - key).toNat ≤ v ∧
      v < ZipfianGenerator.edge basis.last.toNat ((basis.last - key).toNat + 1) := by
  constructor
  · rintro ⟨g', hnext⟩
    obtain ⟨⟨rank, zipfian⟩, hdraw, heq⟩ := Option.map_eq_some_iff.mp hnext
    obtain ⟨hrank, hinterval⟩ := (hg.nextOf_iff v rank).mp ⟨zipfian, hdraw⟩
    obtain ⟨hkey, rfl⟩ := (keyOfRank_eq_iff hrank).mp (Prod.mk.inj heq).1
    exact ⟨hkey, hinterval⟩
  · rintro ⟨hkey, hinterval⟩
    have hrank : basis.last - key < basis.last := by
      rw [UInt64.lt_iff_toNat_lt, UInt64.toNat_sub_of_le _ _ hkey.2]
      have hpos := UInt64.le_iff_toNat_le.mp hkey.1
      have hle := UInt64.le_iff_toNat_le.mp hkey.2
      rw [UInt64.toNat_one] at hpos
      omega
    obtain ⟨zipfian, hdraw⟩ := (hg.nextOf_iff v (basis.last - key)).mpr ⟨hrank, hinterval⟩
    refine ⟨⟨zipfian, key⟩, ?_⟩
    have hkeyOf := (keyOfRank_eq_iff hrank).mpr ⟨hkey, rfl⟩
    rw [next, hdraw, Option.map_some]
    dsimp only
    rw [hkeyOf]

/-- While the counter stands, the newest key is drawn most often, each key at least as often as
the one before it, and key 0 never. -/
theorem latest_skewed {basis : CounterGenerator} (htwo : 2 ≤ basis.last)
    (hmax : basis.last < kMaxNumItems) (u u' : RandomDouble) :
    ∃ g₀, make basis (.double u) (.double u') = some g₀ ∧
      ∀ draws g, (drawing basis).run g₀ draws = some g →
        ∃ edge, Shrinking basis.last.toNat edge ∧ ∀ (v : RandomDouble) (key : UInt64),
          (∃ g', next basis g (.double v) = some (key, g')) ↔ (1 ≤ key ∧ key ≤ basis.last) ∧
            edge (basis.last - key).toNat ≤ v ∧ v < edge ((basis.last - key).toNat + 1) := by
  obtain ⟨zipfian, hmake, hgrown⟩ := ZipfianGenerator.exists_grown htwo hmax u
  obtain ⟨g₀, hnext⟩ : ∃ g₀, (next basis ⟨zipfian, 0⟩ (.double u')).map (·.2) = some g₀ := by
    rw [next, hgrown.onItems.nextOf]
    exact ⟨_, rfl⟩
  obtain ⟨⟨key, g₁⟩, hfirst, rfl⟩ := Option.map_eq_some_iff.mp hnext
  refine ⟨g₁, ?_, fun draws g hrun => ?_⟩
  · rw [make, hmake, Option.bind_some, hnext]
  · have hg : OnItems basis.last g.zipfian := by
      refine (drawing basis).run_invariant (I := fun g => OnItems basis.last g.zipfian)
        (fun g v g' hg hstep => ?_) (onItems_of_next hgrown.onItems hfirst) hrun
      obtain ⟨⟨key', g''⟩, hdraw, rfl⟩ := Option.map_eq_some_iff.mp hstep
      exact onItems_of_next hg hdraw
    exact ⟨_, ZipfianGenerator.shrinking_edge hg.two_le_toNat, next_iff hg⟩

/-- The theorem for a counter of four records. -/
theorem latest_skewed_four :
    ∃ g₀, make ⟨4⟩ (.double 0) (.double 0) = some g₀ ∧
      ∀ draws g, (drawing ⟨4⟩).run g₀ draws = some g →
        ∃ edge, Shrinking (CounterGenerator.last ⟨4⟩).toNat edge ∧
          ∀ (v : RandomDouble) (key : UInt64),
          (∃ g', next ⟨4⟩ g (.double v) = some (key, g')) ↔
            (1 ≤ key ∧ key ≤ CounterGenerator.last ⟨4⟩) ∧
            edge (CounterGenerator.last ⟨4⟩ - key).toNat ≤ v ∧
            v < edge ((CounterGenerator.last ⟨4⟩ - key).toNat + 1) :=
  latest_skewed (by decide) (by decide) _ _

end SkewedLatestGenerator

end YcsbC
