import YcsbC.Core.ZipfianState

/-!
# The draws of a zipfian generator

As a function of the draw, `Next()` of a generator on `n` items is nondecreasing, and its
values are the numbers below `n`: the shortcuts give 0 and 1, and the power law starts with
2 where they end (`next_covers`).
-/

namespace YcsbC

namespace ZipfianGenerator

/-- `Next()` gives `f` of its draw: a nondecreasing function onto the `n` items, of which
the power law gives those from 2 on. -/
structure Covers (n : UInt64) (g : ZipfianGenerator) (f : RandomDouble → UInt64) : Prop where
  next : ∀ u, g.next (.double u) = some (f u, { g with lastValue := f u })
  mono : ∀ u v, u ≤ v → f u ≤ f v
  range : Set.range f = {value | value < n}
  powerLaw : ∀ u : RandomDouble, 1 + (1 / 2 : ℝ) ^ kZipfianConst ≤ u * zetaOf n.toNat →
    2 ≤ f u ∧ f u < n
  onTwo : n = 2 → ∀ u : RandomDouble, u * zetaOf n.toNat < 1 + (1 / 2 : ℝ) ^ kZipfianConst

/-! ## Ranks -/

section Rank

variable {n : ℕ} (hn : 2 ≤ n)

include hn

theorem rank_of_le {u : ℝ} (hu : zetaOf 2 ≤ u * zetaOf n) (hu1 : u < 1) :
    rank n u = ⌊ZipfianGenerator.powerLaw n n n u⌋₊ := by
  rw [rank_eq_item, item_of_le hn le_rfl hu hu1, Nat.zero_add]

/-- A greater draw has no smaller rank. -/
theorem rank_mono {u v : ℝ} (huv : u ≤ v) (hv1 : v < 1) : rank n u ≤ rank n v := by
  have hmul : u * zetaOf n ≤ v * zetaOf n :=
    mul_le_mul_of_nonneg_right huv (zetaOf_pos hn le_rfl).le
  rcases lt_or_ge (u * zetaOf n) 1 with hone | hone
  · rw [rank_eq_item, item_of_lt_one hone]
    exact Nat.zero_le _
  · rcases lt_or_ge (u * zetaOf n) (zetaOf 2) with htwo | htwo
    · rw [rank_eq_item, item_of_lt_two hone htwo]
      rcases lt_or_ge (v * zetaOf n) (zetaOf 2) with hv | hv
      · rw [rank_eq_item, item_of_lt_two (hone.trans hmul) hv]
      · rw [rank_of_le hn hv hv1]
        exact one_le_two.trans (floor_powerLaw_mem hn hv hv1).1
    · rw [rank_of_le hn htwo (huv.trans_lt hv1), rank_of_le hn (htwo.trans hmul) hv1]
      exact Nat.floor_le_floor (powerLaw_mono hn le_rfl htwo (huv.trans_lt hv1) huv hv1 n)

end Rank

/-! ## The generator -/

section Grown

variable {n : UInt64} {g : ZipfianGenerator} (hg : Grown 0 n.toNat n.toNat g)

include hg

theorem toNat_ofNat_rank (u : RandomDouble) :
    (UInt64.ofNat (rank n.toNat u)).toNat = rank n.toNat u := by
  rw [UInt64.toNat_ofNat_of_lt' ((rank_lt hg.two_le u.2.2).trans n.toNat_lt)]

theorem Grown.covers : Covers n g fun u => UInt64.ofNat (rank n.toNat u) where
  next := fun u => (congrArg (fun num => g.nextOf num (.double u)) hg.onItems.numItems).trans
    (hg.onItems.nextOf u)
  mono := fun u v huv => by
    rw [UInt64.le_iff_toNat_le, toNat_ofNat_rank hg, toNat_ofNat_rank hg]
    exact rank_mono hg.two_le huv v.2.2
  range := by
    ext value
    simp only [Set.mem_range, Set.mem_ofPred_eq, UInt64.lt_iff_toNat_lt, ← UInt64.toNat_inj,
      toNat_ofNat_rank hg]
    constructor
    · rintro ⟨u, hu⟩
      rw [← hu]
      exact rank_lt hg.two_le u.2.2
    · exact exists_rank_eq hg.two_le
  powerLaw := fun u hu => by
    rw [← zetaOf_two] at hu
    have hmem := floor_powerLaw_mem hg.two_le hu u.2.2
    rw [← rank_of_le hg.two_le hu u.2.2] at hmem
    simpa [UInt64.le_iff_toNat_le, UInt64.lt_iff_toNat_lt, toNat_ofNat_rank hg] using hmem
  onTwo := by
    rintro rfl u
    rw [← zetaOf_two]
    exact not_le.mp fun hu => absurd (two_lt le_rfl hu u.2.2) (lt_irrefl 2)

end Grown

/-- After any draws of a generator that the constructor makes on `n` items, `Next()` is a
nondecreasing function of its draw with the numbers below `n` as values. -/
theorem next_covers {n : UInt64} (htwo : 2 ≤ n) (hmax : n < kMaxNumItems) (u₀ : RandomDouble) :
    ∃ g₀, ofNumItems n (.double u₀) = some g₀ ∧
      ∀ draws g, drawing.run g₀ draws = some g → ∃ f, Covers n g f := by
  obtain ⟨g₀, hmake, hg₀⟩ := exists_grown htwo hmax u₀
  exact ⟨g₀, hmake, fun draws g hrun => ⟨_, (hg₀.drawing_run hrun).covers⟩⟩

/-- The theorem for a thousand items, of which all but two are drawn by the power law. -/
theorem next_covers_thousand :
    ∃ g₀, ofNumItems 1000 (.double 0) = some g₀ ∧
      ∀ draws g, drawing.run g₀ draws = some g → ∃ f, Covers 1000 g f :=
  next_covers (by decide) (by decide) _

end ZipfianGenerator

end YcsbC
