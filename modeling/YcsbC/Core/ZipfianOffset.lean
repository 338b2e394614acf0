import YcsbC.Core.ZipfianState

/-!
# The least item of a zipfian generator

`Next` adds `base_` to what the power law gives, but its two shortcuts return 0 and 1 as they
are.  So a value is in the range of the generator if the power law gives it, and otherwise
only if 0 or 1 is in the range (`next_inRange_iff`).

Scan lengths and field lengths can be drawn from a zipfian generator from 1 on.  They are at
most the greatest length, and 0 when the first shortcut is taken (`LengthGenerator.next_spec`).
-/

namespace YcsbC

namespace ZipfianGenerator

/-- The number of items from `min` to `max`. -/
def itemsBetween (min max : UInt64) : ℕ := max.toNat - min.toNat + 1

/-- `Next()` returns a value from `min` to `max` for this draw. -/
def InRange (min max : UInt64) (g : ZipfianGenerator) (u : RandomDouble) : Prop :=
  ∃ value g', g.next (.double u) = some (value, g') ∧ min ≤ value ∧ value ≤ max

theorem toNat_numItems {min max : UInt64} (htwo : 2 ≤ itemsBetween min max)
    (hmax : itemsBetween min max < kMaxNumItems.toNat) :
    (max - min + 1).toNat = itemsBetween min max := by
  have hlt := hmax.trans kMaxNumItems.toNat_lt
  unfold itemsBetween at htwo hlt ⊢
  have hsub : (max - min).toNat = max.toNat - min.toNat :=
    UInt64.toNat_sub_of_le _ _ (UInt64.le_iff_toNat_le.mpr (by omega))
  rw [UInt64.toNat_add, hsub, UInt64.toNat_one, Nat.mod_eq_of_lt hlt]

section Grown

variable {min n : ℕ} {g : ZipfianGenerator} (hg : Grown min n n g)

include hg

/-- No item is above the last one. -/
theorem Grown.item_lt (u : RandomDouble) : item min n n n u < min + n := by
  have hn := hg.two_le
  obtain ⟨-, hitem⟩ | ⟨-, -, hitem⟩ | ⟨hsecond, hitem⟩ := item_cases hn le_rfl u min n
  · omega
  · omega
  · rw [hitem]
    exact Nat.add_lt_add_left (floor_powerLaw_mem hn hsecond u.2.2).2 min

/-- An item is below the first one when a shortcut gives it. -/
theorem Grown.le_item_iff (u : RandomDouble) : min ≤ item min n n n u ↔
    min = 0 ∨ (min = 1 ∧ 1 ≤ (u : ℝ) * zetaOf n) ∨ zetaOf 2 ≤ (u : ℝ) * zetaOf n := by
  have hone := one_lt_zetaOf (le_refl 2)
  obtain ⟨hfirst, hitem⟩ | ⟨hfirst, hsecond, hitem⟩ | ⟨hsecond, hitem⟩ :=
    item_cases hg.two_le le_rfl u min n
  · simp [hitem, hfirst.not_ge, (hfirst.trans hone).not_ge]
  · simp [hitem, hfirst, hsecond.not_ge, Nat.le_one_iff_eq_zero_or_eq_one]
  · simp [hitem, hsecond]

end Grown

/-- From 1 on the item is 0 when the first shortcut gives it. -/
theorem Grown.item_eq_zero_iff {n : ℕ} {g : ZipfianGenerator} (hg : Grown 1 n n g)
    (u : RandomDouble) : item 1 n n n u = 0 ↔ (u : ℝ) * zetaOf n < 1 := by
  have hle := hg.le_item_iff u
  have hone := one_lt_zetaOf (le_refl 2)
  rw [← not_iff_not, ← Ne, ← Nat.one_le_iff_ne_zero, hle, not_lt]
  constructor
  · rintro (hzero | ⟨-, hfirst⟩ | hsecond)
    · cases hzero
    · exact hfirst
    · exact hone.le.trans hsecond
  · exact fun hfirst => .inr (.inl ⟨rfl, hfirst⟩)

section InRange

variable {min max : UInt64} (htwo : 2 ≤ itemsBetween min max)
  (hmax : itemsBetween min max < kMaxNumItems.toNat)

include htwo in
/-- `Next()` stays in the range if its item is not below the first one. -/
theorem Grown.inRange_iff {g : ZipfianGenerator}
    (hg : Grown min.toNat (itemsBetween min max) (itemsBetween min max) g) (u : RandomDouble) :
    InRange min max g u ↔
      min.toNat ≤ item min.toNat (itemsBetween min max) (itemsBetween min max)
        (itemsBetween min max) u := by
  obtain ⟨g', hnext, -⟩ := hg.next u
  have hitem := hg.item_lt u
  have hlast : min.toNat + itemsBetween min max = max.toNat + 1 := by
    unfold itemsBetween at htwo ⊢
    omega
  rw [hlast, Nat.lt_succ_iff] at hitem
  have hnat := Nat.mod_eq_of_lt (hitem.trans_lt max.toNat_lt)
  simp [InRange, hnext, UInt64.le_iff_toNat_le, hnat, hitem]

include htwo hmax

theorem exists_make_between (u₀ : RandomDouble) : ∃ g₀, make min max (.double u₀) = some g₀ ∧
    Grown min.toNat (itemsBetween min max) (itemsBetween min max) g₀ := by
  have hnum := toNat_numItems htwo hmax
  rw [← hnum]
  refine exists_make ?_ ?_ u₀
  · rw [UInt64.le_iff_toNat_le, hnum]
    exact htwo
  · rw [UInt64.lt_iff_toNat_lt, hnum]
    exact hmax

/-- In every state that draws lead to, `Next()` stays in the range exactly when no shortcut
is taken whose number is below the range. -/
theorem next_inRange_iff (u₀ : RandomDouble) :
    ∃ g₀, make min max (.double u₀) = some g₀ ∧
      ∀ draws g, drawing.run g₀ draws = some g → ∀ u : RandomDouble, InRange min max g u ↔
        min = 0 ∨ (min = 1 ∧ 1 ≤ (u : ℝ) * zetaOf (itemsBetween min max)) ∨
          1 + (1 / 2 : ℝ) ^ kZipfianConst ≤ (u : ℝ) * zetaOf (itemsBetween min max) := by
  obtain ⟨g₀, hmake, hg₀⟩ := exists_make_between htwo hmax u₀
  refine ⟨g₀, hmake, fun draws g hrun u => ?_⟩
  have hg := hg₀.drawing_run hrun
  rw [hg.inRange_iff htwo, hg.le_item_iff, ← zetaOf_two]
  simp [← UInt64.toNat_inj]

end InRange

/-- The theorem for lengths from 1 to 1000. -/
theorem next_inRange_iff_thousand :
    ∃ g₀, make 1 1000 (.double 0) = some g₀ ∧
      ∀ draws g, drawing.run g₀ draws = some g → ∀ u : RandomDouble, InRange 1 1000 g u ↔
        (1 : UInt64) = 0 ∨ ((1 : UInt64) = 1 ∧ 1 ≤ (u : ℝ) * zetaOf (itemsBetween 1 1000)) ∨
          1 + (1 / 2 : ℝ) ^ kZipfianConst ≤ (u : ℝ) * zetaOf (itemsBetween 1 1000) :=
  next_inRange_iff (by decide) (by decide) 0

/-- The least draw gives 0 where the range starts with 1. -/
theorem not_inRange_thousand :
    ∃ g₀, make 1 1000 (.double 0) = some g₀ ∧ ¬ InRange 1 1000 g₀ 0 := by
  have htwo : 2 ≤ itemsBetween 1 1000 := by decide
  obtain ⟨g₀, hmake, hg₀⟩ := exists_make_between htwo (by decide) 0
  refine ⟨g₀, hmake, fun hrange => ?_⟩
  rw [hg₀.inRange_iff htwo, hg₀.le_item_iff] at hrange
  have hzeta : ¬ zetaOf 2 ≤ 0 := (zetaOf_pos le_rfl le_rfl).not_ge
  simp [hzeta, zero_lt_one.not_ge] at hrange

end ZipfianGenerator

end YcsbC
