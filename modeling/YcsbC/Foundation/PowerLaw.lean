import Mathlib.Analysis.Convex.SpecificFunctions.Basic
import Mathlib.Analysis.SpecialFunctions.Pow.Real

/-!
# Sampling a power law by inversion

A uniform draw `u` from `[u₀, 1)` is turned into a value of `[m, n)` by
`n * (η * u - η + 1) ^ (1 / β)`.  The slope `η` is chosen so that `u₀` gives `m`; the
values then stay in `[m, n)` and every one of them is produced by some draw.

The draws of values from `x` on are those from `draw n β η x` on (`le_value_iff`).  For an
exponent `β` below 1 the power is concave, so these draws lie the closer to each other the
greater the values are (`draw_spacing`).
-/

namespace PowerLaw

/-- The slope that sends the draw `u₀` to the value `m`. -/
noncomputable def slope (m n β u₀ : ℝ) : ℝ := (1 - (m / n) ^ β) / (1 - u₀)

/-- The value of a draw. -/
noncomputable def value (n β η u : ℝ) : ℝ := n * (η * u - η + 1) ^ (1 / β)

variable {m n β u₀ : ℝ}

/-- The slope for a greater end is greater. -/
theorem slope_lt_slope {n' : ℝ} (hm : 0 < m) (hn : 0 < n) (hnn' : n < n') (hβ : 0 < β)
    (hu₀ : u₀ < 1) : slope m n β u₀ < slope m n' β u₀ := by
  have hratio : (m / n') ^ β < (m / n) ^ β :=
    Real.rpow_lt_rpow (div_nonneg hm.le (hn.trans hnn').le)
      (div_lt_div_of_pos_left hm hn hnn') hβ
  exact div_lt_div_of_pos_right (by linarith) (sub_pos.mpr hu₀)

theorem base_eq (η u : ℝ) : η * u - η + 1 = 1 - η * (1 - u) := by ring

/-! ## The draws from `u₀` on -/

section Base

variable (hm : 0 < m) (hmn : m ≤ n) (hβ : 0 < β) (hu₀ : u₀ < 1)

include hm hmn hβ hu₀

theorem slope_nonneg : 0 ≤ slope m n β u₀ := by
  have hratio : (m / n) ^ β ≤ 1 :=
    Real.rpow_le_one (div_nonneg hm.le (hm.le.trans hmn))
      ((div_le_one (hm.trans_le hmn)).mpr hmn) hβ.le
  exact div_nonneg (sub_nonneg.mpr hratio) (sub_pos.mpr hu₀).le

/-- What is raised to the power is between its number at `u₀` and 1. -/
theorem base_mem {u : ℝ} (hu : u₀ ≤ u) (hu1 : u ≤ 1) :
    (m / n) ^ β ≤ slope m n β u₀ * u - slope m n β u₀ + 1 ∧
      slope m n β u₀ * u - slope m n β u₀ + 1 ≤ 1 := by
  have hslope := slope_nonneg hm hmn hβ hu₀
  have hle : slope m n β u₀ * (1 - u) ≤ 1 - (m / n) ^ β := by
    calc slope m n β u₀ * (1 - u) ≤ slope m n β u₀ * (1 - u₀) :=
          mul_le_mul_of_nonneg_left (by linarith) hslope
      _ = 1 - (m / n) ^ β := div_mul_cancel₀ _ (sub_pos.mpr hu₀).ne'
  have hnonneg : 0 ≤ slope m n β u₀ * (1 - u) := mul_nonneg hslope (by linarith)
  rw [base_eq]
  constructor
  · linarith
  · linarith

theorem base_nonneg {u : ℝ} (hu : u₀ ≤ u) (hu1 : u ≤ 1) :
    0 ≤ slope m n β u₀ * u - slope m n β u₀ + 1 :=
  (Real.rpow_nonneg (div_nonneg hm.le (hm.le.trans hmn)) β).trans
    (base_mem hm hmn hβ hu₀ hu hu1).1

theorem value_nonneg {k u : ℝ} (hk : 0 ≤ k) (hu : u₀ ≤ u) (hu1 : u ≤ 1) :
    0 ≤ value k β (slope m n β u₀) u :=
  mul_nonneg hk (Real.rpow_nonneg (base_nonneg hm hmn hβ hu₀ hu hu1) _)

/-- On another number `k` in place of `n` the values are at most `k`. -/
theorem value_le {k u : ℝ} (hk : 0 ≤ k) (hu : u₀ ≤ u) (hu1 : u ≤ 1) :
    value k β (slope m n β u₀) u ≤ k := by
  have hroot : (slope m n β u₀ * u - slope m n β u₀ + 1) ^ (1 / β) ≤ 1 :=
    Real.rpow_le_one (base_nonneg hm hmn hβ hu₀ hu hu1) (base_mem hm hmn hβ hu₀ hu hu1).2
      (one_div_pos.mpr hβ).le
  calc k * (slope m n β u₀ * u - slope m n β u₀ + 1) ^ (1 / β) ≤ k * 1 :=
        mul_le_mul_of_nonneg_left hroot hk
    _ = k := mul_one k

/-- A greater draw has no smaller value. -/
theorem value_mono {k u v : ℝ} (hk : 0 ≤ k) (hu : u₀ ≤ u) (huv : u ≤ v) (hv1 : v ≤ 1) :
    value k β (slope m n β u₀) u ≤ value k β (slope m n β u₀) v := by
  have hbase : slope m n β u₀ * u ≤ slope m n β u₀ * v :=
    mul_le_mul_of_nonneg_left huv (slope_nonneg hm hmn hβ hu₀)
  have hroot : (slope m n β u₀ * u - slope m n β u₀ + 1) ^ (1 / β) ≤
      (slope m n β u₀ * v - slope m n β u₀ + 1) ^ (1 / β) :=
    Real.rpow_le_rpow (base_nonneg hm hmn hβ hu₀ hu (huv.trans hv1)) (by linarith)
      (one_div_pos.mpr hβ).le
  exact mul_le_mul_of_nonneg_left hroot hk

end Base

/-! ## The values from `m` to `n` -/

variable (hm : 0 < m) (hmn : m < n) (hβ : 0 < β) (hu₀ : u₀ < 1)

include hm hmn hβ

theorem ratio_rpow_lt_one : (m / n) ^ β < 1 :=
  Real.rpow_lt_one (div_nonneg hm.le (hm.trans hmn).le)
    ((div_lt_one (hm.trans hmn)).mpr hmn) hβ

include hu₀

theorem slope_pos : 0 < slope m n β u₀ :=
  div_pos (sub_pos.mpr (ratio_rpow_lt_one hm hmn hβ)) (sub_pos.mpr hu₀)

/-- The draws from `u₀` on have values from `m` to `n`. -/
theorem value_mem {u : ℝ} (hu : u₀ ≤ u) (hu1 : u < 1) :
    m ≤ value n β (slope m n β u₀) u ∧ value n β (slope m n β u₀) u < n := by
  have hn : 0 < n := hm.trans hmn
  have hratio : 0 < (m / n) ^ β := Real.rpow_pos_of_pos (div_pos hm hn) β
  have hbase := (base_mem hm hmn.le hβ hu₀ hu hu1.le).1
  rw [value]
  constructor
  · have hroot : m / n ≤ (slope m n β u₀ * u - slope m n β u₀ + 1) ^ (1 / β) := by
      rw [← Real.rpow_rpow_inv (div_pos hm hn).le hβ.ne', one_div]
      exact Real.rpow_le_rpow hratio.le hbase (inv_nonneg.mpr hβ.le)
    calc m = n * (m / n) := (mul_div_cancel₀ m hn.ne').symm
      _ ≤ _ := mul_le_mul_of_nonneg_left hroot hn.le
  · have hlt : slope m n β u₀ * u - slope m n β u₀ + 1 < 1 := by
      have hpos : 0 < slope m n β u₀ * (1 - u) :=
        mul_pos (slope_pos hm hmn hβ hu₀) (sub_pos.mpr hu1)
      rw [base_eq]
      linarith
    have hroot : (slope m n β u₀ * u - slope m n β u₀ + 1) ^ (1 / β) < 1 :=
      Real.rpow_lt_one (hratio.le.trans hbase) hlt (one_div_pos.mpr hβ)
    calc _ < n * 1 := mul_lt_mul_of_pos_left hroot hn
      _ = n := mul_one n

/-- Every value from `m` to `n` is the value of a draw. -/
theorem exists_value_eq {x : ℝ} (hx : m ≤ x) (hxn : x < n) :
    ∃ u, u₀ ≤ u ∧ u < 1 ∧ value n β (slope m n β u₀) u = x := by
  have hn : 0 < n := hm.trans hmn
  have hx0 : 0 < x := hm.trans_le hx
  have hslope := slope_pos hm hmn hβ hu₀
  have hlt : (x / n) ^ β < 1 := ratio_rpow_lt_one hx0 hxn hβ
  have hle : (m / n) ^ β ≤ (x / n) ^ β :=
    Real.rpow_le_rpow (div_pos hm hn).le (div_le_div_of_nonneg_right hx hn.le) hβ.le
  refine ⟨1 - (1 - (x / n) ^ β) / slope m n β u₀, ?_, ?_, ?_⟩
  · have hquot : (1 - (x / n) ^ β) / slope m n β u₀ ≤ 1 - u₀ := by
      rw [div_le_iff₀ hslope]
      calc 1 - (x / n) ^ β ≤ 1 - (m / n) ^ β := by linarith
        _ = (1 - u₀) * slope m n β u₀ := (mul_div_cancel₀ _ (sub_pos.mpr hu₀).ne').symm
    linarith
  · have hquot : 0 < (1 - (x / n) ^ β) / slope m n β u₀ := div_pos (by linarith) hslope
    linarith
  · have hbase : slope m n β u₀ * (1 - (1 - (x / n) ^ β) / slope m n β u₀) - slope m n β u₀ + 1
        = (x / n) ^ β := by
      have hcancel : slope m n β u₀ * ((1 - (x / n) ^ β) / slope m n β u₀) = 1 - (x / n) ^ β :=
        mul_div_cancel₀ _ hslope.ne'
      linear_combination -hcancel
    rw [value, hbase, one_div, Real.rpow_rpow_inv (div_pos hx0 hn).le hβ.ne']
    exact mul_div_cancel₀ x hn.ne'

/-! ## The draws of values -/

/-- The draw of a value. -/
noncomputable def draw (n β η x : ℝ) : ℝ := 1 - (1 - (x / n) ^ β) / η

omit hm hmn hβ hu₀ in
theorem draw_end {η : ℝ} (hn : 0 < n) : draw n β η n = 1 := by
  rw [draw, div_self hn.ne', Real.one_rpow, sub_self, zero_div, sub_zero]

omit hu₀ in
/-- The value `m` has the draw `u₀`. -/
theorem draw_start : draw n β (slope m n β u₀) m = u₀ := by
  have hratio : 1 - (m / n) ^ β ≠ 0 := (sub_pos.mpr (ratio_rpow_lt_one hm hmn hβ)).ne'
  rw [draw, slope, div_div_cancel₀ hratio]
  ring

/-- The values from `x` on have the draws from that of `x` on. -/
theorem le_value_iff {x u : ℝ} (hx : 0 ≤ x) (hu : u₀ ≤ u) (hu1 : u ≤ 1) :
    x ≤ value n β (slope m n β u₀) u ↔ draw n β (slope m n β u₀) x ≤ u := by
  have hn : 0 < n := hm.trans hmn
  have hbase := base_nonneg hm hmn.le hβ hu₀ hu hu1
  calc x ≤ value n β (slope m n β u₀) u
      ↔ x / n ≤ (slope m n β u₀ * u - slope m n β u₀ + 1) ^ β⁻¹ := by
        rw [value, one_div, div_le_iff₀' hn]
    _ ↔ (x / n) ^ β ≤ slope m n β u₀ * u - slope m n β u₀ + 1 :=
        Real.le_rpow_inv_iff_of_pos (div_nonneg hx hn.le) hbase hβ
    _ ↔ (1 - u) * slope m n β u₀ ≤ 1 - (x / n) ^ β := by
        constructor
        · intro hle
          linarith
        · intro hle
          linarith
    _ ↔ 1 - u ≤ (1 - (x / n) ^ β) / slope m n β u₀ :=
        (le_div_iff₀ (slope_pos hm hmn hβ hu₀)).symm
    _ ↔ draw n β (slope m n β u₀) x ≤ u := sub_le_comm

omit hm hmn hβ hu₀

theorem draw_sub_draw (hn : 0 ≤ n) {η x y : ℝ} (hx : 0 ≤ x) (hy : 0 ≤ y) :
    draw n β η y - draw n β η x = (y ^ β - x ^ β) / (n ^ β * η) := by
  rw [draw, draw, Real.div_rpow hx hn, Real.div_rpow hy hn, ← div_div, sub_div (y ^ β)]
  ring

/-- A power with an exponent up to 1 stays below its tangents. -/
theorem rpow_le_tangent {x y : ℝ} (hx : 0 < x) (hy : 0 ≤ y) (hβ : 0 ≤ β) (hβ1 : β ≤ 1) :
    y ^ β ≤ x ^ β + β * x ^ (β - 1) * (y - x) := by
  have hratio : (1 + (y / x - 1)) ^ β ≤ 1 + β * (y / x - 1) :=
    rpow_one_add_le_one_add_mul_self (by linarith [div_nonneg hy hx.le]) hβ hβ1
  calc y ^ β = x ^ β * (1 + (y / x - 1)) ^ β := by
        rw [add_sub_cancel, ← Real.mul_rpow hx.le (div_nonneg hy hx.le), mul_div_cancel₀ _ hx.ne']
    _ ≤ x ^ β * (1 + β * (y / x - 1)) :=
        mul_le_mul_of_nonneg_left hratio (Real.rpow_nonneg hx.le β)
    _ = x ^ β + β * x ^ (β - 1) * (y - x) := by
        rw [Real.rpow_sub_one hx.ne']
        field_simp

/-- The draws of greater values are not further apart. -/
theorem draw_spacing (hn : 0 ≤ n) {η x : ℝ} (hη : 0 ≤ η) (hx : 0 ≤ x) (hβ : 0 ≤ β) (hβ1 : β ≤ 1) :
    draw n β η (x + 2) - draw n β η (x + 1) ≤ draw n β η (x + 1) - draw n β η x := by
  have hleft := rpow_le_tangent (by linarith : 0 < x + 1) (by linarith : 0 ≤ x + 2) hβ hβ1
  have hright := rpow_le_tangent (by linarith : 0 < x + 1) hx hβ hβ1
  rw [draw_sub_draw hn (by linarith) (by linarith), draw_sub_draw hn hx (by linarith)]
  refine div_le_div_of_nonneg_right ?_ (mul_nonneg (Real.rpow_nonneg hn β) hη)
  linarith

end PowerLaw
