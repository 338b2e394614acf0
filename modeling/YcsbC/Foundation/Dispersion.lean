import Mathlib.Algebra.Order.BigOperators.Group.Multiset
import Mathlib.Algebra.Order.Field.Basic
import Mathlib.Tactic.FieldSimp
import Mathlib.Tactic.Ring

/-!
# Mean and dispersion

The number of elements of a multiset times the sum of their squares, less the square of
their sum, is the number of elements times the sum of their squared distances from the mean
(`spread_eq`).  So it is never negative, and it is zero exactly when all elements are equal.
The mean is between any two bounds of the elements.
-/

namespace Dispersion

variable {K : Type*} [Field K] [LinearOrder K] [IsStrictOrderedRing K] (s : Multiset K)

/-- The sum of the squares. -/
def sumSq : K := (s.map fun x => x * x).sum

/-- The mean, zero if there are no elements. -/
def mean : K := s.sum / s.card

/-- `n ∑ x² - (∑ x)²` for `n` elements. -/
def spread : K := sumSq s * s.card - s.sum * s.sum

variable {s}

theorem card_pos_of_ne_zero (hs : s ≠ 0) : (0 : K) < s.card :=
  Nat.cast_pos.mpr (Multiset.card_pos.mpr hs)

omit [LinearOrder K] [IsStrictOrderedRing K] in
theorem sum_sq_dist (s : Multiset K) (c : K) :
    (s.map fun x => (x - c) * (x - c)).sum = sumSq s - 2 * c * s.sum + s.card * (c * c) := by
  induction s using Multiset.induction_on with
  | empty => simp [sumSq]
  | cons x s ih =>
      simp only [sumSq, Multiset.map_cons, Multiset.sum_cons, Multiset.card_cons] at ih ⊢
      rw [ih]
      push_cast
      ring

theorem spread_eq (hs : s ≠ 0) :
    spread s = s.card * (s.map fun x => (x - mean s) * (x - mean s)).sum := by
  have hcard := (card_pos_of_ne_zero hs).ne'
  rw [sum_sq_dist, spread, mean]
  field_simp
  ring

theorem sum_sq_dist_nonneg (s : Multiset K) (c : K) :
    0 ≤ (s.map fun x => (x - c) * (x - c)).sum := by
  refine Multiset.sum_nonneg fun y hy => ?_
  obtain ⟨x, -, rfl⟩ := Multiset.mem_map.mp hy
  exact mul_self_nonneg _

theorem spread_nonneg (s : Multiset K) : 0 ≤ spread s := by
  rcases eq_or_ne s 0 with rfl | hs
  · simp [spread, sumSq]
  · rw [spread_eq hs]
    exact mul_nonneg (card_pos_of_ne_zero hs).le (sum_sq_dist_nonneg s _)

/-- The spread is zero exactly when all elements are equal. -/
theorem spread_eq_zero_iff (s : Multiset K) : spread s = 0 ↔ ∀ x ∈ s, ∀ y ∈ s, x = y := by
  constructor
  · intro hspread x hx y hy
    have hs : s ≠ 0 := by
      rintro rfl
      simp at hx
    have hsum : (s.map fun x => (x - mean s) * (x - mean s)).sum = 0 := by
      rw [spread_eq hs] at hspread
      exact (mul_eq_zero.mp hspread).resolve_left (card_pos_of_ne_zero hs).ne'
    have hmean : ∀ z ∈ s, z = mean s := by
      intro z hz
      have hzero := Multiset.all_zero_of_le_zero_le_of_sum_eq_zero
        (fun w hw => by
          obtain ⟨z, -, rfl⟩ := Multiset.mem_map.mp hw
          exact mul_self_nonneg _) hsum _ (Multiset.mem_map_of_mem _ hz)
      exact sub_eq_zero.mp (mul_self_eq_zero.mp hzero)
    rw [hmean x hx, hmean y hy]
  · intro hall
    rcases Multiset.empty_or_exists_mem s with rfl | ⟨x, hx⟩
    · simp [spread, sumSq]
    · have hs : s = Multiset.replicate s.card x :=
        Multiset.eq_replicate_card.mpr fun y hy => hall y hy x hx
      rw [hs]
      simp [spread, sumSq]
      ring

theorem le_mean (hs : s ≠ 0) {a : K} (ha : ∀ x ∈ s, a ≤ x) : a ≤ mean s := by
  rw [mean, le_div_iff₀ (card_pos_of_ne_zero hs), mul_comm, ← nsmul_eq_mul]
  exact Multiset.card_nsmul_le_sum ha

theorem mean_le (hs : s ≠ 0) {a : K} (ha : ∀ x ∈ s, x ≤ a) : mean s ≤ a := by
  rw [mean, div_le_iff₀ (card_pos_of_ne_zero hs), mul_comm, ← nsmul_eq_mul]
  exact Multiset.sum_le_card_nsmul s a ha

end Dispersion
