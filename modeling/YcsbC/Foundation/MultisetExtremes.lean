import Mathlib.Data.Multiset.Fold
import Mathlib.Order.OrderDual

/-!
# The least and the greatest element of a multiset

A fold of `min` from a bound above all elements is the least element, and a fold of `max`
from a bound below all elements is the greatest one.
-/

namespace MultisetExtremes

variable {α : Type*} [LinearOrder α] {s : Multiset α} {b x : α}

theorem fold_min_le (hx : x ∈ s) : s.fold min b ≤ x := by
  induction s using Multiset.induction_on with
  | empty => simp at hx
  | cons y s ih =>
      rw [Multiset.fold_cons_left]
      rcases Multiset.mem_cons.mp hx with rfl | hx
      · exact min_le_left _ _
      · exact (min_le_right _ _).trans (ih hx)

theorem fold_min_mem (hs : s ≠ 0) (hb : ∀ x ∈ s, x ≤ b) : s.fold min b ∈ s := by
  induction s using Multiset.induction_on with
  | empty => exact absurd rfl hs
  | cons y s ih =>
      rw [Multiset.fold_cons_left]
      rcases eq_or_ne s 0 with rfl | hne
      · simp [min_eq_left (hb y (Multiset.mem_cons_self y 0))]
      · have hmem := ih hne fun x hx => hb x (Multiset.mem_cons_of_mem hx)
        rcases min_choice y (s.fold min b) with heq | heq
        · simp [heq]
        · rw [heq]
          exact Multiset.mem_cons_of_mem hmem

theorem le_fold_max (hx : x ∈ s) : x ≤ s.fold max b := fold_min_le (α := αᵒᵈ) hx

theorem fold_max_mem (hs : s ≠ 0) (hb : ∀ x ∈ s, b ≤ x) : s.fold max b ∈ s :=
  fold_min_mem (α := αᵒᵈ) hs hb

end MultisetExtremes
