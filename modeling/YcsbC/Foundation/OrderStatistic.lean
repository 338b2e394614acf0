import Mathlib.Data.Multiset.Count
import Mathlib.Data.Multiset.Sort

/-!
# Order statistics

The `k`-th smallest element of a multiset, counted from one.  How it compares with a bound
is a matter of how many elements are below the bound (`smallest_lt_iff`).
-/

namespace OrderStatistic

variable {α : Type*} [LinearOrder α]

/-- The `k`-th smallest element, if there are that many. -/
def smallest (s : Multiset α) : ℕ → Option α
  | 0 => none
  | k + 1 => (s.sort (· ≤ ·))[k]?

/-- In a sorted list the elements below a bound come first. -/
theorem getElem_lt_iff {l : List α} (hl : l.Pairwise (· ≤ ·)) {c : α} {i : ℕ}
    (hi : i < l.length) : l[i] < c ↔ i < l.countP (· < c) := by
  induction l generalizing i with
  | nil => simp at hi
  | cons x l ih =>
      obtain ⟨hx, hl⟩ := List.pairwise_cons.mp hl
      by_cases hxc : x < c
      · cases i with
        | zero => simp [hxc]
        | succ i => simp [hxc, ih hl (Nat.lt_of_succ_lt_succ hi)]
      · -- the first element is not below the bound, so none is
        have hnone : ∀ y ∈ x :: l, ¬ y < c := by
          intro y hy
          rcases List.mem_cons.mp hy with rfl | hy
          · exact hxc
          · exact fun hyc => hxc ((hx y hy).trans_lt hyc)
        have hcount : (x :: l).countP (· < c) = 0 := by
          simpa [List.countP_eq_zero] using hnone
        simp only [hcount, Nat.not_lt_zero, iff_false]
        exact hnone _ (List.getElem_mem hi)

variable {s : Multiset α} {k : ℕ} {x : α}

theorem exists_smallest (hk : 0 < k) (hks : k ≤ s.card) : ∃ x, smallest s k = some x := by
  obtain ⟨k, rfl⟩ := Nat.exists_eq_succ_of_ne_zero hk.ne'
  have hlt : k < (s.sort (· ≤ ·)).length := by
    rw [Multiset.length_sort]
    exact hks
  exact ⟨_, List.getElem?_eq_getElem hlt⟩

theorem smallest_mem (hx : smallest s k = some x) : x ∈ s := by
  cases k with
  | zero => cases hx
  | succ k => simpa using List.mem_of_getElem? hx

/-- The `k`-th smallest element is below a bound when `k` elements are. -/
theorem smallest_lt_iff (hx : smallest s k = some x) {c : α} :
    x < c ↔ k ≤ s.countP (· < c) := by
  cases k with
  | zero => cases hx
  | succ k =>
      obtain ⟨hlt, rfl⟩ := List.getElem?_eq_some_iff.mp hx
      have hcount : s.countP (· < c) = (s.sort (· ≤ ·)).countP (· < c) := by
        conv_lhs => rw [← s.sort_eq (· ≤ ·), Multiset.coe_countP]
      rw [hcount, getElem_lt_iff (s.pairwise_sort (· ≤ ·)) hlt, Nat.succ_le_iff]

/-- The elements below the next number are those below it and those at it. -/
theorem countP_lt_succ {β : Type*} (f : β → ℕ) (s : Multiset β) (i : ℕ) :
    s.countP (f · < i + 1) = s.countP (f · < i) + s.countP (f · = i) := by
  induction s using Multiset.induction_on with
  | empty => simp
  | cons x s ih =>
      simp only [Multiset.countP_cons, ih]
      rcases lt_trichotomy (f x) i with hlt | heq | hgt
      · rw [if_pos (Nat.lt_succ_of_lt hlt), if_pos hlt, if_neg hlt.ne]
        omega
      · rw [if_pos (Nat.lt_succ_of_le heq.le), if_neg heq.not_lt, if_pos heq]
        omega
      · rw [if_neg (by omega), if_neg hgt.not_gt, if_neg hgt.ne']
        omega

end OrderStatistic
