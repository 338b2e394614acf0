import Mathlib.Algebra.Order.BigOperators.Group.List
import Mathlib.Data.Nat.Find
import Mathlib.Order.Monotone.Basic

/-!
# Running sums

A walk along a list adds up the weights of its elements and stops at the first one at
which the sum satisfies a test.

If no weight is negative and the test is monotone, the sum passes from failing the test to
satisfying it at most once (`IsCut.unique`), and it does so if it fails the test at first
and satisfies it in the end (`exists_isCut`).  The walk stops there (`IsCut.stop_eq`).
-/

namespace RunningSum

variable {ι α : Type*}

section Sum

variable [AddMonoid α] (w : ι → α)

/-- The weight of the first `i` elements. -/
def before (l : List ι) (i : ℕ) : α := ((l.take i).map w).sum

/-- The running sum comes to satisfy the test at the `i`-th element. -/
structure IsCut (P : α → Prop) (l : List ι) (i : ℕ) : Prop where
  lt : i < l.length
  not_before : ¬ P (before w l i)
  upto : P (before w l (i + 1))

/-- The position at which the walk stops, if it does. -/
def stop (P : α → Prop) [DecidablePred P] (sum : α) : List ι → Option ℕ
  | [] => none
  | x :: l => if P (sum + w x) then some 0 else (stop P (sum + w x) l).map (· + 1)

@[simp] theorem before_zero (l : List ι) : before w l 0 = 0 := rfl

@[simp] theorem before_cons_succ (x : ι) (l : List ι) (i : ℕ) :
    before w (x :: l) (i + 1) = w x + before w l i := by
  simp [before]

theorem before_succ {l : List ι} {i : ℕ} (hi : i < l.length) :
    before w l (i + 1) = before w l i + w l[i] := by
  rw [before, List.take_succ_eq_append_getElem hi, List.map_append, List.sum_append]
  simp [before]

@[simp] theorem before_length (l : List ι) : before w l l.length = (l.map w).sum := by
  simp [before]

theorem before_of_length_le {l : List ι} {i : ℕ} (hi : l.length ≤ i) :
    before w l i = (l.map w).sum := by
  simp [before, List.take_of_length_le hi]

/-- A sum that fails the test at first and satisfies it in the end comes to satisfy it. -/
theorem exists_isCut {P : α → Prop} {l : List ι} (hzero : ¬ P 0) (htotal : P (l.map w).sum) : ∃ i, IsCut w P l i := by
  classical
  have hex : ∃ i, P (before w l i) := ⟨l.length, by rwa [before_length]⟩
  have hfind := Nat.find_spec hex
  obtain ⟨i, hi⟩ : ∃ i, Nat.find hex = i + 1 := by
    refine Nat.exists_eq_succ_of_ne_zero fun h0 => hzero ?_
    rwa [h0, before_zero] at hfind
  have hlt : i < Nat.find hex := by omega
  refine ⟨i, ?_, Nat.find_min hex hlt, by rwa [← hi]⟩
  have hle : Nat.find hex ≤ l.length := Nat.find_le (by rwa [before_length])
  omega

section Stop

variable {w} {P : α → Prop} [DecidablePred P] {sum : α} {l : List ι} {i : ℕ}

/-- The walk stops at an element when the test fails at all elements before it. -/
theorem stop_eq_some (hi : i < l.length) (hfail : ∀ j < i, ¬ P (sum + before w l (j + 1)))
    (hstop : P (sum + before w l (i + 1))) : stop w P sum l = some i := by
  induction l generalizing sum i with
  | nil => simp at hi
  | cons x l ih =>
      cases i with
      | zero =>
          simp only [before_cons_succ, before_zero, add_zero] at hstop
          simp [stop, hstop]
      | succ i =>
          have hfirst := hfail 0 i.succ_pos
          simp only [before_cons_succ, before_zero, add_zero] at hfirst
          have hrest : stop w P (sum + w x) l = some i := by
            refine ih (Nat.lt_of_succ_lt_succ hi) (fun j hj => ?_) ?_
            · simpa [add_assoc] using hfail (j + 1) (Nat.succ_lt_succ hj)
            · simpa [add_assoc] using hstop
          simp [stop, hfirst, hrest]

/-- The walk comes to the end when the test fails at all elements. -/
theorem stop_eq_none (hfail : ∀ j < l.length, ¬ P (sum + before w l (j + 1))) :
    stop w P sum l = none := by
  induction l generalizing sum with
  | nil => rfl
  | cons x l ih =>
      have hfirst := hfail 0 (by simp)
      simp only [before_cons_succ, before_zero, add_zero] at hfirst
      have hrest : stop w P (sum + w x) l = none := by
        refine ih fun j hj => ?_
        simpa [add_assoc] using hfail (j + 1) (by simpa using hj)
      simp [stop, hfirst, hrest]

end Stop

end Sum

section Order

variable [AddCommMonoid α] [PartialOrder α] [IsOrderedAddMonoid α] {w : ι → α} {P : α → Prop}
  {l : List ι} {i j : ℕ}

theorem before_mono (hw : ∀ x ∈ l, 0 ≤ w x) : Monotone (before w l) := by
  refine monotone_nat_of_le_succ fun i => ?_
  rcases lt_or_ge i l.length with hi | hi
  · rw [before_succ w hi]
    exact le_add_of_nonneg_right (hw _ (l.getElem_mem hi))
  · rw [before_of_length_le w hi, before_of_length_le w (hi.trans i.le_succ)]

theorem IsCut.unique (hw : ∀ x ∈ l, 0 ≤ w x) (hP : Monotone P) (hi : IsCut w P l i)
    (hj : IsCut w P l j) : i = j := by
  have hle : ∀ {i j : ℕ}, IsCut w P l i → IsCut w P l j → j ≤ i := by
    intro i j hi hj
    by_contra hlt
    exact hj.not_before (hP (before_mono hw (Nat.lt_of_not_le hlt)) hi.upto)
  exact le_antisymm (hle hj hi) (hle hi hj)

/-- A later test is passed at a later element. -/
theorem IsCut.le_of_imp {Q : α → Prop} (hw : ∀ x ∈ l, 0 ≤ w x) (hP : Monotone P)
    (hi : IsCut w P l i) (hj : IsCut w Q l j) (hQP : ∀ x, Q x → P x) : i ≤ j := by
  by_contra hlt
  exact hi.not_before (hP (before_mono hw (Nat.lt_of_not_le hlt)) (hQP _ hj.upto))

/-- The walk stops where the sum comes to satisfy the test. -/
theorem IsCut.stop_eq [DecidablePred P] (hw : ∀ x ∈ l, 0 ≤ w x) (hP : Monotone P)
    (hi : IsCut w P l i) : stop w P 0 l = some i := by
  refine stop_eq_some hi.lt (fun j hj hstop => ?_) (by simpa using hi.upto)
  rw [zero_add] at hstop
  exact hi.not_before (hP (before_mono hw hj) hstop)

/-- The walk comes to the end when the sum does not satisfy the test there. -/
theorem stop_eq_none_of_total [DecidablePred P] (hw : ∀ x ∈ l, 0 ≤ w x) (hP : Monotone P)
    (htotal : ¬ P (l.map w).sum) : stop w P 0 l = none := by
  refine stop_eq_none fun j hj hstop => htotal ?_
  rw [zero_add] at hstop
  rw [← before_length]
  exact hP (before_mono hw hj) hstop

end Order

end RunningSum
