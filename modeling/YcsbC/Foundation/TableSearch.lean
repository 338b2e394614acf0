import Mathlib.Order.Fin.Basic
import Mathlib.Order.Bounds.Basic

/-!
# Searching a table of bucket limits

A table of limits splits a linear order into buckets.  A value belongs to the
first bucket whose limit lies above it, and to the last bucket when no limit
does.  `IsBucket` says this of an index and `scan` finds the index by walking
up the table.

The bucket of a value is unique (`IsBucket.unique`), so any other way to compute
an index is correct as soon as its result is a bucket.  In a monotone table it
is enough to look at the two limits around the index (`IsBucket.of_adjacent`).
-/

namespace TableSearch

variable {α : Type*} [LinearOrder α] {n : ℕ}

/-- `b` is the first index whose limit is above `v`, or the last index. -/
structure IsBucket (limit : Fin (n + 1) → α) (v : α) (b : Fin (n + 1)) : Prop where
  /-- No earlier limit is above the value. -/
  below : ∀ i < b, limit i ≤ v
  /-- The limit at the index is, unless the table ends there. -/
  above : v < limit b ∨ b = Fin.last n

/-- Walk up the table from `b` while the limit is at most `v`.  The walk stops
at the last index without looking at its limit. -/
def scan (limit : Fin (n + 1) → α) (v : α) (b : Fin (n + 1)) : Fin (n + 1) :=
  if h : b < Fin.last n then
    if limit b ≤ v then scan limit v ⟨b + 1, Nat.succ_lt_succ h⟩ else b
  else b
termination_by n - b
decreasing_by
  have hb : (b : ℕ) < n := h
  omega

/-- Two buckets of one value are the same. -/
theorem IsBucket.unique {limit : Fin (n + 1) → α} {v : α} {b c : Fin (n + 1)}
    (hb : IsBucket limit v b) (hc : IsBucket limit v c) : b = c := by
  have key : ∀ {b c : Fin (n + 1)}, IsBucket limit v b → IsBucket limit v c → ¬ b < c := by
    intro b c hb hc hlt
    rcases hb.above with h | h
    · exact absurd (hc.below b hlt) (not_le.mpr h)
    · exact absurd (h ▸ hlt) (not_lt.mpr (Fin.le_last c))
  exact le_antisymm (not_lt.mp (key hc hb)) (not_lt.mp (key hb hc))

/-- The walk reaches the bucket when it starts at or before it. -/
theorem scan_isBucket (limit : Fin (n + 1) → α) (v : α) (b : Fin (n + 1))
    (hb : ∀ i < b, limit i ≤ v) : IsBucket limit v (scan limit v b) := by
  induction b using scan.induct limit v with
  | case1 b hlast hle ih =>
      rw [scan, dif_pos hlast, if_pos hle]
      refine ih fun i hi => ?_
      rcases (Nat.lt_succ_iff_lt_or_eq.mp hi) with h | h
      · exact hb i h
      · rw [Fin.ext h]
        exact hle
  | case2 b hlast hle =>
      rw [scan, dif_pos hlast, if_neg hle]
      exact ⟨hb, .inl (not_le.mp hle)⟩
  | case3 b hlast =>
      rw [scan, dif_neg hlast]
      exact ⟨hb, .inr (le_antisymm (Fin.le_last b) (not_lt.mp hlast))⟩

/-- In a monotone table only the limit just before the index matters. -/
theorem IsBucket.of_adjacent {limit : Fin (n + 1) → α} (hmono : Monotone limit) {v : α}
    {b : Fin (n + 1)} (hprev : ∀ i : Fin (n + 1), (i : ℕ) + 1 = b → limit i ≤ v)
    (hnext : v < limit b ∨ b = Fin.last n) : IsBucket limit v b := by
  refine ⟨fun i hi => ?_, hnext⟩
  have hpos : (i : ℕ) < b := hi
  have hlt : (b : ℕ) - 1 < n + 1 := by omega
  have hprev' := hprev ⟨b - 1, hlt⟩ (by simp only; omega)
  exact le_trans (hmono (Fin.mk_le_mk.mpr (by omega) : i ≤ ⟨b - 1, hlt⟩)) hprev'

/-- The bucket of a value is the least index with a limit above it, or the last
index when there is none. -/
theorem IsBucket.isLeast_or {limit : Fin (n + 1) → α} {v : α} {b : Fin (n + 1)}
    (h : IsBucket limit v b) :
    IsLeast {i | v < limit i} b ∨ (∀ i, ¬ v < limit i) ∧ b = Fin.last n := by
  by_cases hv : v < limit b
  · refine .inl ⟨hv, fun i hi => ?_⟩
    exact not_lt.mp fun hlt => absurd (h.below i hlt) (not_le.mpr hi)
  · have hlast : b = Fin.last n := h.above.resolve_left hv
    refine .inr ⟨fun i hi => ?_, hlast⟩
    rcases lt_or_eq_of_le (Fin.le_last i) with hlt | heq
    · exact absurd (h.below i (hlast ▸ hlt)) (not_le.mpr hi)
    · exact hv (by rwa [hlast, ← heq])

end TableSearch
