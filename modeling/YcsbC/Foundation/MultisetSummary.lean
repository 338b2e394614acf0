import Mathlib.Algebra.BigOperators.Group.Multiset.Basic

/-!
# Summaries of a multiset

An accumulator with an empty state, a way to add one element and a way to merge
two states is a summary when its states describe multisets: empty describes the
empty multiset, adding inserts one element, and merging adds multisets.

For a summary it does not matter in which order the elements were added, nor how they were
spread over several accumulators before merging (`record_eq`, `foldl_merge`).
-/

/-- `summary s` is the state of an accumulator that has seen the multiset `s`. -/
structure MultisetSummary {α σ : Type*} (empty : σ) (add : σ → α → σ) (merge : σ → σ → σ) where
  /-- The state that describes a multiset. -/
  summary : Multiset α → σ
  /-- The empty state describes the empty multiset. -/
  empty_eq : empty = summary 0
  /-- Adding inserts one element. -/
  add_eq : ∀ s x, add (summary s) x = summary (x ::ₘ s)
  /-- Merging adds multisets. -/
  merge_eq : ∀ s t, merge (summary s) (summary t) = summary (s + t)

namespace MultisetSummary

variable {α σ : Type*} {empty : σ} {add : σ → α → σ} {merge : σ → σ → σ}

theorem foldl_add (S : MultisetSummary empty add merge) :
    ∀ (xs : List α) (s : Multiset α), xs.foldl add (S.summary s) = S.summary (s + xs)
  | [], s => by simp
  | x :: xs, s => by
      rw [List.foldl_cons, S.add_eq, S.foldl_add xs, ← Multiset.cons_coe, Multiset.cons_add,
        Multiset.add_cons]

/-- An accumulator fed with a list describes the elements of the list. -/
theorem record_eq (S : MultisetSummary empty add merge) (xs : List α) :
    xs.foldl add empty = S.summary xs := by
  calc xs.foldl add empty = xs.foldl add (S.summary 0) := congrArg (xs.foldl add) S.empty_eq
    _ = S.summary xs := by rw [S.foldl_add, zero_add]

/-- Merging one accumulator per list gives the accumulator of all the lists. -/
theorem foldl_merge (S : MultisetSummary empty add merge) :
    ∀ (parts : List (List α)) (s : Multiset α),
      (parts.map (List.foldl add empty)).foldl merge (S.summary s) = S.summary (s + parts.flatten)
  | [], s => by simp
  | xs :: parts, s => by
      rw [List.map_cons, List.foldl_cons, S.record_eq, S.merge_eq, S.foldl_merge parts,
        List.flatten_cons, ← Multiset.coe_add, add_assoc]

end MultisetSummary
