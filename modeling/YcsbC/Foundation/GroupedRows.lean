import Mathlib.Data.List.AList
import Mathlib.Data.List.Induction
import Mathlib.Order.Lattice

/-!
# Rows grouped under three keys

Rows are grouped in association lists within association lists: those with the same first
key, of these those with the same second key, and of these the values of those with the
same third key, in the order of the rows.  What is found under keys is what filtering
the rows by them gives (`lookup₃_ofRows`).

Keys in ascending order are determined by which keys there are
(`mergeSort_eq_of_mem_iff`).
-/

variable {ρ α β γ δ : Type*}

/-- Values under three keys. -/
abbrev GroupedRows (α β γ δ : Type*) :=
  AList fun _ : α => AList fun _ : β => AList fun _ : γ => List δ

namespace GroupedRows

variable [DecidableEq α] [DecidableEq β] [DecidableEq γ] {t : GroupedRows α β γ δ}

/-- What is under the first and second key. -/
def lookup₂ (t : GroupedRows α β γ δ) (a : α) (b : β) : Option (AList fun _ : γ => List δ) :=
  (t.lookup a).bind fun t => t.lookup b

/-- The values under three keys. -/
def lookup₃ (t : GroupedRows α β γ δ) (a : α) (b : β) (c : γ) : Option (List δ) :=
  (t.lookup₂ a b).bind fun t => t.lookup c

/-- Appends to the values under three keys, which are added if they are not there. -/
def add (t : GroupedRows α β γ δ) (a : α) (b : β) (c : γ) (x : δ) : GroupedRows α β γ δ :=
  let second := (t.lookup a).getD ∅
  let third := (second.lookup b).getD ∅
  t.insert a (second.insert b (third.insert c ((third.lookup c).getD [] ++ [x])))

theorem mem_add {a a' : α} {b : β} {c : γ} {x : δ} : a' ∈ t.add a b c x ↔ a' = a ∨ a' ∈ t :=
  AList.mem_insert t

theorem lookup₂_add (a a' : α) (b b' : β) (c : γ) (x : δ) :
    (t.add a b c x).lookup₂ a' b' =
      if a' = a ∧ b' = b then
        some (((t.lookup₂ a b).getD ∅).insert c ((t.lookup₃ a b c).getD [] ++ [x]))
      else t.lookup₂ a' b' := by
  rw [lookup₂, add]
  by_cases ha : a' = a
  · subst ha
    rw [AList.lookup_insert, Option.bind_some]
    by_cases hb : b' = b
    · subst hb
      rw [AList.lookup_insert, if_pos ⟨rfl, rfl⟩, lookup₃, lookup₂]
      cases t.lookup a' with
      | none => rfl
      | some second => cases hsecond : second.lookup b' with
        | none | some third => simp [hsecond]
    · rw [AList.lookup_insert_ne hb, if_neg fun h => hb h.2, lookup₂]
      cases t.lookup a' with
      | none | some second => rfl
  · rw [AList.lookup_insert_ne ha, if_neg fun h => ha h.1, lookup₂]

theorem lookup₃_add (a a' : α) (b b' : β) (c c' : γ) (x : δ) :
    (t.add a b c x).lookup₃ a' b' c' =
      if a' = a ∧ b' = b ∧ c' = c then some ((t.lookup₃ a b c).getD [] ++ [x])
      else t.lookup₃ a' b' c' := by
  rw [lookup₃, lookup₂_add]
  by_cases hab : a' = a ∧ b' = b
  · obtain ⟨rfl, rfl⟩ := hab
    rw [if_pos ⟨rfl, rfl⟩, Option.bind_some]
    by_cases hc : c' = c
    · subst hc
      rw [AList.lookup_insert, if_pos ⟨rfl, rfl, rfl⟩]
    · rw [AList.lookup_insert_ne hc, if_neg fun h => hc h.2.2, lookup₃]
      cases t.lookup₂ a' b' with
      | none | some third => rfl
  · rw [if_neg hab, if_neg fun h => hab ⟨h.1, h.2.1⟩, lookup₃]

/-! ## All rows -/

variable (f : ρ → α) (g : ρ → β) (h : ρ → γ) (v : ρ → δ)

/-- The rows, grouped by their keys. -/
def ofRows (rows : List ρ) : GroupedRows α β γ δ :=
  rows.foldl (fun t row => t.add (f row) (g row) (h row) (v row)) ∅

/-- The values of the rows with these keys. -/
def group (rows : List ρ) (a : α) (b : β) (c : γ) : List δ :=
  (rows.filter fun row => a = f row ∧ b = g row ∧ c = h row).map v

theorem ofRows_concat (rows : List ρ) (row : ρ) :
    ofRows f g h v (rows ++ [row]) =
      (ofRows f g h v rows).add (f row) (g row) (h row) (v row) := by
  simp [ofRows]

theorem group_concat (rows : List ρ) (row : ρ) (a : α) (b : β) (c : γ) :
    group f g h v (rows ++ [row]) a b c =
      group f g h v rows a b c ++ if a = f row ∧ b = g row ∧ c = h row then [v row] else [] := by
  rw [group, group, List.filter_append, List.map_append]
  by_cases hkeys : a = f row ∧ b = g row ∧ c = h row
  · rw [if_pos hkeys, List.filter_cons_of_pos (by simpa using hkeys)]
    rfl
  · rw [if_neg hkeys, List.filter_cons_of_neg (by simpa using hkeys)]
    rfl

theorem mem_ofRows {rows : List ρ} {a : α} :
    a ∈ ofRows f g h v rows ↔ ∃ row ∈ rows, a = f row := by
  induction rows using List.reverseRecOn with
  | nil => simp [ofRows]
  | append_singleton rows row ih =>
      rw [ofRows_concat, mem_add, ih]
      simp [or_comm]

theorem isSome_lookup₂_ofRows (rows : List ρ) (a : α) (b : β) :
    ((ofRows f g h v rows).lookup₂ a b).isSome ↔ ∃ row ∈ rows, a = f row ∧ b = g row := by
  induction rows using List.reverseRecOn with
  | nil => simp [ofRows, lookup₂]
  | append_singleton rows row ih =>
      rw [ofRows_concat, lookup₂_add]
      split <;> simp_all

/-- Under three keys are the values of the rows with them, if there are any. -/
theorem lookup₃_ofRows (rows : List ρ) (a : α) (b : β) (c : γ) :
    (ofRows f g h v rows).lookup₃ a b c =
      if group f g h v rows a b c = [] then none else some (group f g h v rows a b c) := by
  induction rows using List.reverseRecOn generalizing a b c with
  | nil => rfl
  | append_singleton rows row ih =>
      rw [ofRows_concat, lookup₃_add, group_concat]
      by_cases hkeys : a = f row ∧ b = g row ∧ c = h row
      · obtain ⟨rfl, rfl, rfl⟩ := hkeys
        have hadds : (if f row = f row ∧ g row = g row ∧ h row = h row then [v row] else []) =
            [v row] := if_pos ⟨rfl, rfl, rfl⟩
        rw [hadds, if_pos ⟨rfl, rfl, rfl⟩, ih,
          if_neg (List.append_ne_nil_of_right_ne_nil _ (List.cons_ne_nil _ _))]
        split <;> simp_all
      · rw [if_neg hkeys, ih, if_neg hkeys, List.append_nil]

theorem group_perm {rows rows' : List ρ} (hperm : rows.Perm rows') (a : α) (b : β) (c : γ) :
    (group f g h v rows a b c).Perm (group f g h v rows' a b c) :=
  (hperm.filter _).map v

theorem group_ne_nil {rows : List ρ} {a : α} {b : β} {c : γ} :
    group f g h v rows a b c ≠ [] ↔ ∃ row ∈ rows, a = f row ∧ b = g row ∧ c = h row := by
  rw [group, ne_eq, List.map_eq_nil_iff, List.filter_eq_nil_iff]
  simp

end GroupedRows

/-! ## Keys in order -/

/-- Lists without duplicates are sorted to the same list if they have the same members. -/
theorem mergeSort_eq_of_mem_iff [LinearOrder α] {l l' : List α} (hl : l.Nodup) (hl' : l'.Nodup)
    (hmem : ∀ a, a ∈ l ↔ a ∈ l') : l.mergeSort (· ≤ ·) = l'.mergeSort (· ≤ ·) := by
  have hsorted : ∀ l : List α, (l.mergeSort (· ≤ ·)).Pairwise (· ≤ ·) := fun l => by
    simpa using @List.pairwise_mergeSort α (· ≤ ·) (by simpa using fun a b c => le_trans)
      (by simpa using le_total) l
  refine List.Perm.eq_of_pairwise (fun a b _ _ => le_antisymm) (hsorted l) (hsorted l') ?_
  exact (List.mergeSort_perm l _).trans
    (((List.perm_ext_iff_of_nodup hl hl').mpr hmem).trans (List.mergeSort_perm l' _).symm)
