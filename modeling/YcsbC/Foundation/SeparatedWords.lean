import Mathlib.Data.List.Basic

/-!
# Words and separators

A text is made of words by writing a separator after each of them.  Splitting it at the
separator gives the words back, if it is in none of them, and what stands after the last
separator (`splitOn_separated`).  So it does if a separator is written between them
(`splitOn_joined`).
-/

variable {α β : Type*}

/-- The words, a separator after each. -/
def separated (sep : α) (words : List (List α)) : List α := words.flatMap fun word => word ++ [sep]

@[simp] theorem separated_nil (sep : α) : separated sep [] = [] := rfl

@[simp] theorem separated_cons (sep : α) (word : List α) (words : List (List α)) :
    separated sep (word :: words) = word ++ sep :: separated sep words := by
  simp [separated]

@[simp] theorem separated_append (sep : α) (words words' : List (List α)) :
    separated sep (words ++ words') = separated sep words ++ separated sep words' := by
  simp [separated]

theorem separated_map (sep : α) (f : β → List α) (xs : List β) :
    separated sep (xs.map f) = xs.flatMap fun x => f x ++ [sep] :=
  List.flatMap_map ..

theorem mem_separated {sep a : α} {words : List (List α)} :
    a ∈ separated sep words ↔ ∃ word ∈ words, a ∈ word ∨ a = sep := by
  simp [separated]

/-- Splitting gives the words back. -/
theorem splitOn_separated [BEq α] [LawfulBEq α] {sep : α} {words : List (List α)}
    {last : List α} (hwords : ∀ word ∈ words, sep ∉ word) (hlast : sep ∉ last) :
    (separated sep words ++ last).splitOn sep = words ++ [last] := by
  induction words with
  | nil => exact List.splitOn_eq_singleton hlast
  | cons word words ih =>
      rw [separated_cons, List.append_assoc, List.cons_append,
        List.splitOn_append_cons_self_of_not_mem (hwords word List.mem_cons_self),
        ih fun other hmem => hwords other (List.mem_cons_of_mem _ hmem), List.cons_append]

/-- The words, a separator before each but the first. -/
def joined (sep : α) (word : List α) (words : List (List α)) : List α :=
  words.foldl (fun text word => text ++ sep :: word) word

theorem notMem_joined {sep a : α} {word : List α} {words : List (List α)} (hsep : a ≠ sep)
    (hword : a ∉ word) (hwords : ∀ word ∈ words, a ∉ word) : a ∉ joined sep word words := by
  induction words generalizing word with
  | nil => exact hword
  | cons next words ih =>
      rw [List.forall_mem_cons] at hwords
      exact ih (by simp [hword, hsep, hwords.1]) hwords.2

theorem splitOn_joined [BEq α] [LawfulBEq α] {sep : α} {word : List α} {words : List (List α)}
    (hword : sep ∉ word) (hwords : ∀ word ∈ words, sep ∉ word) :
    (joined sep word words).splitOn sep = word :: words := by
  suffices hsplit : ∀ text, (joined sep text words).splitOn sep = text.splitOn sep ++ words by
    rw [hsplit, List.splitOn_eq_singleton hword, List.singleton_append]
  induction words with
  | nil => exact fun text => (List.append_nil _).symm
  | cons next words ih =>
      rw [List.forall_mem_cons] at hwords
      intro text
      change (joined sep (text ++ sep :: next) words).splitOn sep = _
      rw [ih hwords.2, List.splitOn_append_cons_self, List.splitOn_eq_singleton hwords.1,
        List.append_assoc, List.singleton_append]

/-- What a text is split into is without the separator, and of the text. -/
theorem mem_splitOn [BEq α] [LawfulBEq α] {sep : α} {text word : List α}
    (hword : word ∈ text.splitOn sep) : sep ∉ word ∧ ∀ a ∈ word, a ∈ text := by
  induction text generalizing word with
  | nil =>
      rw [List.splitOn_nil, List.mem_singleton] at hword
      simp [hword]
  | cons b text ih =>
      rw [List.splitOn_cons_eq_if_modifyHead] at hword
      split at hword
      · rcases List.mem_cons.mp hword with rfl | hword
        · simp
        · exact ⟨(ih hword).1, fun a ha => List.mem_cons_of_mem b ((ih hword).2 a ha)⟩
      · rename_i hb
        cases hsplit : text.splitOn sep with
        | nil => exact absurd hsplit (List.splitOn_ne_nil _ _)
        | cons first rest =>
            rw [hsplit, List.modifyHead_cons, List.mem_cons] at hword
            rw [hsplit] at ih
            rcases hword with rfl | hword
            · obtain ⟨hsep, hsub⟩ := ih List.mem_cons_self
              have hne : sep ≠ b := fun heq => hb (beq_iff_eq.mpr heq.symm)
              refine ⟨by simp [hne, hsep], fun a ha => ?_⟩
              rcases List.mem_cons.mp ha with rfl | ha
              · exact List.mem_cons_self
              · exact List.mem_cons_of_mem b (hsub a ha)
            · obtain ⟨hsep, hsub⟩ := ih (List.mem_cons_of_mem _ hword)
              exact ⟨hsep, fun a ha => List.mem_cons_of_mem b (hsub a ha)⟩
