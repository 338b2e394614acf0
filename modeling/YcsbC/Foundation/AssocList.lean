import Mathlib.Data.List.AList

/-!
# Association lists

What `lookup` finds after a value is replaced in place, and what the entries of an
association list say about it, in whatever order they are listed.
-/

namespace List

variable {α : Type*} {β : α → Type*} [DecidableEq α]

theorem dlookup_kreplace_self {a : α} {b : β a} {l : List (Sigma β)} (hmem : a ∈ l.keys) :
    (l.kreplace a b).dlookup a = some b := by
  induction l with
  | nil => cases hmem
  | cons s l ih =>
      by_cases hs : a = s.1
      · rw [kreplace, lookmap_cons_some _ l (if_pos hs), dlookup_cons_eq]
      · rw [kreplace, lookmap_cons_none _ l (if_neg hs), dlookup_cons_ne _ _ hs]
        rw [keys_cons, mem_cons] at hmem
        exact ih (hmem.resolve_left hs)

theorem dlookup_kreplace_ne {a a' : α} {b : β a'} {l : List (Sigma β)} (hne : a ≠ a') :
    (l.kreplace a' b).dlookup a = l.dlookup a := by
  induction l with
  | nil => rfl
  | cons s l ih =>
      by_cases hs : a' = s.1
      · rw [kreplace, lookmap_cons_some _ l (if_pos hs), dlookup_cons_ne _ _ hne,
          dlookup_cons_ne _ _ (hs ▸ hne)]
      · rw [kreplace, lookmap_cons_none _ l (if_neg hs)]
        by_cases ha : a = s.1
        · subst ha
          rw [dlookup_cons_eq, dlookup_cons_eq]
        · rw [dlookup_cons_ne _ _ ha, dlookup_cons_ne _ _ ha]
          exact ih

end List

namespace AList

variable {α : Type*} {β : α → Type*} [DecidableEq α]

theorem lookup_replace_self {a : α} {b : β a} {t : AList β} (hmem : a ∈ t) :
    (t.replace a b).lookup a = some b :=
  List.dlookup_kreplace_self hmem

theorem lookup_replace_ne {a a' : α} {b : β a'} {t : AList β} (hne : a ≠ a') :
    (t.replace a' b).lookup a = t.lookup a :=
  List.dlookup_kreplace_ne hne

/-- Listing the entries in another order does not change what is found in them. -/
theorem mem_perm_entries {t : AList β} {l : List (Sigma β)} (hperm : l.Perm t.entries) {a : α}
    {b : β a} : ⟨a, b⟩ ∈ l ↔ t.lookup a = some b := by
  rw [hperm.mem_iff]
  exact (List.mem_dlookup_iff t.nodupKeys).symm

omit [DecidableEq α] in
theorem nodup_keys_of_perm_entries {t : AList β} {l : List (Sigma β)}
    (hperm : l.Perm t.entries) : l.keys.Nodup :=
  (hperm.map Sigma.fst).nodup_iff.mpr t.nodupKeys

end AList
