import Mathlib.Data.List.Induction

/-!
# Write logs

A log lists the writes to the fields of a record, the oldest first.  The last write to
a field gives its value.
-/

theorem List.takeWhile_congr_of_mem {α : Type*} {p q : α → Bool} {l : List α}
    (h : ∀ a ∈ l, p a = q a) : l.takeWhile p = l.takeWhile q := by
  induction l with
  | nil => rfl
  | cons a l ih =>
      rw [takeWhile_cons, takeWhile_cons, h a mem_cons_self,
        ih fun b hb => h b (mem_cons_of_mem a hb)]

/-- Writes to fields, the oldest first. -/
abbrev WriteLog (α β : Type*) := List (α × β)

namespace WriteLog

variable {α β : Type*} [DecidableEq α]

/-- The value of the last write to a field. -/
def last (log : WriteLog α β) (field : α) : Option β :=
  log.foldl (fun value write => if write.1 = field then some write.2 else value) none

@[simp] theorem last_nil (field : α) : last ([] : WriteLog α β) field = none := rfl

theorem last_append_singleton (log : WriteLog α β) (write : α × β) (field : α) :
    last (log ++ [write]) field = if write.1 = field then some write.2 else last log field := by
  rw [last, List.foldl_append]
  rfl

theorem last_append_singleton_self (log : WriteLog α β) (field : α) (value : β) :
    last (log ++ [(field, value)]) field = some value := by
  rw [last_append_singleton, if_pos rfl]

theorem last_append_singleton_ne (log : WriteLog α β) {field field' : α} (value : β)
    (hne : field' ≠ field) : last (log ++ [(field', value)]) field = last log field := by
  rw [last_append_singleton, if_neg hne]

/-- Later writes count first. -/
theorem last_append (log log' : WriteLog α β) (field : α) :
    last (log ++ log') field = (last log' field).or (last log field) := by
  induction log' using List.reverseRecOn with
  | nil => rw [List.append_nil, last_nil, Option.none_or]
  | append_singleton log' write ih =>
      rw [← List.append_assoc, last_append_singleton, last_append_singleton]
      split
      · rfl
      · exact ih

/-- A write does not change the values of the fields in a list that does not name its
field. -/
theorem last_append_of_notMem (log : WriteLog α β) {field : α} (value : β) {writes : WriteLog α β}
    (hfield : field ∉ writes.map Prod.fst) {write : α × β} (hmem : write ∈ writes) :
    last (log ++ [(field, value)]) write.1 = last log write.1 := by
  refine last_append_singleton_ne _ _ ?_
  rintro rfl
  exact hfield (List.mem_map_of_mem hmem)

/-- Only the fields written have a value. -/
theorem mem_of_last_eq_some {log : WriteLog α β} {field : α} {value : β}
    (hlast : last log field = some value) : (field, value) ∈ log := by
  induction log using List.reverseRecOn with
  | nil => cases hlast
  | append_singleton log write ih =>
      rw [last_append_singleton] at hlast
      split at hlast
      · rename_i hfield
        cases hlast
        rw [← hfield]
        exact List.mem_append_right _ List.mem_cons_self
      · exact List.mem_append_left _ (ih hlast)

/-- A field that is written has a value. -/
theorem isSome_last {log : WriteLog α β} {field : α} :
    (last log field).isSome ↔ field ∈ log.map Prod.fst := by
  induction log using List.reverseRecOn with
  | nil => simp
  | append_singleton log write ih =>
      rw [last_append_singleton, List.map_append, List.mem_append, ← ih]
      split
      · rename_i hfield
        simp [hfield]
      · rename_i hfield
        simp [Ne.symm hfield]

end WriteLog
