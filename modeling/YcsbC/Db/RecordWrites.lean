import YcsbC.Db.RecordTables
import YcsbC.Foundation.WriteLog

/-!
# Field tables as logs of writes

A field table holds the last write to each of its fields (`Holds`).  Each loop of the
database over a list of pairs appends the pairs that take effect to the log: all pairs
of an `Update`, and the pairs of an `Insert` before the first whose field is there.
The lists name no field twice and their strings hold no NUL.
-/

namespace YcsbC

namespace HashtableDB

/-- A field table holds the last write to each field. -/
structure Holds (fieldTable : FieldHashtable) (log : WriteLog Str Str) : Prop where
  get : ∀ {field : Str}, NulFree field → fieldTable.get field = log.last field
  nulFree : ∀ write ∈ log, NulFree write.1

/-- The strings of a list of pairs hold no NUL. -/
def NulFreeValues (values : List KVPair) : Prop :=
  ∀ pair ∈ values, NulFree pair.1 ∧ NulFree pair.2

instance (values : List KVPair) : Decidable (NulFreeValues values) :=
  inferInstanceAs (Decidable (∀ pair ∈ values, _ ∧ _))

/-- The pairs of an `Insert` that take effect: those before the first whose field is
there. -/
def insertedPairs (log : WriteLog Str Str) (values : List KVPair) : List KVPair :=
  values.takeWhile fun pair => (log.last pair.1).isNone

theorem holds_empty : Holds .empty [] :=
  ⟨fun _ => StlHashtable.get_empty _, fun _ hmem => absurd hmem List.not_mem_nil⟩

theorem NulFreeValues.tail {pair : KVPair} {values : List KVPair}
    (h : NulFreeValues (pair :: values)) : NulFreeValues values :=
  fun pair' hmem => h pair' (List.mem_cons_of_mem _ hmem)

section Holds

variable {fieldTable : FieldHashtable} {log : WriteLog Str Str} {field str : Str}

/-- A table operation that sets one field appends a write. -/
theorem Holds.append (hholds : Holds fieldTable log) (hfield : NulFree field)
    {fieldTable' : FieldHashtable} (hself : fieldTable'.get field = some str)
    (hother : ∀ {field' : Str}, HashString.wrap field' ≠ .wrap field →
      fieldTable'.get field' = fieldTable.get field') :
    Holds fieldTable' (log ++ [(field, str)]) := by
  constructor
  · intro field' hfield'
    by_cases heq : field = field'
    · rw [← heq, hself, WriteLog.last_append_singleton_self]
    · rw [WriteLog.last_append_singleton_ne _ _ heq, ← hholds.get hfield']
      exact hother fun hwrap => heq ((HashString.wrap_inj hfield hfield').mp hwrap.symm)
  · intro write hmem
    rcases List.mem_append.mp hmem with hold | hnew
    · exact hholds.nulFree write hold
    · rw [List.mem_singleton.mp hnew]
      exact hfield

theorem Holds.insert (hholds : Holds fieldTable log) (str : Str) (hfield : NulFree field)
    (hlast : log.last field = none) :
    Holds (fieldTable.insert field str).2 (log ++ [(field, str)]) :=
  hholds.append hfield
    (StlHashtable.get_insert_self ((hholds.get hfield).trans hlast))
    StlHashtable.get_insert_ne

theorem Holds.update (hholds : Holds fieldTable log) (hfield : NulFree field) {old : Str}
    (hlast : log.last field = some old) :
    Holds (fieldTable.update field str).2 (log ++ [(field, str)]) :=
  hholds.append hfield
    (StlHashtable.get_update_self ((hholds.get hfield).trans hlast))
    StlHashtable.get_update_ne

end Holds

/-! ## Turns of the loops -/

section Turns

variable {fieldTable : FieldHashtable} {pair : KVPair} {values : List KVPair} {old : Str}

theorem insertFields_cons_of_none (hget : fieldTable.get pair.1 = none) :
    insertFields fieldTable (pair :: values) =
      insertFields (fieldTable.insert pair.1 (copyString pair.2)).2 values := by
  have hok : (fieldTable.insert pair.1 (copyString pair.2)).1 = true := by
    rw [StlHashtable.insert_fst, hget]
    rfl
  simp [insertFields, hok]

theorem insertFields_cons_of_some (hget : fieldTable.get pair.1 = some old) :
    insertFields fieldTable (pair :: values) = (kErrorConflict, fieldTable) := by
  simp [insertFields, StlHashtable.insert_of_get hget]

theorem updateFields_cons_of_none (hget : fieldTable.get pair.1 = none) :
    updateFields fieldTable (pair :: values) =
      updateFields (fieldTable.insert pair.1 (copyString pair.2)).2 values := by
  simp [updateFields, StlHashtable.update_of_get hget]

theorem updateFields_cons_of_some (hget : fieldTable.get pair.1 = some old) :
    updateFields fieldTable (pair :: values) =
      updateFields (fieldTable.update pair.1 (copyString pair.2)).2 values := by
  have hold : (fieldTable.update pair.1 (copyString pair.2)).1 = some old := by
    rw [StlHashtable.update_fst, hget]
  simp [updateFields, hold]

end Turns

/-! ## The loops -/

/-- The loop of `Insert` appends pairs until one conflicts. -/
theorem holds_insertFields {fieldTable : FieldHashtable} {log : WriteLog Str Str}
    {values : List KVPair} (hholds : Holds fieldTable log) (hvalues : NulFreeValues values)
    (hnodup : (values.map Prod.fst).Nodup) :
    Holds (insertFields fieldTable values).2 (log ++ insertedPairs log values) ∧
      ((insertFields fieldTable values).1 = kOK ↔
        ∀ pair ∈ values, log.last pair.1 = none) := by
  induction values generalizing fieldTable log with
  | nil => exact ⟨by rwa [insertedPairs, List.takeWhile_nil, List.append_nil], by simp [insertFields]⟩
  | cons pair values ih =>
      obtain ⟨field, str⟩ := pair
      obtain ⟨hfield, hstr⟩ := hvalues _ List.mem_cons_self
      rw [List.map_cons, List.nodup_cons] at hnodup
      have hcopy : copyString str = str := cStr_eq_self hstr
      cases hlast : log.last field with
      | none =>
          have hholds' := hholds.insert str hfield hlast
          have hget : fieldTable.get field = none := (hholds.get hfield).trans hlast
          have hsame : ∀ pair ∈ values,
              WriteLog.last (log ++ [(field, str)]) pair.1 = log.last pair.1 :=
            fun pair hmem => log.last_append_of_notMem str hnodup.1 hmem
          obtain ⟨hrest, hstatus⟩ := ih hholds' hvalues.tail hnodup.2
          have hloop : insertFields fieldTable ((field, str) :: values) =
              insertFields (fieldTable.insert field str).2 values := by
            rw [insertFields_cons_of_none hget, hcopy]
          have hinserted : insertedPairs log ((field, str) :: values) =
              (field, str) :: insertedPairs (log ++ [(field, str)]) values := by
            rw [insertedPairs, List.takeWhile_cons_of_pos (by rw [hlast]; rfl), insertedPairs]
            refine congrArg _ (List.takeWhile_congr_of_mem fun pair hmem => ?_)
            rw [hsame pair hmem]
          rw [hloop, hinserted]
          constructor
          · rwa [List.append_assoc, List.singleton_append] at hrest
          · rw [hstatus, List.forall_mem_cons]
            exact ⟨fun h => ⟨hlast, fun pair hmem => hsame pair hmem ▸ h pair hmem⟩,
              fun h pair hmem => (hsame pair hmem).trans (h.2 pair hmem)⟩
      | some old =>
          have hget : fieldTable.get field = some old := (hholds.get hfield).trans hlast
          have hloop : insertFields fieldTable ((field, str) :: values) =
              (kErrorConflict, fieldTable) := insertFields_cons_of_some hget
          have hinserted : insertedPairs log ((field, str) :: values) = [] := by
            rw [insertedPairs, List.takeWhile_cons_of_neg (by rw [hlast]; exact Bool.false_ne_true)]
          rw [hloop, hinserted, List.append_nil]
          have hne : kErrorConflict ≠ kOK := by decide
          refine ⟨hholds, ⟨fun hconflict => absurd hconflict hne, fun h => ?_⟩⟩
          have hnone := h _ List.mem_cons_self
          rw [hlast] at hnone
          cases hnone

/-- The loop of `Update` on a new field table appends all pairs. -/
theorem holds_updateNewFields {fieldTable : FieldHashtable} {log : WriteLog Str Str}
    {values : List KVPair} (hholds : Holds fieldTable log) (hvalues : NulFreeValues values)
    (hnodup : (values.map Prod.fst).Nodup) (hnew : ∀ pair ∈ values, log.last pair.1 = none) :
    Holds (updateNewFields fieldTable values) (log ++ values) := by
  induction values generalizing fieldTable log with
  | nil => rwa [List.append_nil]
  | cons pair values ih =>
      obtain ⟨field, str⟩ := pair
      obtain ⟨hfield, hstr⟩ := hvalues _ List.mem_cons_self
      rw [List.map_cons, List.nodup_cons] at hnodup
      have hcopy : copyString str = str := cStr_eq_self hstr
      have hholds' := hholds.insert str hfield (hnew _ List.mem_cons_self)
      have hrest := ih hholds' hvalues.tail hnodup.2 fun pair hmem =>
        (log.last_append_of_notMem str hnodup.1 hmem).trans
          (hnew pair (List.mem_cons_of_mem _ hmem))
      rw [updateNewFields, hcopy]
      rwa [List.append_assoc, List.singleton_append] at hrest

/-- The loop of `Update` on a field table that was there appends all pairs. -/
theorem holds_updateFields {fieldTable : FieldHashtable} {log : WriteLog Str Str}
    {values : List KVPair} (hholds : Holds fieldTable log) (hvalues : NulFreeValues values) :
    Holds (updateFields fieldTable values) (log ++ values) := by
  induction values generalizing fieldTable log with
  | nil => rwa [List.append_nil]
  | cons pair values ih =>
      obtain ⟨field, str⟩ := pair
      obtain ⟨hfield, hstr⟩ := hvalues _ List.mem_cons_self
      have hcopy : copyString str = str := cStr_eq_self hstr
      have hget : fieldTable.get field = log.last field := hholds.get hfield
      rw [← List.singleton_append (l := values), ← List.append_assoc]
      cases hlast : log.last field with
      | none =>
          rw [List.singleton_append, updateFields_cons_of_none (hget.trans hlast), hcopy]
          exact ih (hholds.insert str hfield hlast) hvalues.tail
      | some old =>
          rw [List.singleton_append, updateFields_cons_of_some (hget.trans hlast), hcopy]
          exact ih (hholds.update hfield hlast) hvalues.tail

/-! ## Reading -/

/-- Reading all fields lists each field once, with its last write. -/
theorem Holds.readFields_none {fieldTable : FieldHashtable} {log : WriteLog Str Str}
    (hholds : Holds fieldTable log) (order : IterationOrder) :
    ((readFields order fieldTable none).map Prod.fst).Nodup ∧
      ∀ field value, (field, value) ∈ readFields order fieldTable none ↔
        log.last field = some value := by
  refine ⟨StlHashtable.nodup_keys_entries fieldTable order, fun field value => ?_⟩
  rw [readFields, StlHashtable.mem_entries]
  constructor
  · rintro ⟨hfield, hget⟩
    rw [← hget, hholds.get hfield]
  · intro hlast
    have hfield := hholds.nulFree _ (WriteLog.mem_of_last_eq_some hlast)
    exact ⟨hfield, (hholds.get hfield).trans hlast⟩

/-- Reading some fields lists those that are there, in the order asked. -/
theorem Holds.readFields_some {fieldTable : FieldHashtable} {log : WriteLog Str Str}
    (hholds : Holds fieldTable log) (order : IterationOrder) {fields : List Str}
    (hfields : ∀ field ∈ fields, NulFree field) :
    readFields order fieldTable (some fields) =
      fields.filterMap fun field => (log.last field).map fun value => (field, value) :=
  List.filterMap_congr fun field hmem => by rw [hholds.get (hfields field hmem)]

end HashtableDB

end YcsbC
