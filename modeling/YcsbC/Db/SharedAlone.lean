import YcsbC.Db.RecordTables
import YcsbC.Db.SharedDB

/-!
# Calls that run alone

When no steps of other clients come in between, the steps of a call do what the function
of `HashtableDB` does as a whole.
-/

namespace YcsbC

open HashtableDB

/-! ## `Insert` and `Update` -/

namespace WriteCall

/-- The machine of one call without others. -/
def alone (call : WriteCall) : Machine (HashtableDB × WritePc) Unit where
  step s _ := (call.step s.1 s.2).map fun step => (step.db, step.pc)

/-- The function that is called. -/
def apply (call : WriteCall) (db : HashtableDB) : Option (ℤ × HashtableDB) :=
  match call.op with
  | .insert => db.insert call.table call.key call.values
  | .update => db.update call.table call.key call.values

variable {call : WriteCall} {db : HashtableDB} {handle : Handle} {fields : FieldHashtable}

theorem reaches_of_step {pc : WritePc} {step : WriteStep} {s' : HashtableDB × WritePc}
    (hstep : call.step db pc = some step) (hrest : call.alone.Reaches (step.db, step.pc) s') :
    call.alone.Reaches (db, pc) s' :=
  .head (e := ()) (congrArg (Option.map _) hstep) hrest

section Steps

variable {pc next other : WritePc} {pair : KVPair} {s' : HashtableDB × WritePc}
  (hfields : db.fieldTable handle = some fields)

include hfields

theorem reaches_of_insertStep (hpc : call.step db pc = insertStep db handle pair next other)
    (hrest : call.alone.Reaches
      (db.setFieldTable handle (fields.insert pair.1 (copyString pair.2)).2,
        if (fields.insert pair.1 (copyString pair.2)).1 then next else other) s') :
    call.alone.Reaches (db, pc) s' := by
  rw [insertStep, hfields] at hpc
  exact reaches_of_step hpc hrest

theorem reaches_of_updateStep (hpc : call.step db pc = updateStep db handle pair next other)
    (hrest : call.alone.Reaches
      (db.setFieldTable handle (fields.update pair.1 (copyString pair.2)).2,
        if (fields.update pair.1 (copyString pair.2)).1.isSome then next else other) s') :
    call.alone.Reaches (db, pc) s' := by
  rw [updateStep, hfields] at hpc
  exact reaches_of_step hpc hrest

end Steps

/-- The loop of `Insert`. -/
theorem reaches_insertField (values : List KVPair) (hfields : db.fieldTable handle = some fields) :
    call.alone.Reaches (db, .insertField handle values)
      (db.setFieldTable handle (insertFields fields values).2,
        .done (insertFields fields values).1) := by
  induction values generalizing db fields with
  | nil =>
      rw [insertFields, setFieldTable_self hfields]
      exact reaches_of_step rfl (.refl _ _)
  | cons pair values ih =>
      obtain ⟨field, str⟩ := pair
      refine reaches_of_insertStep hfields rfl ?_
      have hrest := ih (fieldTable_setFieldTable
        (fields.insert field (copyString str)).2 hfields)
      rw [insertFields]
      cases hok : (fields.insert field (copyString str)).1 with
      | true => simpa only [hok, Bool.not_true, Bool.false_eq_true, if_false, if_true,
          setFieldTable_setFieldTable] using hrest
      | false =>
          simp only [hok, Bool.not_false, Bool.false_eq_true, if_false, if_true]
          exact .refl _ _

/-- The loop of `Update` on a new field table. -/
theorem reaches_updateNewField (values : List KVPair)
    (hfields : db.fieldTable handle = some fields) :
    call.alone.Reaches (db, .updateNewField handle values)
      (db.setFieldTable handle (updateNewFields fields values), .done kOK) := by
  induction values generalizing db fields with
  | nil =>
      rw [updateNewFields, setFieldTable_self hfields]
      exact reaches_of_step rfl (.refl _ _)
  | cons pair values ih =>
      obtain ⟨field, str⟩ := pair
      refine reaches_of_insertStep hfields rfl ?_
      have hrest := ih (fieldTable_setFieldTable
        (fields.insert field (copyString str)).2 hfields)
      rw [updateNewFields, ite_self]
      rwa [setFieldTable_setFieldTable] at hrest

/-- The loop of `Update` on a field table that was there. -/
theorem reaches_updateField (values : List KVPair) (hfields : db.fieldTable handle = some fields) :
    call.alone.Reaches (db, .updateField handle values)
      (db.setFieldTable handle (updateFields fields values), .done kOK) := by
  induction values generalizing db fields with
  | nil =>
      rw [updateFields, setFieldTable_self hfields]
      exact reaches_of_step rfl (.refl _ _)
  | cons pair values ih =>
      obtain ⟨field, str⟩ := pair
      refine reaches_of_updateStep hfields rfl ?_
      have hfields' := fieldTable_setFieldTable (fields.update field (copyString str)).2 hfields
      rw [updateFields]
      cases hold : (fields.update field (copyString str)).1 with
      | some old =>
          have hrest := ih hfields'
          simpa only [hold, Option.isSome_some, if_true, setFieldTable_setFieldTable] using hrest
      | none =>
          -- the field is missing, and `Insert` comes next
          simp only [hold, Option.isSome_none, Bool.false_eq_true, if_false]
          refine reaches_of_insertStep hfields' rfl ?_
          have hrest := ih (fieldTable_setFieldTable
            ((fields.update field (copyString str)).2.insert field (copyString str)).2 hfields')
          rw [ite_self]
          simpa only [setFieldTable_setFieldTable] using hrest

/-- A call whose record is not there publishes a field table first. -/
theorem reaches_of_absent {pc : WritePc} {s' : HashtableDB × WritePc} (hget : db.keyTable.get call.index = none)
    (hpublish : call.step db .publish = some ⟨db.publish call.index, none, pc⟩)
    (hrest : call.alone.Reaches (db.publish call.index, pc) s') :
    call.alone.Reaches (db, .get) s' := by
  have hstep : call.step db .get = some ⟨db, none, .publish⟩ := by rw [WriteCall.step, hget]
  exact reaches_of_step hstep (reaches_of_step hpublish hrest)

/-- A call that runs alone returns what its function returns, and leaves the database
that it leaves. -/
theorem reaches_apply {db' : HashtableDB} {status : ℤ} (happly : call.apply db = some (status, db')) :
    call.alone.Reaches (db, .get) (db', .done status) := by
  cases hop : call.op with
  | insert =>
      rw [apply, hop, HashtableDB.insert] at happly
      cases hget : db.keyTable.get call.index with
      | none =>
          rw [show db.keyTable.get (call.table ++ call.key) = none from hget] at happly
          obtain ⟨fields, hfields, hdb'⟩ := Option.map_eq_some_iff.mp happly
          cases hdb'
          exact reaches_of_absent hget (by rw [WriteCall.step, hop]; rfl)
            (reaches_insertField call.values hfields)
      | some handle =>
          rw [show db.keyTable.get (call.table ++ call.key) = some handle from hget] at happly
          obtain ⟨fields, hfields, hdb'⟩ := Option.map_eq_some_iff.mp happly
          cases hdb'
          exact reaches_of_step (by rw [WriteCall.step, hget, hop])
            (reaches_insertField call.values hfields)
  | update =>
      rw [apply, hop, HashtableDB.update] at happly
      cases hget : db.keyTable.get call.index with
      | none =>
          rw [show db.keyTable.get (call.table ++ call.key) = none from hget] at happly
          obtain ⟨fields, hfields, hdb'⟩ := Option.map_eq_some_iff.mp happly
          cases hdb'
          exact reaches_of_absent hget (by rw [WriteCall.step, hop]; rfl)
            (reaches_updateNewField call.values hfields)
      | some handle =>
          rw [show db.keyTable.get (call.table ++ call.key) = some handle from hget] at happly
          obtain ⟨fields, hfields, hdb'⟩ := Option.map_eq_some_iff.mp happly
          cases hdb'
          exact reaches_of_step (by rw [WriteCall.step, hget, hop])
            (reaches_updateField call.values hfields)

end WriteCall

/-! ## `Read` -/

namespace ReadCall

variable {call : ReadCall} {db : HashtableDB} {handle : Handle} {fieldTable : FieldHashtable}

/-- The machine of one call on a database that does not change. -/
def alone (call : ReadCall) (db : HashtableDB) : Machine ReadPc Unit where
  step pc _ := call.step db pc

/-- The loop of `Read` over the fields asked for. -/
theorem reaches_getField (hfields : db.fieldTable handle = some fieldTable) (fields : List Str)
    (result : List KVPair) :
    (call.alone db).Reaches (.getField handle fields result)
      (.done kOK (result ++ readFields call.order fieldTable (some fields))) := by
  induction fields generalizing result with
  | nil =>
      rw [readFields, List.filterMap_nil, List.append_nil]
      exact .head (e := ()) rfl (.refl _ _)
  | cons field fields ih =>
      cases hget : fieldTable.get field with
      | none =>
          have hstep : call.step db (.getField handle (field :: fields) result) =
              some (.getField handle fields result) := by
            simp only [ReadCall.step, hfields, Option.map_some, hget]
          rw [readFields, List.filterMap_cons_none (by rw [hget]; rfl)]
          exact .head (e := ()) hstep (ih result)
      | some value =>
          have hstep : call.step db (.getField handle (field :: fields) result) =
              some (.getField handle fields (result ++ [(field, value)])) := by
            simp only [ReadCall.step, hfields, Option.map_some, hget]
          have hrest := ih (result ++ [(field, value)])
          rw [List.append_assoc, List.singleton_append] at hrest
          rw [readFields, List.filterMap_cons_some (by rw [hget]; rfl)]
          exact .head (e := ()) hstep hrest

/-- A call that runs alone returns what `Read` returns. -/
theorem reaches_read {status : ℤ} {result : List KVPair}
    (hread : db.read call.order call.table call.key call.fields [] = some (status, result)) :
    (call.alone db).Reaches .get (.done status result) := by
  rw [HashtableDB.read] at hread
  cases hget : db.keyTable.get call.index with
  | none =>
      rw [show db.keyTable.get (call.table ++ call.key) = none from hget] at hread
      cases hread
      refine .head (e := ()) ?_ (.refl _ _)
      change call.step db .get = _
      rw [ReadCall.step, hget]
  | some handle =>
      rw [show db.keyTable.get (call.table ++ call.key) = some handle from hget] at hread
      obtain ⟨fieldTable, hfields, hresult⟩ := Option.map_eq_some_iff.mp hread
      cases hresult
      cases hasked : call.fields with
      | none =>
          have hstep : call.step db .get = some (.entries handle) := by
            rw [ReadCall.step, hget, hasked]
          have hstep' : call.step db (.entries handle) =
              some (.done kOK (fieldTable.entries call.order none none)) := by
            rw [ReadCall.step, hfields]
            rfl
          exact .head (e := ()) hstep (.head (e := ()) hstep' (.refl _ _))
      | some fields =>
          have hstep : call.step db .get = some (.getField handle fields []) := by
            rw [ReadCall.step, hget, hasked]
          exact .head (e := ()) hstep (reaches_getField hfields fields [])

end ReadCall

end YcsbC
