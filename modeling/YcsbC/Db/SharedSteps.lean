import YcsbC.Db.SharedDB

/-!
# What a step of a shared database does

A step of `Insert` or `Update` on a published field table writes at most one field, and
nothing else about the database changes (`WriteEffect`).
-/

namespace YcsbC

open HashtableDB

/-- The value of a field of the record of an index. -/
def HashtableDB.fieldValue (db : HashtableDB) (index field : Str) : Option Str :=
  (db.recordTable index).bind fun fieldTable => fieldTable.get field

/-- Handles stay published, and only the pair that was written changes. -/
structure WriteEffect (db : HashtableDB) (index : Str) (wrote : Option KVPair)
    (db' : HashtableDB) : Prop where
  wellFormed : db'.WellFormed
  published : ∀ {i : Str} {handle : Handle}, db.keyTable.get i = some handle →
    db'.keyTable.get i = some handle
  fieldValue : ∀ {i field : Str}, NulFree i → NulFree field → db'.fieldValue i field =
    match wrote with
    | none => db.fieldValue i field
    | some pair => if (index, pair.1) = (i, field) then some pair.2 else db.fieldValue i field

namespace HashtableDB

section

variable {db : HashtableDB} {index : Str} {handle : Handle}

theorem fieldValue_of_recordTable {fieldTable : FieldHashtable}
    (hrecord : db.recordTable index = some fieldTable) (field : Str) :
    db.fieldValue index field = fieldTable.get field := by
  rw [fieldValue, hrecord, Option.bind_some]

theorem WellFormed.writeEffect_refl (hdb : db.WellFormed) (index : Str) :
    WriteEffect db index none db :=
  ⟨hdb, id, fun _ _ => rfl⟩

/-- A new field table is empty. -/
theorem WellFormed.writeEffect_publish (hdb : db.WellFormed) (hindex : NulFree index)
    (hget : db.keyTable.get index = none) : WriteEffect db index none (db.publish index) := by
  obtain ⟨hsets, -⟩ := sets_publish hdb hget
  refine ⟨hsets.wellFormed, fun {i handle} hhandle => ?_, fun {i field} hi _ => ?_⟩
  · by_cases hwrap : HashString.wrap i = .wrap index
    · rw [StlHashtable.get, hwrap, ← StlHashtable.get, hget] at hhandle
      cases hhandle
    · exact (StlHashtable.get_insert_ne hwrap).trans hhandle
  · by_cases heq : i = index
    · rw [heq, fieldValue_of_recordTable hsets.self, StlHashtable.get_empty, fieldValue,
        recordTable_of_none hget, Option.bind_none]
    · rw [fieldValue, hsets.other_of_ne hindex hi heq, fieldValue]

/-- Setting one field, or none, of a published field table. -/
theorem WellFormed.writeEffect_setFieldTable (hdb : db.WellFormed) (hindex : NulFree index)
    (hget : db.keyTable.get index = some handle) {fieldTable : FieldHashtable}
    {wrote : Option KVPair}
    (hfields : ∀ {field : Str}, NulFree field → fieldTable.get field =
      match wrote with
      | none => db.fieldValue index field
      | some pair => if pair.1 = field then some pair.2 else db.fieldValue index field) :
    WriteEffect db index wrote (db.setFieldTable handle fieldTable) := by
  have hsets := sets_setFieldTable hdb hget fieldTable
  refine ⟨hsets.wellFormed, id, fun {i field} hi hfield => ?_⟩
  by_cases heq : i = index
  · rw [heq, fieldValue_of_recordTable hsets.self, hfields hfield]
    cases wrote with
    | none => rfl
    | some pair => simp only [Prod.mk.injEq, true_and]
  · have hne : ∀ pair : KVPair, (index, pair.1) ≠ (i, field) :=
      fun pair hpair => heq (congrArg Prod.fst hpair).symm
    rw [fieldValue, hsets.other_of_ne hindex hi heq, ← fieldValue]
    cases wrote with
    | none => rfl
    | some pair => exact (if_neg (hne pair)).symm

end

end HashtableDB

/-! ## Steps on a published field table -/

section Steps

variable {db : HashtableDB} (hdb : db.WellFormed) {index : Str} (hindex : NulFree index)
  {handle : Handle} (hget : db.keyTable.get index = some handle) {pair : KVPair}
  (hpair : NulFree pair.1 ∧ NulFree pair.2) {next other : WritePc} {step : WriteStep}

include hdb hindex hget hpair

/-- `Insert` writes a pair whose field has no value, and nothing otherwise. -/
theorem insertStep_spec (hstep : insertStep db handle pair next other = some step) :
    WriteEffect db index step.wrote step.db ∧
      ((db.fieldValue index pair.1 = none ∧ step.wrote = some pair ∧ step.pc = next) ∨
        (db.fieldValue index pair.1 ≠ none ∧ step.wrote = none ∧ step.pc = other)) := by
  obtain ⟨fieldTable, hfields, hrecord⟩ := exists_recordTable hdb hget
  have hvalue := fieldValue_of_recordTable hrecord
  rw [insertStep, hfields, copyString, cStr_eq_self hpair.2] at hstep
  cases hstep
  dsimp only
  cases hfield : fieldTable.get pair.1 with
  | none =>
      have hok : (fieldTable.insert pair.1 pair.2).1 = true := by
        rw [StlHashtable.insert_fst, hfield]
        rfl
      simp only [hok, if_true]
      refine ⟨hdb.writeEffect_setFieldTable hindex hget fun {field} hfree => ?_,
        Or.inl ⟨(hvalue _).trans hfield, trivial, trivial⟩⟩
      dsimp only
      split
      · rename_i heq
        rw [← heq, StlHashtable.get_insert_self hfield]
      · rename_i hne
        rw [hvalue]
        exact StlHashtable.get_insert_ne fun hwrap =>
          hne ((HashString.wrap_inj hfree hpair.1).mp hwrap).symm
  | some old =>
      rw [StlHashtable.insert_of_get hfield]
      refine ⟨hdb.writeEffect_setFieldTable hindex hget fun _ => (hvalue _).symm,
        Or.inr ⟨?_, rfl, rfl⟩⟩
      rw [hvalue, hfield]
      exact Option.some_ne_none old

/-- `Update` writes a pair whose field has a value, and nothing otherwise. -/
theorem updateStep_spec (hstep : updateStep db handle pair next other = some step) :
    WriteEffect db index step.wrote step.db ∧
      ((db.fieldValue index pair.1 ≠ none ∧ step.wrote = some pair ∧ step.pc = next) ∨
        (db.fieldValue index pair.1 = none ∧ step.wrote = none ∧ step.pc = other)) := by
  obtain ⟨fieldTable, hfields, hrecord⟩ := exists_recordTable hdb hget
  have hvalue := fieldValue_of_recordTable hrecord
  rw [updateStep, hfields, copyString, cStr_eq_self hpair.2] at hstep
  cases hstep
  dsimp only
  cases hfield : fieldTable.get pair.1 with
  | none =>
      rw [StlHashtable.update_of_get hfield]
      exact ⟨hdb.writeEffect_setFieldTable hindex hget fun _ => (hvalue _).symm,
        Or.inr ⟨(hvalue _).trans hfield, rfl, rfl⟩⟩
  | some old =>
      have hold : (fieldTable.update pair.1 pair.2).1.isSome = true := by
        rw [StlHashtable.update_fst, hfield]
        rfl
      simp only [hold, if_true]
      refine ⟨hdb.writeEffect_setFieldTable hindex hget fun {field} hfree => ?_,
        Or.inl ⟨?_, trivial, trivial⟩⟩
      · dsimp only
        split
        · rename_i heq
          rw [← heq, StlHashtable.get_update_self hfield]
        · rename_i hne
          rw [hvalue]
          exact StlHashtable.get_update_ne fun hwrap =>
            hne ((HashString.wrap_inj hfree hpair.1).mp hwrap).symm
      · rw [hvalue, hfield]
        exact Option.some_ne_none old

end Steps

end YcsbC
