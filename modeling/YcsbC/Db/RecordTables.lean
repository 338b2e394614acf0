import Mathlib.Data.List.Forall2
import YcsbC.Db.HashtableDB

/-!
# Records without handles

Every index has at most one field table, found through its handle.  This module states
what each operation of the database does to the field table of its index, and that it
leaves the field tables of all other indices alone.  It rests on two facts about
handles, which every operation keeps (`WellFormed`): they point to field tables that
are there, and no two indices share one.  Later modules use these statements and no
handles.
-/

namespace YcsbC

namespace HashtableDB

/-- The field table of an index. -/
def recordTable (db : HashtableDB) (index : Str) : Option FieldHashtable :=
  (db.keyTable.get index).bind db.fieldTable

/-- Handles point to field tables, those of different indices to different ones. -/
structure WellFormed (db : HashtableDB) : Prop where
  live : ∀ {index : Str} {handle : Handle}, db.keyTable.get index = some handle →
    ∃ fields, db.fieldTable handle = some fields
  inj : ∀ {index index' : Str} {handle : Handle}, db.keyTable.get index = some handle →
    db.keyTable.get index' = some handle → HashString.wrap index = .wrap index'

/-- `db'` has the field table `record` for `index`, and is as `db` for all others.  So it
has a record more, or less, only as `index` has got one or has lost it. -/
structure Sets (db : HashtableDB) (index : Str) (record : Option FieldHashtable)
    (db' : HashtableDB) : Prop where
  wellFormed : db'.WellFormed
  self : db'.recordTable index = record
  other : ∀ {index' : Str}, HashString.wrap index' ≠ .wrap index →
    db'.recordTable index' = db.recordTable index'
  size : db'.keyTable.size + (db.recordTable index).isSome.toNat =
    db.keyTable.size + record.isSome.toNat

theorem recordTable_of_none {db : HashtableDB} {index : Str}
    (hget : db.keyTable.get index = none) : db.recordTable index = none := by
  rw [recordTable, hget, Option.bind_none]

/-- Index strings that agree up to their NUL have one record. -/
theorem recordTable_congr {db : HashtableDB} {index index' : Str}
    (hindex : cStr index = cStr index') : db.recordTable index = db.recordTable index' := by
  rw [recordTable, recordTable, StlHashtable.get_congr hindex]

theorem wellFormed_empty : WellFormed empty where
  live hget := by
    rw [empty, StlHashtable.get_empty] at hget
    cases hget
  inj hget := by
    rw [empty, StlHashtable.get_empty] at hget
    cases hget

@[simp] theorem recordTable_empty (index : Str) : empty.recordTable index = none := by
  rw [recordTable, empty, StlHashtable.get_empty, Option.bind_none]

/-! ## The heap -/

section Heap

variable {db : HashtableDB} {handle handle' : Handle} {fields fields' : FieldHashtable}

theorem lt_of_fieldTable (hfields : db.fieldTable handle = some fields) :
    handle < db.heap.length := by
  by_contra hlt
  rw [fieldTable, List.getElem?_eq_none (Nat.le_of_not_lt hlt)] at hfields
  cases hfields

theorem fieldTable_set_self (hfields : db.fieldTable handle = some fields)
    (table : Option FieldHashtable) :
    ({ db with heap := db.heap.set handle table } : HashtableDB).fieldTable handle = table := by
  rw [fieldTable, List.getElem?_set_self (lt_of_fieldTable hfields), Option.join_some]

theorem setFieldTable_self (hfields : db.fieldTable handle = some fields) :
    db.setFieldTable handle fields = db := by
  have hlt := lt_of_fieldTable hfields
  rw [fieldTable, List.getElem?_eq_getElem hlt, Option.join_some] at hfields
  rw [setFieldTable, ← hfields, List.set_getElem_self]

theorem setFieldTable_setFieldTable :
    (db.setFieldTable handle fields).setFieldTable handle fields' =
      db.setFieldTable handle fields' := by
  rw [setFieldTable, setFieldTable, setFieldTable, List.set_set]

theorem fieldTable_setFieldTable (fields' : FieldHashtable)
    (hfields : db.fieldTable handle = some fields) :
    (db.setFieldTable handle fields').fieldTable handle = some fields' :=
  fieldTable_set_self hfields _

theorem fieldTable_set_ne (hne : handle' ≠ handle) (table : Option FieldHashtable) :
    ({ db with heap := db.heap.set handle table } : HashtableDB).fieldTable handle' =
      db.fieldTable handle' := by
  rw [fieldTable, List.getElem?_set_ne hne.symm, fieldTable]

theorem fieldTable_new_self : (db.newFieldHashtable.2).fieldTable db.newFieldHashtable.1 =
    some .empty := by
  rw [fieldTable, newFieldHashtable, List.getElem?_concat_length, Option.join_some]

theorem fieldTable_new_of_some (hfields : db.fieldTable handle = some fields) :
    (db.newFieldHashtable.2).fieldTable handle = some fields := by
  rw [fieldTable, newFieldHashtable, List.getElem?_append_left (lt_of_fieldTable hfields)]
  exact hfields

end Heap

/-! ## The steps that operations are made of -/

section Steps

variable {db : HashtableDB} {index : Str} {handle : Handle} {fields : FieldHashtable}

/-- Changing what a handle stands for leaves the field tables of other indexes alone. -/
theorem fieldTable_set_other (hdb : db.WellFormed) (hget : db.keyTable.get index = some handle)
    (table : Option FieldHashtable) {index' : Str} {handle' : Handle}
    (hne : HashString.wrap index' ≠ .wrap index) (hget' : db.keyTable.get index' = some handle') :
    ({ db with heap := db.heap.set handle table } : HashtableDB).fieldTable handle' =
      db.fieldTable handle' := by
  refine fieldTable_set_ne (fun heq => hne ?_) _
  rw [heq] at hget'
  exact hdb.inj hget' hget

/-- Changing the field table of an index. -/
theorem sets_setFieldTable (hdb : db.WellFormed) (hget : db.keyTable.get index = some handle)
    (fields : FieldHashtable) : Sets db index (some fields) (db.setFieldTable handle fields) := by
  obtain ⟨old, hold⟩ := hdb.live hget
  have hself : (db.setFieldTable handle fields).fieldTable handle = some fields :=
    fieldTable_set_self hold _
  have hother : ∀ {index' : Str} {handle' : Handle}, HashString.wrap index' ≠ .wrap index →
      db.keyTable.get index' = some handle' →
      (db.setFieldTable handle fields).fieldTable handle' = db.fieldTable handle' :=
    fun hne hget' => fieldTable_set_other hdb hget _ hne hget'
  refine ⟨⟨?_, hdb.inj⟩, ?_, ?_, ?_⟩
  · intro index' handle' hget'
    by_cases hne : HashString.wrap index' = .wrap index
    · have hsame : db.keyTable.get index' = db.keyTable.get index := by
        rw [StlHashtable.get, hne, StlHashtable.get]
      rw [show db.keyTable.get index' = some handle' from hget', hget] at hsame
      cases hsame
      exact ⟨fields, hself⟩
    · rw [hother hne hget']
      exact hdb.live hget'
  · rw [recordTable, show (db.setFieldTable handle fields).keyTable.get index = some handle from hget,
      Option.bind_some, hself]
  · intro index' hne
    rw [recordTable, recordTable]
    change (db.keyTable.get index').bind _ = _
    cases hget' : db.keyTable.get index' with
    | none => rfl
    | some handle' => exact hother hne hget'
  · rw [recordTable, hget, Option.bind_some, hold]
    rfl

/-- The database after `NewFieldHashtable` and the `Insert` of its handle. -/
def publish (db : HashtableDB) (index : Str) : HashtableDB :=
  { db.newFieldHashtable.2 with
    keyTable := (db.keyTable.insert index db.newFieldHashtable.1).2 }

/-- Making an empty field table for an index that has none. -/
theorem sets_publish (hdb : db.WellFormed) (hget : db.keyTable.get index = none) :
    Sets db index (some .empty) (db.publish index) ∧
      (db.publish index).keyTable.get index = some db.newFieldHashtable.1 := by
  have hself : (db.publish index).keyTable.get index = some db.newFieldHashtable.1 :=
    StlHashtable.get_insert_self hget
  have hother : ∀ {index' : Str}, HashString.wrap index' ≠ .wrap index →
      (db.publish index).keyTable.get index' = db.keyTable.get index' :=
    fun hne => StlHashtable.get_insert_ne hne
  have hsame : ∀ {index' : Str}, HashString.wrap index' = .wrap index →
      (db.publish index).keyTable.get index' = some db.newFieldHashtable.1 := by
    intro index' heq
    rw [StlHashtable.get, heq]
    exact hself
  have hfields : ∀ {handle : Handle} {fields : FieldHashtable},
      db.fieldTable handle = some fields → (db.publish index).fieldTable handle = some fields :=
    fun hfields => fieldTable_new_of_some hfields
  have hnew : (db.publish index).fieldTable db.newFieldHashtable.1 = some .empty :=
    fieldTable_new_self
  -- the new handle is not one of the old ones
  have hfresh : ∀ {index' : Str}, db.keyTable.get index' ≠ some db.newFieldHashtable.1 := by
    intro index' hget'
    obtain ⟨old, hold⟩ := hdb.live hget'
    exact absurd (lt_of_fieldTable hold) (lt_irrefl _)
  refine ⟨⟨⟨?_, ?_⟩, ?_, ?_, ?_⟩, hself⟩
  · intro index' handle' hget'
    by_cases hne : HashString.wrap index' = .wrap index
    · rw [hsame hne] at hget'
      cases hget'
      exact ⟨.empty, hnew⟩
    · rw [hother hne] at hget'
      obtain ⟨old, hold⟩ := hdb.live hget'
      exact ⟨old, hfields hold⟩
  · intro index₁ index₂ handle' hget₁ hget₂
    by_cases hne₁ : HashString.wrap index₁ = .wrap index
    · by_cases hne₂ : HashString.wrap index₂ = .wrap index
      · rw [hne₁, hne₂]
      · rw [hsame hne₁] at hget₁
        rw [hother hne₂, ← hget₁] at hget₂
        exact absurd hget₂ hfresh
    · by_cases hne₂ : HashString.wrap index₂ = .wrap index
      · rw [hsame hne₂] at hget₂
        rw [hother hne₁, ← hget₂] at hget₁
        exact absurd hget₁ hfresh
      · rw [hother hne₁] at hget₁
        rw [hother hne₂] at hget₂
        exact hdb.inj hget₁ hget₂
  · rw [recordTable, hself, Option.bind_some, hnew]
  · intro index' hne
    rw [recordTable, hother hne, recordTable]
    cases hget' : db.keyTable.get index' with
    | none => rfl
    | some handle' =>
        obtain ⟨old, hold⟩ := hdb.live hget'
        rw [Option.bind_some, Option.bind_some, hold, hfields hold]
  · rw [recordTable_of_none hget]
    exact StlHashtable.size_insert hget

/-- Removing the handle of an index that has none changes nothing. -/
theorem sets_none (hdb : db.WellFormed) (hget : db.keyTable.get index = none) :
    Sets db index none db :=
  ⟨hdb, recordTable_of_none hget, fun _ => rfl, by rw [recordTable_of_none hget]⟩

/-- Removing an index with its field table. -/
theorem sets_remove (hdb : db.WellFormed) (hget : db.keyTable.get index = some handle) :
    Sets db index none
      { keyTable := (db.keyTable.remove index).2, heap := db.heap.set handle none } := by
  have hself : (db.keyTable.remove index).2.get index = none := StlHashtable.get_remove_self
  have hsame : ∀ {index' : Str}, HashString.wrap index' = .wrap index →
      (db.keyTable.remove index).2.get index' = none := by
    intro index' heq
    rw [StlHashtable.get, heq]
    exact hself
  have hother : ∀ {index' : Str}, HashString.wrap index' ≠ .wrap index →
      (db.keyTable.remove index).2.get index' = db.keyTable.get index' :=
    fun hne => StlHashtable.get_remove_ne hne
  have hold : ∀ {index' : Str} {handle' : Handle},
      (db.keyTable.remove index).2.get index' = some handle' →
      HashString.wrap index' ≠ .wrap index ∧ db.keyTable.get index' = some handle' := by
    intro index' handle' hget'
    have hne : HashString.wrap index' ≠ .wrap index := by
      intro heq
      rw [hsame heq] at hget'
      cases hget'
    exact ⟨hne, hother hne ▸ hget'⟩
  refine ⟨⟨?_, ?_⟩, ?_, ?_, ?_⟩
  · intro index' handle' hget'
    obtain ⟨hne, hget'⟩ := hold hget'
    obtain ⟨fields, hfields⟩ := hdb.live hget'
    exact ⟨fields, (fieldTable_set_other hdb hget none hne hget').trans hfields⟩
  · intro index₁ index₂ handle' hget₁ hget₂
    exact hdb.inj (hold hget₁).2 (hold hget₂).2
  · rw [recordTable, hself, Option.bind_none]
  · intro index' hne
    rw [recordTable, hother hne, recordTable]
    cases hget' : db.keyTable.get index' with
    | none => rfl
    | some handle' => exact fieldTable_set_other hdb hget none hne hget'
  · obtain ⟨fields, hfields⟩ := hdb.live hget
    rw [recordTable, hget, Option.bind_some, hfields]
    exact StlHashtable.size_remove hget

end Steps

theorem Sets.trans {db db₁ db₂ : HashtableDB} {index : Str} {record₁ record₂ : Option FieldHashtable}
    (h₁ : Sets db index record₁ db₁) (h₂ : Sets db₁ index record₂ db₂) :
    Sets db index record₂ db₂ :=
  ⟨h₂.wellFormed, h₂.self, fun hne => (h₂.other hne).trans (h₁.other hne), by
    have hsize₁ := h₁.size
    have hsize₂ := h₂.size
    rw [h₁.self] at hsize₂
    omega⟩

/-- Index strings without NUL differ for the table when they differ. -/
theorem Sets.other_of_ne {db db' : HashtableDB} {index index' : Str} {record : Option FieldHashtable}
    (h : Sets db index record db') (hindex : NulFree index) (hindex' : NulFree index')
    (hne : index' ≠ index) : db'.recordTable index' = db.recordTable index' :=
  h.other fun hwrap => hne ((HashString.wrap_inj hindex' hindex).mp hwrap)

/-! ## The operations -/

section Operations

variable {db : HashtableDB} (hdb : db.WellFormed) (table key : Str)

include hdb

theorem exists_recordTable {index : Str} {handle : Handle}
    (hget : db.keyTable.get index = some handle) :
    ∃ fields, db.fieldTable handle = some fields ∧ db.recordTable index = some fields := by
  obtain ⟨fields, hfields⟩ := hdb.live hget
  exact ⟨fields, hfields, by rw [recordTable, hget, Option.bind_some, hfields]⟩

/-- `Read` lists what the field table of its index holds. -/
theorem read_eq (order : IterationOrder) (fields : Option (List Str)) (result : List KVPair) :
    read order db table key fields result = some (match db.recordTable (table ++ key) with
      | none => (kErrorNoData, result)
      | some fieldTable => (kOK, readFields order fieldTable fields)) := by
  rw [read]
  cases hget : db.keyTable.get (table ++ key) with
  | none => rw [recordTable_of_none hget]
  | some handle =>
      obtain ⟨fieldTable, hfields, hrecord⟩ := exists_recordTable hdb hget
      simp only [hfields, hrecord, Option.map_some]

omit hdb in
/-- A loop whose turns all give something lists what they give. -/
theorem exists_mapM {α β : Type} {f : α → Option β} {l : List α}
    (h : ∀ a ∈ l, ∃ b, f a = some b) :
    ∃ result, l.mapM f = some result ∧ List.Forall₂ (fun a b => f a = some b) l result := by
  induction l with
  | nil => exact ⟨[], rfl, .nil⟩
  | cons a l ih =>
      obtain ⟨b, hb⟩ := h a List.mem_cons_self
      obtain ⟨result, hresult, hall⟩ := ih fun a' hmem => h a' (List.mem_cons_of_mem _ hmem)
      refine ⟨b :: result, ?_, .cons hb hall⟩
      rw [List.mapM_cons, hb, hresult]
      rfl

/-- `Scan` reads the field table of every entry it visits. -/
theorem exists_scan (order : IterationOrder) (len : Int32) (fields : Option (List Str)) :
    ∃ result, scan order db table key len fields = some (kOK, result) ∧
      List.Forall₂ (fun pair entry => db.keyTable.get pair.1 = some pair.2 ∧
        (db.fieldTable pair.2).map (fun fieldTable => readFields order fieldTable fields) =
          some entry)
        (db.keyTable.entries order (some (table ++ key)) (some (sizeOfInt len))) result := by
  have hget : ∀ pair ∈ db.keyTable.entries order (some (table ++ key)) (some (sizeOfInt len)),
      db.keyTable.get pair.1 = some pair.2 := fun _ hmem => StlHashtable.get_of_mem_entries hmem
  have hlive : ∀ pair ∈ db.keyTable.entries order (some (table ++ key)) (some (sizeOfInt len)),
      ∃ entry, (db.fieldTable pair.2).map (fun fieldTable =>
        readFields order fieldTable fields) = some entry := by
    intro pair hmem
    obtain ⟨fieldTable, hfields⟩ := hdb.live (hget pair hmem)
    exact ⟨_, by rw [hfields]; rfl⟩
  obtain ⟨result, hresult, hall⟩ := exists_mapM hlive
  exact ⟨result, by rw [scan, hresult]; rfl, (List.forall₂_and_left _ _).mpr ⟨hget, hall⟩⟩

/-- `Scan` returns. -/
theorem scan_spec (order : IterationOrder) (len : Int32) (fields : Option (List Str)) :
    ∃ result, scan order db table key len fields = some (kOK, result) :=
  (exists_scan hdb table key order len fields).imp fun _ h => h.1

/-- A new field table for an index that has none, changed in any way. -/
theorem setFieldTable_publish {index : Str} (hget : db.keyTable.get index = none) :
    (db.publish index).fieldTable db.newFieldHashtable.1 = some .empty ∧
      ∀ fields, Sets db index (some fields)
        ((db.publish index).setFieldTable db.newFieldHashtable.1 fields) := by
  obtain ⟨hpublish, hget'⟩ := sets_publish hdb hget
  exact ⟨fieldTable_new_self, fun fields =>
    hpublish.trans (sets_setFieldTable hpublish.wellFormed hget' fields)⟩

/-- `Insert` runs its loop on the field table of its index, a new one if there is none. -/
theorem insert_spec (values : List KVPair) :
    ∃ db', db.insert table key values =
        some ((insertFields ((db.recordTable (table ++ key)).getD .empty) values).1, db') ∧
      Sets db (table ++ key)
        (some (insertFields ((db.recordTable (table ++ key)).getD .empty) values).2) db' := by
  rw [insert]
  cases hget : db.keyTable.get (table ++ key) with
  | none =>
      obtain ⟨hfields, hsets⟩ := setFieldTable_publish hdb hget
      rw [recordTable_of_none hget, Option.getD_none]
      refine ⟨_, ?_, hsets _⟩
      change ((db.publish (table ++ key)).fieldTable db.newFieldHashtable.1).map _ = _
      rw [hfields]
      rfl
  | some handle =>
      obtain ⟨fieldTable, hfields, hrecord⟩ := exists_recordTable hdb hget
      rw [hrecord, Option.getD_some]
      refine ⟨_, ?_, sets_setFieldTable hdb hget _⟩
      change (db.fieldTable handle).map _ = _
      rw [hfields]
      rfl

/-- `Update` runs one of its loops on the field table of its index. -/
theorem update_spec (values : List KVPair) :
    ∃ db', db.update table key values = some (kOK, db') ∧
      Sets db (table ++ key) (some (match db.recordTable (table ++ key) with
        | none => updateNewFields .empty values
        | some fieldTable => updateFields fieldTable values)) db' := by
  rw [update]
  cases hget : db.keyTable.get (table ++ key) with
  | none =>
      obtain ⟨hfields, hsets⟩ := setFieldTable_publish hdb hget
      rw [recordTable_of_none hget]
      refine ⟨_, ?_, hsets _⟩
      change ((db.publish (table ++ key)).fieldTable db.newFieldHashtable.1).map _ = _
      rw [hfields]
      rfl
  | some handle =>
      obtain ⟨fieldTable, hfields, hrecord⟩ := exists_recordTable hdb hget
      rw [hrecord]
      refine ⟨_, ?_, sets_setFieldTable hdb hget _⟩
      change (db.fieldTable handle).map _ = _
      rw [hfields]
      rfl

/-- `Delete` leaves its index without a field table. -/
theorem delete_spec :
    ∃ status db', db.delete table key = some (status, db') ∧ Sets db (table ++ key) none db' := by
  rw [delete]
  cases hget : db.keyTable.get (table ++ key) with
  | none =>
      rw [StlHashtable.remove, show db.keyTable.table.lookup (.wrap (table ++ key)) = none from hget]
      exact ⟨_, _, rfl, sets_none hdb hget⟩
  | some handle =>
      obtain ⟨fieldTable, hfields, -⟩ := exists_recordTable hdb hget
      have hremoved : (db.keyTable.remove (table ++ key)).1 = some handle := by
        rw [StlHashtable.remove_fst, hget]
      refine ⟨kOK, _, ?_, sets_remove hdb hget⟩
      dsimp only
      rw [hremoved]
      change ((db.fieldTable handle).map _).map _ = _
      rw [hfields]
      rfl

end Operations

end HashtableDB

end YcsbC
