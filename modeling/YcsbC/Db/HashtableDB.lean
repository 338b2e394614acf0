import YcsbC.Core.CounterGenerator
import YcsbC.Core.DB
import YcsbC.Lib.StlHashtable

/-!
# The hashtable database

`HashtableDB` keeps a table of handles to field tables.  A handle is a pointer to a
table on the heap: `NewFieldHashtable` allocates one, with an address not used before,
and `DeleteFieldHashtable` frees it.  Strings are copied up to their NUL.  Following a
handle to a table that is not there gives nothing, so an operation that returns has
followed none.
-/

namespace YcsbC

/-- A `FieldHashtable`. -/
abbrev FieldHashtable := StlHashtable Str

/-- A pointer to a `FieldHashtable`. -/
abbrev Handle := ℕ

/-- `HashtableDB`. -/
structure HashtableDB where
  /-- `key_table_`. -/
  keyTable : StlHashtable Handle
  /-- The field tables by their handles; a deleted one is gone. -/
  heap : List (Option FieldHashtable)

namespace HashtableDB

/-- A database without records. -/
def empty : HashtableDB := ⟨.empty, []⟩

/-- The field table that a handle points to. -/
def fieldTable (db : HashtableDB) (handle : Handle) : Option FieldHashtable :=
  (db.heap[handle]?).join

/-- The database after the field table of a handle has been changed. -/
def setFieldTable (db : HashtableDB) (handle : Handle) (fields : FieldHashtable) : HashtableDB :=
  { db with heap := db.heap.set handle (some fields) }

/-- `NewFieldHashtable`. -/
def newFieldHashtable (db : HashtableDB) : Handle × HashtableDB :=
  (db.heap.length, { db with heap := db.heap ++ [some .empty] })

/-- `DeleteFieldHashtable`. -/
def deleteFieldHashtable (db : HashtableDB) (handle : Handle) : Option HashtableDB :=
  (db.fieldTable handle).map fun _ => { db with heap := db.heap.set handle none }

/-- `CopyString`. -/
def copyString (str : Str) : Str := cStr str

/-- What `Read` and `Scan` list of a field table: all of its entries, or those of
`fields` that are there. -/
def readFields (order : IterationOrder) (fieldTable : FieldHashtable) :
    Option (List Str) → List KVPair
  | none => fieldTable.entries order none none
  | some fields => fields.filterMap fun field =>
      (fieldTable.get field).map fun value => (field, value)

/-- `Read`. -/
def read (order : IterationOrder) (db : HashtableDB) (table key : Str)
    (fields : Option (List Str)) (result : List KVPair) : Option (ℤ × List KVPair) :=
  let keyIndex := table ++ key
  match db.keyTable.get keyIndex with
  | none => some (kErrorNoData, result)
  | some handle =>
      (db.fieldTable handle).map fun fieldTable => (kOK, readFields order fieldTable fields)

/-- `Scan`, whose length is converted to `size_t`. -/
def scan (order : IterationOrder) (db : HashtableDB) (table key : Str) (len : Int32)
    (fields : Option (List Str)) : Option (ℤ × List (List KVPair)) :=
  let keyIndex := table ++ key
  let keyPairs := db.keyTable.entries order (some keyIndex) (some (sizeOfInt len))
  (keyPairs.mapM fun keyPair => (db.fieldTable keyPair.2).map fun fieldTable =>
    readFields order fieldTable fields).map fun result => (kOK, result)

/-- The loop of `Insert`. -/
def insertFields (fieldTable : FieldHashtable) : List KVPair → ℤ × FieldHashtable
  | [] => (kOK, fieldTable)
  | (field, str) :: values =>
      let value := copyString str
      let (ok, fieldTable') := fieldTable.insert field value
      if !ok then (kErrorConflict, fieldTable') else insertFields fieldTable' values

/-- `Insert`. -/
def insert (db : HashtableDB) (table key : Str) (values : List KVPair) :
    Option (ℤ × HashtableDB) :=
  let keyIndex := table ++ key
  let (handle, db) := match db.keyTable.get keyIndex with
    | some handle => (handle, db)
    | none =>
        let (handle, db) := db.newFieldHashtable
        (handle, { db with keyTable := (db.keyTable.insert keyIndex handle).2 })
  (db.fieldTable handle).map fun fieldTable =>
    let (status, fieldTable') := insertFields fieldTable values
    (status, db.setFieldTable handle fieldTable')

/-- The loop of `Update` on a new field table. -/
def updateNewFields (fieldTable : FieldHashtable) : List KVPair → FieldHashtable
  | [] => fieldTable
  | (field, str) :: values =>
      let value := copyString str
      updateNewFields (fieldTable.insert field value).2 values

/-- The loop of `Update` on a field table that was there. -/
def updateFields (fieldTable : FieldHashtable) : List KVPair → FieldHashtable
  | [] => fieldTable
  | (field, str) :: values =>
      let value := copyString str
      let (old, fieldTable') := fieldTable.update field value
      match old with
      | none => updateFields (fieldTable'.insert field value).2 values
      | some _ => updateFields fieldTable' values

/-- `Update`. -/
def update (db : HashtableDB) (table key : Str) (values : List KVPair) :
    Option (ℤ × HashtableDB) :=
  let keyIndex := table ++ key
  match db.keyTable.get keyIndex with
  | none =>
      let (handle, db) := db.newFieldHashtable
      let db := { db with keyTable := (db.keyTable.insert keyIndex handle).2 }
      (db.fieldTable handle).map fun fieldTable =>
        (kOK, db.setFieldTable handle (updateNewFields fieldTable values))
  | some handle =>
      (db.fieldTable handle).map fun fieldTable =>
        (kOK, db.setFieldTable handle (updateFields fieldTable values))

/-- `Delete`. -/
def delete (db : HashtableDB) (table key : Str) : Option (ℤ × HashtableDB) :=
  let keyIndex := table ++ key
  let (removed, keyTable) := db.keyTable.remove keyIndex
  let db := { db with keyTable := keyTable }
  match removed with
  | none => some (kErrorNoData, db)
  | some handle => (db.deleteFieldHashtable handle).map fun db => (kOK, db)

/-- The database behind the interface.  It visits the elements of its tables in the
given order. -/
def asDB (order : IterationOrder) : DB HashtableDB where
  read db table key fields :=
    (db.read order table key fields []).map fun (status, result) => (status, result, db)
  scan db table key len fields :=
    (db.scan order table key len fields).map fun (status, result) => (status, result, db)
  update := update
  insert := insert

@[simp] theorem asDB_read (order : IterationOrder) (db : HashtableDB) (table key : Str)
    (fields : Option (List Str)) : (asDB order).read db table key fields =
      (db.read order table key fields []).map fun (status, result) => (status, result, db) := rfl

@[simp] theorem asDB_scan (order : IterationOrder) (db : HashtableDB) (table key : Str)
    (len : Int32) (fields : Option (List Str)) : (asDB order).scan db table key len fields =
      (db.scan order table key len fields).map fun (status, result) => (status, result, db) := rfl

@[simp] theorem asDB_update (order : IterationOrder) : (asDB order).update = update := rfl

@[simp] theorem asDB_insert (order : IterationOrder) : (asDB order).insert = insert := rfl

end HashtableDB

end YcsbC
