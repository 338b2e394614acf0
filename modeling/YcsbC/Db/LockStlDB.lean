import YcsbC.Db.HashtableDB
import YcsbC.Lib.MemHashtable

/-!
# The hashtable database and its memory

`LockStlDB` gives `HashtableDB` its strings and field tables: `CopyString` allocates a
value and `DeleteString` frees it, `NewFieldHashtable` allocates a table and
`DeleteFieldHashtable` frees its values and then the table.  The operations of
`HashtableDB` are translated once more, now with every pointer that they follow, store
and free.  Copies of keys, values and field tables are allocated by `malloc`, `new[]` and
`new`, which are three heaps here.  An operation fails (`none`) when it follows or frees
a pointer to what has been freed.
-/

namespace YcsbC

/-- `LockStlDB`, with its memory. -/
structure LockStlDB where
  /-- `key_table_`. -/
  keyTable : MemHashtable Ptr
  /-- The copies of keys, those of `key_table_` and those of the field tables. -/
  keys : Heap Str
  /-- The values. -/
  values : Heap Str
  /-- The field tables. -/
  fieldTables : Heap (MemHashtable Ptr)

namespace LockStlDB

/-- The constructor. -/
def new : LockStlDB := ⟨.empty, .empty, .empty, .empty⟩

/-- `CopyString`. -/
def copyString (db : LockStlDB) (str : Str) : Ptr × LockStlDB :=
  let (value, values) := db.values.alloc (cStr str)
  (value, { db with values := values })

/-- `DeleteString`. -/
def deleteString (db : LockStlDB) (str : Ptr) : Option LockStlDB :=
  (db.values.free str).map fun values => { db with values := values }

/-- `NewFieldHashtable`. -/
def newFieldHashtable (db : LockStlDB) : Ptr × LockStlDB :=
  let (table, fieldTables) := db.fieldTables.alloc .empty
  (table, { db with fieldTables := fieldTables })

/-- `DeleteString` of one string after another. -/
def deleteStrings (db : LockStlDB) : List Ptr → Option LockStlDB
  | [] => some db
  | str :: strs => do
      let db ← db.deleteString str
      deleteStrings db strs

/-- `DeleteFieldHashtable`.  Its keys are not freed. -/
def deleteFieldHashtable (order : IterationOrder) (db : LockStlDB) (table : Ptr) :
    Option LockStlDB := do
  let fields ← db.fieldTables.read table
  let pairs ← fields.entries db.keys order none none
  let db ← db.deleteStrings (pairs.map Prod.snd)
  let fieldTables ← db.fieldTables.free table
  some { db with fieldTables := fieldTables }

/-- `key_table_->Get`. -/
def keyGet (db : LockStlDB) (keyIndex : Str) : Option (Option Ptr) :=
  db.keyTable.get db.keys keyIndex

/-- `key_table_->Insert`. -/
def keyInsert (db : LockStlDB) (keyIndex : Str) (table : Ptr) : Option LockStlDB := do
  let (_, keys, keyTable) ← db.keyTable.insert db.keys keyIndex table
  some { db with keys := keys, keyTable := keyTable }

/-- `key_table_->Remove`. -/
def keyRemove (db : LockStlDB) (keyIndex : Str) : Option (Option Ptr × LockStlDB) := do
  let (removed, keys, keyTable) ← db.keyTable.remove db.keys keyIndex
  some (removed, { db with keys := keys, keyTable := keyTable })

/-- `field_table->Get`. -/
def fieldGet (db : LockStlDB) (table : Ptr) (field : Str) : Option (Option Ptr) := do
  let fields ← db.fieldTables.read table
  fields.get db.keys field

/-- `field_table->Insert`. -/
def fieldInsert (db : LockStlDB) (table : Ptr) (field : Str) (value : Ptr) :
    Option (Bool × LockStlDB) := do
  let fields ← db.fieldTables.read table
  let (ok, keys, fields) ← fields.insert db.keys field value
  let fieldTables ← db.fieldTables.write table fields
  some (ok, { db with keys := keys, fieldTables := fieldTables })

/-- `field_table->Update`. -/
def fieldUpdate (db : LockStlDB) (table : Ptr) (field : Str) (value : Ptr) :
    Option (Option Ptr × LockStlDB) := do
  let fields ← db.fieldTables.read table
  let (old, fields) ← fields.update db.keys field value
  let fieldTables ← db.fieldTables.write table fields
  some (old, { db with fieldTables := fieldTables })

/-- The strings that are made of a pair of pointers. -/
def readPair (db : LockStlDB) (pair : Ptr × Ptr) : Option KVPair := do
  let field ← db.keys.read pair.1
  let value ← db.values.read pair.2
  some (field, value)

/-- The loop of `Read` and `Scan` over the fields that are asked for. -/
def getFields (db : LockStlDB) (table : Ptr) : List Str → Option (List KVPair)
  | [] => some []
  | field :: fields => do
      match ← db.fieldGet table field with
      | none => getFields db table fields
      | some value => do
          let str ← db.values.read value
          let result ← getFields db table fields
          some ((field, str) :: result)

/-- What `Read` and `Scan` list of a field table. -/
def readFields (order : IterationOrder) (db : LockStlDB) (table : Ptr) :
    Option (List Str) → Option (List KVPair)
  | none => do
      let fields ← db.fieldTables.read table
      let pairs ← fields.entries db.keys order none none
      pairs.mapM db.readPair
  | some fields => db.getFields table fields

/-- `Read`. -/
def read (order : IterationOrder) (db : LockStlDB) (table key : Str)
    (fields : Option (List Str)) (result : List KVPair) : Option (ℤ × List KVPair) := do
  let keyIndex := table ++ key
  match ← db.keyGet keyIndex with
  | none => some (kErrorNoData, result)
  | some fieldTable => do
      let result ← db.readFields order fieldTable fields
      some (kOK, result)

/-- `Scan`. -/
def scan (order : IterationOrder) (db : LockStlDB) (table key : Str) (len : Int32)
    (fields : Option (List Str)) : Option (ℤ × List (List KVPair)) := do
  let keyIndex := table ++ key
  let keyPairs ← db.keyTable.entries db.keys order (some keyIndex) (some (sizeOfInt len))
  let result ← keyPairs.mapM fun keyPair => db.readFields order keyPair.2 fields
  some (kOK, result)

/-- The loop of `Insert`. -/
def insertFields (db : LockStlDB) (table : Ptr) : List KVPair → Option (ℤ × LockStlDB)
  | [] => some (kOK, db)
  | (field, str) :: values => do
      let (value, db) := db.copyString str
      let (ok, db) ← db.fieldInsert table field value
      if ok then
        insertFields db table values
      else do
        let db ← db.deleteString value
        some (kErrorConflict, db)

/-- `Insert`. -/
def insert (db : LockStlDB) (table key : Str) (values : List KVPair) :
    Option (ℤ × LockStlDB) := do
  let keyIndex := table ++ key
  match ← db.keyGet keyIndex with
  | some fieldTable => db.insertFields fieldTable values
  | none => do
      let (fieldTable, db) := db.newFieldHashtable
      let db ← db.keyInsert keyIndex fieldTable
      db.insertFields fieldTable values

/-- The loop of `Update` on a new field table.  It does not look at what `Insert`
returns. -/
def updateNewFields (db : LockStlDB) (table : Ptr) : List KVPair → Option LockStlDB
  | [] => some db
  | (field, str) :: values => do
      let (value, db) := db.copyString str
      let (_, db) ← db.fieldInsert table field value
      updateNewFields db table values

/-- The loop of `Update` on a field table that was there. -/
def updateFields (db : LockStlDB) (table : Ptr) : List KVPair → Option LockStlDB
  | [] => some db
  | (field, str) :: values => do
      let (value, db) := db.copyString str
      let (old, db) ← db.fieldUpdate table field value
      match old with
      | none => do
          let (_, db) ← db.fieldInsert table field value
          updateFields db table values
      | some old => do
          let db ← db.deleteString old
          updateFields db table values

/-- `Update`. -/
def update (db : LockStlDB) (table key : Str) (values : List KVPair) :
    Option (ℤ × LockStlDB) := do
  let keyIndex := table ++ key
  match ← db.keyGet keyIndex with
  | none => do
      let (fieldTable, db) := db.newFieldHashtable
      let db ← db.keyInsert keyIndex fieldTable
      let db ← db.updateNewFields fieldTable values
      some (kOK, db)
  | some fieldTable => do
      let db ← db.updateFields fieldTable values
      some (kOK, db)

/-- `Delete`. -/
def delete (order : IterationOrder) (db : LockStlDB) (table key : Str) :
    Option (ℤ × LockStlDB) := do
  let keyIndex := table ++ key
  let (removed, db) ← db.keyRemove keyIndex
  match removed with
  | none => some (kErrorNoData, db)
  | some fieldTable => do
      let db ← db.deleteFieldHashtable order fieldTable
      some (kOK, db)

/-- `DeleteFieldHashtable` of one table after another. -/
def deleteFieldHashtables (order : IterationOrder) (db : LockStlDB) :
    List Ptr → Option LockStlDB
  | [] => some db
  | table :: tables => do
      let db ← db.deleteFieldHashtable order table
      deleteFieldHashtables order db tables

/-- `~LockStlDB`.  The copies of the index strings are not freed with `key_table_`. -/
def destroy (order : IterationOrder) (db : LockStlDB) : Option LockStlDB := do
  let keyPairs ← db.keyTable.entries db.keys order none none
  let db ← db.deleteFieldHashtables order (keyPairs.map Prod.snd)
  some { db with keyTable := .empty }

end LockStlDB

end YcsbC
