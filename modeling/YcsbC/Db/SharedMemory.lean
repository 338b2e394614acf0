import YcsbC.Db.LockStlMemory
import YcsbC.Db.SharedDB

/-!
# The memory of a database under concurrent clients

Clients call `Insert`, `Update`, `Read` and `Scan` on one `LockStlDB` at the same time, as
the clients of the benchmark do, which never call `Delete`.  Each operation of a hashtable
is one step, each `DeleteString` is one, and so is making the strings of a pointer that a
hashtable has returned.  `CopyString` belongs to the step that puts the copy somewhere,
since nobody else knows of the copy before.  The steps of different clients interleave in
any way.  A client fails when its next step cannot be made: it would follow or free a
pointer to what has been freed.  What calls return is in `SharedDB` and left out here.
-/

namespace YcsbC

/-! ## Writing -/

/-- A call of `Insert` or `Update`. -/
structure MemWrite where
  /-- Which of the two is called. -/
  op : WriteOp
  /-- `key_index`. -/
  index : Str
  /-- `values`. -/
  values : List KVPair

/-- What a call of `Insert` or `Update` does next. -/
inductive MemWritePc where
  /-- `key_table_->Get`. -/
  | get
  /-- `NewFieldHashtable` and `key_table_->Insert`. -/
  | publish
  /-- `CopyString` and `field_table->Insert` in the loop of `Insert`. -/
  | insertField (table : Ptr) (values : List KVPair)
  /-- `DeleteString` of a value whose field conflicts. -/
  | deleteValue (value : Ptr)
  /-- `CopyString` and `field_table->Insert` in the loop of `Update` on a new table. -/
  | updateNewField (table : Ptr) (values : List KVPair)
  /-- `CopyString` and `field_table->Update`. -/
  | updateField (table : Ptr) (values : List KVPair)
  /-- `field_table->Insert` of a value that `field_table->Update` has not found. -/
  | insertMissing (table : Ptr) (field : Str) (value : Ptr) (values : List KVPair)
  /-- `DeleteString` of a value that has been exchanged. -/
  | deleteOld (old table : Ptr) (values : List KVPair)
  /-- `return`. -/
  | done

/-- The next step of `Insert` or `Update`. -/
def MemWrite.step (call : MemWrite) (m : LockStlDB) :
    MemWritePc → Option (LockStlDB × MemWritePc)
  | .get => do
      match ← m.keyGet call.index with
      | none => some (m, .publish)
      | some table => match call.op with
          | .insert => some (m, .insertField table call.values)
          | .update => some (m, .updateField table call.values)
  | .publish => do
      let (table, m) := m.newFieldHashtable
      let m ← m.keyInsert call.index table
      match call.op with
      | .insert => some (m, .insertField table call.values)
      | .update => some (m, .updateNewField table call.values)
  | .insertField _ [] => some (m, .done)
  | .insertField table ((field, str) :: values) => do
      let (value, m) := m.copyString str
      let (ok, m) ← m.fieldInsert table field value
      some (m, if ok then .insertField table values else .deleteValue value)
  | .deleteValue value => do
      let m ← m.deleteString value
      some (m, .done)
  | .updateNewField _ [] => some (m, .done)
  | .updateNewField table ((field, str) :: values) => do
      let (value, m) := m.copyString str
      let (_, m) ← m.fieldInsert table field value
      some (m, .updateNewField table values)
  | .updateField _ [] => some (m, .done)
  | .updateField table ((field, str) :: values) => do
      let (value, m) := m.copyString str
      let (old, m) ← m.fieldUpdate table field value
      match old with
      | none => some (m, .insertMissing table field value values)
      | some old => some (m, .deleteOld old table values)
  | .insertMissing table field value values => do
      let (_, m) ← m.fieldInsert table field value
      some (m, .updateField table values)
  | .deleteOld old table values => do
      let m ← m.deleteString old
      some (m, .updateField table values)
  | .done => none

/-! ## Reading -/

/-- A call of `Read` or `Scan`.  It visits tables in an order that depends on their keys. -/
structure MemRead where
  /-- `key_index`. -/
  index : Str
  /-- `len` of `Scan`; none for `Read`. -/
  len : Option Int32
  /-- `fields`. -/
  fields : Option (List Str)
  /-- The order in which a table is visited. -/
  order : IterationOrder
  looksAtKeys : order.LooksAtKeys

/-- What a call of `Read` or `Scan` does next. -/
inductive MemReadPc where
  /-- `key_table_->Get` for `Read`, `key_table_->Entries` for `Scan`. -/
  | start
  /-- The field tables still to be read. -/
  | tables (tables : List Ptr)
  /-- `field_table->Get` of a field. -/
  | get (table : Ptr) (fields : List Str) (tables : List Ptr)
  /-- The string of a value. -/
  | value (value table : Ptr) (fields : List Str) (tables : List Ptr)
  /-- The strings of the next pair that `field_table->Entries` has listed. -/
  | pairs (table : Ptr) (pairs : List (Ptr × Ptr)) (tables : List Ptr)
  /-- `return`. -/
  | done

/-- The next step of `Read` or `Scan`. -/
def MemRead.step (call : MemRead) (m : LockStlDB) : MemReadPc → Option MemReadPc
  | .start => match call.len with
      | none => do
          match ← m.keyGet call.index with
          | none => some .done
          | some table => some (.tables [table])
      | some len => do
          let keyPairs ← m.keyTable.entries m.keys call.order (some call.index)
            (some (sizeOfInt len))
          some (.tables (keyPairs.map Prod.snd))
  | .tables [] => some .done
  | .tables (table :: tables) => match call.fields with
      | some fields => some (.get table fields tables)
      | none => do
          let fieldTable ← m.fieldTables.read table
          let pairs ← fieldTable.entries m.keys call.order none none
          some (.pairs table pairs tables)
  | .get _ [] tables => some (.tables tables)
  | .get table (field :: fields) tables => do
      match ← m.fieldGet table field with
      | none => some (.get table fields tables)
      | some value => some (.value value table fields tables)
  | .value value table fields tables => do
      let _ ← m.values.read value
      some (.get table fields tables)
  | .pairs _ [] tables => some (.tables tables)
  | .pairs table (pair :: pairs) tables => do
      let _ ← m.readPair pair
      some (.pairs table pairs tables)
  | .done => none

/-! ## The machine -/

/-- A client between calls or in one. -/
inductive MemThread where
  | idle
  | writing (call : MemWrite) (pc : MemWritePc)
  | reading (call : MemRead) (pc : MemReadPc)

/-- The database and the clients. -/
structure SharedMemory (ι : Type*) where
  /-- The database. -/
  mem : LockStlDB
  /-- The clients. -/
  thread : ι → MemThread

/-- A client begins a call or makes a step of it. -/
inductive MemEvent (ι : Type*) where
  | write (client : ι) (call : MemWrite)
  | read (client : ι) (call : MemRead)
  | step (client : ι)

namespace SharedMemory

variable {ι : Type*}

/-- An empty database and idle clients. -/
def start : SharedMemory ι := ⟨.new, fun _ => .idle⟩

variable [DecidableEq ι]

/-- The state after a step of a client. -/
def move (s : SharedMemory ι) (client : ι) (mem : LockStlDB) (thread : MemThread) :
    SharedMemory ι :=
  ⟨mem, Function.update s.thread client thread⟩

/-- The machine. -/
def machine : Machine (SharedMemory ι) (MemEvent ι) where
  step s
    | .write client call => match s.thread client with
        | .idle => some (s.move client s.mem (.writing call .get))
        | _ => none
    | .read client call => match s.thread client with
        | .idle => some (s.move client s.mem (.reading call .start))
        | _ => none
    | .step client => match s.thread client with
        | .idle => none
        | .writing _ .done | .reading _ .done => some (s.move client s.mem .idle)
        | .writing call pc => (call.step s.mem pc).map fun (mem, pc) =>
            s.move client mem (.writing call pc)
        | .reading call pc => (call.step s.mem pc).map fun pc =>
            s.move client s.mem (.reading call pc)

/-- A client is in a call whose next step cannot be made. -/
def Fails (s : SharedMemory ι) (client : ι) : Prop :=
  s.thread client ≠ .idle ∧ machine.step s (.step client) = none

end SharedMemory

end YcsbC
