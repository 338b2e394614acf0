import YcsbC.Db.RecordWrites
import YcsbC.Foundation.Machine

/-!
# The hashtable database under concurrent clients

Clients call `Insert`, `Update` and `Read` on one `HashtableDB` at the same time.  Each
operation of a hashtable is one step, as the mutex of `LockStlHashtable` makes it, and
the steps of different clients interleave in any way.

The state also keeps a history, which no step looks at.  Every event takes one unit of
time.  A call is named by the time at which it began; a write is one step that has set
a field, stamped with its call and its time.
-/

namespace YcsbC

open HashtableDB

/-! ## Calls -/

/-- `Insert` or `Update`. -/
inductive WriteOp where
  | insert
  | update
deriving DecidableEq

/-- A call of `Insert` or `Update`, whose strings hold no NUL and which names no field
twice. -/
structure WriteCall where
  /-- Which of the two is called. -/
  op : WriteOp
  /-- `table`. -/
  table : Str
  /-- `key`. -/
  key : Str
  /-- `values`. -/
  values : List KVPair
  nulFree : NulFree (table ++ key)
  nulFree_values : NulFreeValues values
  nodup_fields : (values.map Prod.fst).Nodup

/-- A call of `Read`.  Its index string holds no NUL. -/
structure ReadCall where
  /-- The order in which a table is visited. -/
  order : IterationOrder
  /-- `table`. -/
  table : Str
  /-- `key`. -/
  key : Str
  /-- `fields`. -/
  fields : Option (List Str)
  nulFree : NulFree (table ++ key)

/-- `key_index`. -/
def WriteCall.index (call : WriteCall) : Str := call.table ++ call.key

/-- `key_index`. -/
def ReadCall.index (call : ReadCall) : Str := call.table ++ call.key

theorem WriteCall.nulFree_index (call : WriteCall) : NulFree call.index := call.nulFree

theorem ReadCall.nulFree_index (call : ReadCall) : NulFree call.index := call.nulFree

/-- The fields that a `Read` asks for. -/
def ReadCall.Asks (call : ReadCall) (field : Str) : Prop := ∀ fields ∈ call.fields, field ∈ fields

/-- What a call of `Insert` or `Update` does next. -/
inductive WritePc where
  /-- `key_table_->Get`. -/
  | get
  /-- `NewFieldHashtable` and `key_table_->Insert`. -/
  | publish
  /-- `field_table->Insert` in the loop of `Insert`. -/
  | insertField (handle : Handle) (values : List KVPair)
  /-- `field_table->Insert` in the loop of `Update` on a new field table. -/
  | updateNewField (handle : Handle) (values : List KVPair)
  /-- `field_table->Update`. -/
  | updateField (handle : Handle) (values : List KVPair)
  /-- `field_table->Insert` of a pair that `field_table->Update` has not found. -/
  | insertMissing (handle : Handle) (pair : KVPair) (values : List KVPair)
  /-- `return`. -/
  | done (status : ℤ)
deriving DecidableEq

/-- What a call of `Read` does next. -/
inductive ReadPc where
  /-- `key_table_->Get`. -/
  | get
  /-- `field_table->Entries`. -/
  | entries (handle : Handle)
  /-- `field_table->Get`, with the fields still to be read. -/
  | getField (handle : Handle) (fields : List Str) (result : List KVPair)
  /-- `return`. -/
  | done (status : ℤ) (result : List KVPair)
deriving DecidableEq

/-! ## Steps -/

/-- One step of `Insert` or `Update`: the database after it, the pair that it has
written, and what comes next. -/
structure WriteStep where
  /-- The database. -/
  db : HashtableDB
  /-- The pair that was written, if any. -/
  wrote : Option KVPair
  /-- The next step. -/
  pc : WritePc

/-- `field_table->Insert` of a pair, and what comes next if it succeeds and if not. -/
def insertStep (db : HashtableDB) (handle : Handle) (pair : KVPair) (next conflict : WritePc) :
    Option WriteStep :=
  let value := copyString pair.2
  (db.fieldTable handle).map fun fieldTable =>
    let (ok, fieldTable') := fieldTable.insert pair.1 value
    { db := db.setFieldTable handle fieldTable'
      wrote := if ok then some (pair.1, value) else none
      pc := if ok then next else conflict }

/-- `field_table->Update` of a pair, and what comes next if it succeeds and if not. -/
def updateStep (db : HashtableDB) (handle : Handle) (pair : KVPair) (next missing : WritePc) :
    Option WriteStep :=
  let value := copyString pair.2
  (db.fieldTable handle).map fun fieldTable =>
    let (old, fieldTable') := fieldTable.update pair.1 value
    { db := db.setFieldTable handle fieldTable'
      wrote := if old.isSome then some (pair.1, value) else none
      pc := if old.isSome then next else missing }

/-- The next step of `Insert` or `Update`.  Only the loop of `Insert` looks whether an
`Insert` has succeeded. -/
def WriteCall.step (call : WriteCall) (db : HashtableDB) : WritePc → Option WriteStep
  | .get =>
      match db.keyTable.get call.index with
      | none => some ⟨db, none, .publish⟩
      | some handle =>
          match call.op with
          | .insert => some ⟨db, none, .insertField handle call.values⟩
          | .update => some ⟨db, none, .updateField handle call.values⟩
  | .publish =>
      let (handle, db) := db.newFieldHashtable
      let db := { db with keyTable := (db.keyTable.insert call.index handle).2 }
      match call.op with
      | .insert => some ⟨db, none, .insertField handle call.values⟩
      | .update => some ⟨db, none, .updateNewField handle call.values⟩
  | .insertField _ [] => some ⟨db, none, .done kOK⟩
  | .insertField handle (pair :: values) =>
      insertStep db handle pair (.insertField handle values) (.done kErrorConflict)
  | .updateNewField _ [] => some ⟨db, none, .done kOK⟩
  | .updateNewField handle (pair :: values) =>
      insertStep db handle pair (.updateNewField handle values) (.updateNewField handle values)
  | .updateField _ [] => some ⟨db, none, .done kOK⟩
  | .updateField handle (pair :: values) =>
      updateStep db handle pair (.updateField handle values) (.insertMissing handle pair values)
  | .insertMissing handle pair values =>
      insertStep db handle pair (.updateField handle values) (.updateField handle values)
  | .done _ => none

/-- The next step of `Read`. -/
def ReadCall.step (call : ReadCall) (db : HashtableDB) : ReadPc → Option ReadPc
  | .get =>
      match db.keyTable.get call.index with
      | none => some (.done kErrorNoData [])
      | some handle =>
          match call.fields with
          | none => some (.entries handle)
          | some fields => some (.getField handle fields [])
  | .entries handle =>
      (db.fieldTable handle).map fun fieldTable =>
        .done kOK (fieldTable.entries call.order none none)
  | .getField _ [] result => some (.done kOK result)
  | .getField handle (field :: fields) result =>
      (db.fieldTable handle).map fun fieldTable =>
        match fieldTable.get field with
        | none => .getField handle fields result
        | some value => .getField handle fields (result ++ [(field, value)])
  | .done .. => none

/-! ## The machine -/

/-- A client between calls or in one. -/
inductive Thread where
  | idle
  | writing (start : ℕ) (call : WriteCall) (pc : WritePc)
  | reading (start : ℕ) (call : ReadCall) (pc : ReadPc)

/-- The call that publishes a field table next. -/
def Thread.publishing : Thread → Option WriteCall
  | .writing _ call .publish => some call
  | _ => none

/-- The value of a write, its call and its time. -/
structure Stamp where
  /-- What was written. -/
  value : Str
  /-- The call that wrote it. -/
  caller : ℕ
  /-- When it was written. -/
  time : ℕ
deriving DecidableEq

/-- A call of `Insert` or `Update` that has returned. -/
structure WriteReturn where
  /-- When it began. -/
  start : ℕ
  /-- The call. -/
  call : WriteCall
  /-- When it returned. -/
  time : ℕ
  /-- What it returned. -/
  status : ℤ

/-- A call of `Read` that has returned. -/
structure ReadReturn where
  /-- When it began. -/
  start : ℕ
  /-- The call. -/
  call : ReadCall
  /-- What it returned. -/
  status : ℤ
  /-- `result`. -/
  result : List KVPair

/-- The database, the clients, and the history so far. -/
structure SharedDB (ι : Type*) where
  /-- The database. -/
  db : HashtableDB
  /-- The clients. -/
  thread : ι → Thread
  /-- The number of events so far. -/
  now : ℕ
  /-- The writes to the fields of records. -/
  writes : WriteLog (Str × Str) Stamp
  /-- The calls of `Insert` and `Update` that have returned. -/
  returned : List WriteReturn
  /-- The calls of `Read` that have returned. -/
  reads : List ReadReturn

/-- A client begins a call or makes a step of it. -/
inductive SharedEvent (ι : Type*) where
  | write (client : ι) (call : WriteCall)
  | read (client : ι) (call : ReadCall)
  | step (client : ι)

namespace SharedDB

variable {ι : Type*}

/-- An empty database and idle clients. -/
def start : SharedDB ι := ⟨.empty, fun _ => .idle, 0, [], [], []⟩

variable [DecidableEq ι]

/-- The state after the next event, in which a client has moved on. -/
def tick (s : SharedDB ι) (client : ι) (thread : Thread) : SharedDB ι :=
  { s with thread := Function.update s.thread client thread, now := s.now + 1 }

/-- The state after a step of a write call. -/
def afterWriteStep (s : SharedDB ι) (client : ι) (begun : ℕ) (call : WriteCall)
    (step : WriteStep) : SharedDB ι :=
  { s.tick client (.writing begun call step.pc) with
    db := step.db
    writes := s.writes ++ step.wrote.toList.map fun (field, value) =>
      ((call.index, field), ⟨value, begun, s.now⟩) }

/-- The machine. -/
def machine : Machine (SharedDB ι) (SharedEvent ι) where
  step s
    | .write client call =>
        match s.thread client with
        | .idle => some (s.tick client (.writing s.now call .get))
        | _ => none
    | .read client call =>
        match s.thread client with
        | .idle => some (s.tick client (.reading s.now call .get))
        | _ => none
    | .step client =>
        match s.thread client with
        | .idle => none
        | .writing begun call (.done status) =>
            some { s.tick client .idle with
              returned := s.returned ++ [⟨begun, call, s.now, status⟩] }
        | .writing begun call pc =>
            (call.step s.db pc).map fun step => s.afterWriteStep client begun call step
        | .reading begun call (.done status result) =>
            some { s.tick client .idle with
              reads := s.reads ++ [⟨begun, call, status, result⟩] }
        | .reading begun call pc =>
            (call.step s.db pc).map fun pc' => s.tick client (.reading begun call pc')

variable {s : SharedDB ι} {client : ι} {begun : ℕ}

theorem step_writing {call : WriteCall} {pc : WritePc}
    (hthread : s.thread client = .writing begun call pc) (hpc : ∀ status, pc ≠ .done status) :
    machine.step s (.step client) =
      (call.step s.db pc).map fun step => s.afterWriteStep client begun call step := by
  cases pc with
  | done status => exact absurd rfl (hpc status)
  | _ => simp only [machine, hthread]

theorem step_reading {call : ReadCall} {pc : ReadPc}
    (hthread : s.thread client = .reading begun call pc)
    (hpc : ∀ status result, pc ≠ .done status result) :
    machine.step s (.step client) =
      (call.step s.db pc).map fun pc' => s.tick client (.reading begun call pc') := by
  cases pc with
  | done status result => exact absurd rfl (hpc status result)
  | _ => simp only [machine, hthread]

end SharedDB

end YcsbC
