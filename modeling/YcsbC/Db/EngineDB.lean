import YcsbC.Core.DB
import YcsbC.Core.KeyName
import YcsbC.Db.Engine

/-!
# The adapters for RocksDB and LevelDB

Both adapters keep a record under its bare key: the table is not looked at, and of a
list of pairs only the values are put, one after the other.  They are written twice, once
for each engine, and differ in the options of a write.
-/

namespace YcsbC

/-- An adapter. -/
structure EngineDB (σ : Type) where
  /-- `db_`. -/
  db : σ
  /-- `noResult`. -/
  noResult : UInt32 := 0
  /-- `disableWAL_`. -/
  disableWAL : Bool := false
  /-- The lines printed to `cout`. -/
  cout : List Str := []
  /-- The lines printed to `cerr`. -/
  cerr : List Str := []

namespace EngineDB

variable {σ ι : Type} (E : Engine σ ι) (s : EngineDB σ)

/-- The body of `Read`.  A status other than found and not found exits the program. -/
def readValue (key : Str) : Option (ℤ × List KVPair × EngineDB σ) :=
  let (status, _) := E.get s.db key
  match status with
  | .ok => some (kOK, [], s)
  | .notFound =>
      let noResult := s.noResult + 1
      let line := toStr noResult.toNat ++ "not found".toList
      some (kOK, [], { s with noResult := noResult, cout := s.cout ++ [line] })
  | .error _ => none

/-- The variables of the loop of `Scan`. -/
structure ScanLoop (ι : Type) where
  /-- `it`. -/
  it : ι
  /-- `k`. -/
  k : Str
  /-- `val`. -/
  val : Str
  /-- `i`. -/
  i : ℕ
  /-- `cnt`. -/
  cnt : ℕ

/-- The loop of `Scan`, which has some turns left until `i` is `len`. -/
def scanLoop : ℕ → ScanLoop ι → Option (ScanLoop ι)
  | 0, loop => some loop
  | turns + 1, loop =>
      if E.valid loop.it then do
        let k ← E.key loop.it
        let val ← E.value loop.it
        let it ← E.next loop.it
        let cnt := if val.isEmpty then loop.cnt + 1 else loop.cnt
        scanLoop turns ⟨it, k, val, loop.i + 1, cnt⟩
      else some loop

/-- The line that `Scan` prints when it has not read as many records as asked. -/
def shortScan (i : ℕ) (len : Int32) : Str :=
  " get ".toList ++ toStr i ++ " for length ".toList ++ toStr len.toInt.toNat ++ ".".toList

/-- The body of `Scan`. -/
def scanRecords (key : Str) (len : Int32) : Option (ℤ × List (List KVPair) × EngineDB σ) := do
  let it := E.seek (E.newIterator s.db) key
  let loop ← scanLoop E len.toInt.toNat ⟨it, [], [], 0, 0⟩
  let short := if (loop.i : ℤ) < len.toInt then [shortScan loop.i len] else []
  let empty := if loop.cnt > 0 then [toStr loop.cnt ++ "empty values".toList] else []
  some (kOK, [], { s with cout := s.cout ++ short ++ empty, cerr := s.cerr ++ short })

/-- The loop of `Insert`, which exits the program when a `Put` fails. -/
def putValues (options : WriteOptions) (key : Str) : List KVPair → σ → Option σ
  | [], db => some db
  | pair :: values, db =>
      let (status, db) := E.put options db key pair.2
      if status = .ok then putValues options key values db else none

/-- The body of `Insert`. -/
def insertValues (options : WriteOptions) (key : Str) (values : List KVPair) :
    Option (ℤ × EngineDB σ) :=
  (putValues E options key values s.db).map fun db => (kOK, { s with db := db })

end EngineDB

/-! ## The functions of the adapters -/

namespace RocksDB

variable {σ ι : Type} (E : Engine σ ι) (s : EngineDB σ)

/-- `RocksDB::Read`. -/
def read (_table key : Str) (_fields : Option (List Str)) :
    Option (ℤ × List KVPair × EngineDB σ) :=
  s.readValue E key

/-- `RocksDB::Scan`. -/
def scan (_table key : Str) (len : Int32) (_fields : Option (List Str)) :
    Option (ℤ × List (List KVPair) × EngineDB σ) :=
  s.scanRecords E key len

/-- `RocksDB::Insert`. -/
def insert (_table key : Str) (values : List KVPair) : Option (ℤ × EngineDB σ) :=
  s.insertValues E { disableWAL := s.disableWAL } key values

/-- `RocksDB::Update`. -/
def update (table key : Str) (values : List KVPair) : Option (ℤ × EngineDB σ) :=
  insert E s table key values

/-- `RocksDB::Delete`. -/
def delete (table key : Str) : Option (ℤ × EngineDB σ) := insert E s table key []

end RocksDB

namespace LevelDB

variable {σ ι : Type} (E : Engine σ ι) (s : EngineDB σ)

/-- `LevelDB::Read`. -/
def read (_table key : Str) (_fields : Option (List Str)) :
    Option (ℤ × List KVPair × EngineDB σ) :=
  s.readValue E key

/-- `LevelDB::Scan`. -/
def scan (_table key : Str) (len : Int32) (_fields : Option (List Str)) :
    Option (ℤ × List (List KVPair) × EngineDB σ) :=
  s.scanRecords E key len

/-- `LevelDB::Insert`, which leaves the options at their defaults. -/
def insert (_table key : Str) (values : List KVPair) : Option (ℤ × EngineDB σ) :=
  s.insertValues E {} key values

/-- `LevelDB::Update`. -/
def update (table key : Str) (values : List KVPair) : Option (ℤ × EngineDB σ) :=
  insert E s table key values

/-- `LevelDB::Delete`. -/
def delete (table key : Str) : Option (ℤ × EngineDB σ) := insert E s table key []

end LevelDB

/-! ## One of the two adapters -/

/-- An adapter for an engine. -/
inductive Adapter where
  | rocksdb
  | leveldb
deriving DecidableEq, Repr

namespace Adapter

variable {σ ι : Type} (E : Engine σ ι) (adapter : Adapter)

/-- `Read`. -/
def read (s : EngineDB σ) (table key : Str) (fields : Option (List Str)) :
    Option (ℤ × List KVPair × EngineDB σ) :=
  match adapter with
  | rocksdb => RocksDB.read E s table key fields
  | leveldb => LevelDB.read E s table key fields

/-- `Scan`. -/
def scan (s : EngineDB σ) (table key : Str) (len : Int32) (fields : Option (List Str)) :
    Option (ℤ × List (List KVPair) × EngineDB σ) :=
  match adapter with
  | rocksdb => RocksDB.scan E s table key len fields
  | leveldb => LevelDB.scan E s table key len fields

/-- `Insert`. -/
def insert (s : EngineDB σ) (table key : Str) (values : List KVPair) :
    Option (ℤ × EngineDB σ) :=
  match adapter with
  | rocksdb => RocksDB.insert E s table key values
  | leveldb => LevelDB.insert E s table key values

/-- `Update`. -/
def update (s : EngineDB σ) (table key : Str) (values : List KVPair) :
    Option (ℤ × EngineDB σ) :=
  match adapter with
  | rocksdb => RocksDB.update E s table key values
  | leveldb => LevelDB.update E s table key values

/-- `Delete`. -/
def delete (s : EngineDB σ) (table key : Str) : Option (ℤ × EngineDB σ) :=
  match adapter with
  | rocksdb => RocksDB.delete E s table key
  | leveldb => LevelDB.delete E s table key

/-- The adapter as a `DB`. -/
def asDB : DB (EngineDB σ) where
  read := adapter.read E
  scan := adapter.scan E
  update := adapter.update E
  insert := adapter.insert E

/-- The options of a write. -/
def options (s : EngineDB σ) : WriteOptions :=
  match adapter with
  | rocksdb => { disableWAL := s.disableWAL }
  | leveldb => {}

@[simp] theorem read_eq (s : EngineDB σ) (table key : Str) (fields : Option (List Str)) :
    adapter.read E s table key fields = s.readValue E key := by
  cases adapter <;> rfl

@[simp] theorem scan_eq (s : EngineDB σ) (table key : Str) (len : Int32)
    (fields : Option (List Str)) :
    adapter.scan E s table key len fields = s.scanRecords E key len := by
  cases adapter <;> rfl

@[simp] theorem insert_eq (s : EngineDB σ) (table key : Str) (values : List KVPair) :
    adapter.insert E s table key values = s.insertValues E (adapter.options s) key values := by
  cases adapter <;> rfl

@[simp] theorem update_eq (s : EngineDB σ) (table key : Str) (values : List KVPair) :
    adapter.update E s table key values = s.insertValues E (adapter.options s) key values := by
  cases adapter <;> rfl

@[simp] theorem delete_eq (s : EngineDB σ) (table key : Str) :
    adapter.delete E s table key = s.insertValues E (adapter.options s) key [] := by
  cases adapter <;> rfl

end Adapter

end YcsbC
