import YcsbC.Core.CoreWorkload
import YcsbC.Core.DB

/-!
# The client

`DoInsert` and `DoTransaction` on a database and a workload that several clients may
share.  The state carries the return codes of all database calls so far, also those
that a transaction drops.  A transaction whose key loop the random draws do not end, or
in which a database call does not return, gives nothing.
-/

namespace YcsbC

/-- What clients share: the store, the workload and its `key_chooser_`, and the return
codes of the database calls they have made. -/
structure Bench (σ χ : Type*) where
  /-- The state of the database. -/
  store : σ
  /-- `workload_`. -/
  wl : CoreWorkload
  /-- `key_chooser_`. -/
  keyChooser : χ
  /-- The codes returned so far. -/
  codes : List ℤ

/-- The random draws of one transaction. -/
structure TransactionDraws (δ : Type*) where
  /-- `op_chooser_`. -/
  op : Operation
  /-- The draws of `key_chooser_` in the loop of `NextTransactionKey`. -/
  keys : List δ
  /-- `field_chooser_` for the field to read. -/
  readField : UInt64
  /-- `scan_len_chooser_`. -/
  scanLength : UInt64
  /-- The draws of `BuildValues`. -/
  values : ℕ → CoreWorkload.ValueDraw
  /-- `field_chooser_` for the field to update. -/
  updateField : UInt64
  /-- The draw of the value in `BuildUpdate`. -/
  updateValue : CoreWorkload.ValueDraw

namespace Bench

variable {σ χ δ : Type*} (db : DB σ) (next : χ → δ → Option (UInt64 × χ))

/-! ## Calls of the database and the workload -/

/-- `db_.Read`. -/
def read (s : Bench σ χ) (table key : Str) (fields : Option (List Str)) :
    Option (ℤ × Bench σ χ) :=
  (db.read s.store table key fields).map fun (status, _, store) =>
    (status, { s with store := store, codes := s.codes ++ [status] })

/-- `db_.Scan`. -/
def scan (s : Bench σ χ) (table key : Str) (len : Int32) (fields : Option (List Str)) :
    Option (ℤ × Bench σ χ) :=
  (db.scan s.store table key len fields).map fun (status, _, store) =>
    (status, { s with store := store, codes := s.codes ++ [status] })

/-- `db_.Update`. -/
def update (s : Bench σ χ) (table key : Str) (values : List KVPair) : Option (ℤ × Bench σ χ) :=
  (db.update s.store table key values).map fun (status, store) =>
    (status, { s with store := store, codes := s.codes ++ [status] })

/-- `db_.Insert`. -/
def insert (s : Bench σ χ) (table key : Str) (values : List KVPair) : Option (ℤ × Bench σ χ) :=
  (db.insert s.store table key values).map fun (status, store) =>
    (status, { s with store := store, codes := s.codes ++ [status] })

/-- `workload_.NextSequenceKey()`. -/
def nextSequenceKey (s : Bench σ χ) : Str × Bench σ χ :=
  let (key, wl) := s.wl.nextSequenceKey
  (key, { s with wl := wl })

/-- `workload_.NextTransactionKey()`. -/
def nextTransactionKey (s : Bench σ χ) (draws : List δ) : Option (Str × Bench σ χ) :=
  (s.wl.nextTransactionKey next s.keyChooser draws).map fun (key, keyChooser) =>
    (key, { s with keyChooser := keyChooser })

/-- The fields that a read asks for. -/
def readFields (s : Bench σ χ) (draw : UInt64) : Option (List Str) :=
  if !s.wl.readAllFields then some ["field".toList ++ CoreWorkload.nextFieldName draw] else none

/-- The values that an update writes. -/
def updateValues (s : Bench σ χ) (draws : TransactionDraws δ) : List KVPair :=
  if s.wl.writeAllFields then s.wl.buildValues draws.values
  else CoreWorkload.buildUpdate draws.updateField draws.updateValue

/-! ## Transactions -/

/-- `DoInsert`. -/
def doInsert (s : Bench σ χ) (values : ℕ → CoreWorkload.ValueDraw) :
    Option (Bool × Bench σ χ) :=
  let (key, s) := s.nextSequenceKey
  (s.insert db s.wl.tableName key (s.wl.buildValues values)).map fun (status, s) =>
    (status == kOK, s)

/-- `TransactionRead`. -/
def transactionRead (s : Bench σ χ) (draws : TransactionDraws δ) : Option (ℤ × Bench σ χ) := do
  let (key, s) ← s.nextTransactionKey next draws.keys
  s.read db s.wl.tableName key (s.readFields draws.readField)

/-- `TransactionReadModifyWrite`, which drops the code of `Read`. -/
def transactionReadModifyWrite (s : Bench σ χ) (draws : TransactionDraws δ) :
    Option (ℤ × Bench σ χ) := do
  let (key, s) ← s.nextTransactionKey next draws.keys
  let (_, s) ← s.read db s.wl.tableName key (s.readFields draws.readField)
  s.update db s.wl.tableName key (s.updateValues draws)

/-- `TransactionScan`. -/
def transactionScan (s : Bench σ χ) (draws : TransactionDraws δ) : Option (ℤ × Bench σ χ) := do
  let (key, s) ← s.nextTransactionKey next draws.keys
  let len := draws.scanLength.toUInt32.toInt32
  s.scan db s.wl.tableName key len (s.readFields draws.readField)

/-- `TransactionUpdate`. -/
def transactionUpdate (s : Bench σ χ) (draws : TransactionDraws δ) : Option (ℤ × Bench σ χ) := do
  let (key, s) ← s.nextTransactionKey next draws.keys
  s.update db s.wl.tableName key (s.updateValues draws)

/-- `TransactionInsert`. -/
def transactionInsert (s : Bench σ χ) (draws : TransactionDraws δ) : Option (ℤ × Bench σ χ) :=
  let (key, s) := s.nextSequenceKey
  s.insert db s.wl.tableName key (s.wl.buildValues draws.values)

/-- The `switch` of `DoTransaction`. -/
def transaction (s : Bench σ χ) (draws : TransactionDraws δ) : Option (ℤ × Bench σ χ) :=
  match draws.op with
  | .READ => s.transactionRead db next draws
  | .UPDATE => s.transactionUpdate db next draws
  | .INSERT => s.transactionInsert db draws
  | .SCAN => s.transactionScan db next draws
  | .READMODIFYWRITE => s.transactionReadModifyWrite db next draws

/-- `DoTransaction`, whose `assert` wants a code that is not negative. -/
def doTransaction (s : Bench σ χ) (draws : TransactionDraws δ) : Option (Bool × Bench σ χ) := do
  let (status, s) ← s.transaction db next draws
  if status ≥ 0 then some (status == kOK, s) else none

/-! ## Calls that leave the workload alone -/

section Workload

variable {db next} {s s' : Bench σ χ} {table key : Str} {code : ℤ}

theorem wl_of_read {fields : Option (List Str)}
    (hread : s.read db table key fields = some (code, s')) : s'.wl = s.wl := by
  obtain ⟨result, -, heq⟩ := Option.map_eq_some_iff.mp hread
  cases heq
  rfl

theorem wl_of_scan {len : Int32} {fields : Option (List Str)}
    (hscan : s.scan db table key len fields = some (code, s')) : s'.wl = s.wl := by
  obtain ⟨result, -, heq⟩ := Option.map_eq_some_iff.mp hscan
  cases heq
  rfl

theorem wl_of_update {values : List KVPair}
    (hupdate : s.update db table key values = some (code, s')) : s'.wl = s.wl := by
  obtain ⟨result, -, heq⟩ := Option.map_eq_some_iff.mp hupdate
  cases heq
  rfl

theorem wl_of_insert {values : List KVPair}
    (hinsert : s.insert db table key values = some (code, s')) : s'.wl = s.wl := by
  obtain ⟨result, -, heq⟩ := Option.map_eq_some_iff.mp hinsert
  cases heq
  rfl

theorem wl_of_nextTransactionKey {draws : List δ} {name : Str}
    (hkey : s.nextTransactionKey next draws = some (name, s')) : s'.wl = s.wl := by
  obtain ⟨result, -, heq⟩ := Option.map_eq_some_iff.mp hkey
  cases heq
  rfl

/-- Only inserts move the counter of keys. -/
theorem wl_of_transaction {draws : TransactionDraws δ} (hop : draws.op ≠ .INSERT)
    (htransaction : s.transaction db next draws = some (code, s')) : s'.wl = s.wl := by
  rw [transaction] at htransaction
  cases hcase : draws.op with
  | INSERT => exact absurd hcase hop
  | READ =>
      rw [hcase] at htransaction
      obtain ⟨⟨name, s₁⟩, hkey, hread⟩ := Option.bind_eq_some_iff.mp htransaction
      rw [wl_of_read hread, wl_of_nextTransactionKey hkey]
  | UPDATE =>
      rw [hcase] at htransaction
      obtain ⟨⟨name, s₁⟩, hkey, hupdate⟩ := Option.bind_eq_some_iff.mp htransaction
      rw [wl_of_update hupdate, wl_of_nextTransactionKey hkey]
  | SCAN =>
      rw [hcase] at htransaction
      obtain ⟨⟨name, s₁⟩, hkey, hscan⟩ := Option.bind_eq_some_iff.mp htransaction
      rw [wl_of_scan hscan, wl_of_nextTransactionKey hkey]
  | READMODIFYWRITE =>
      rw [hcase] at htransaction
      obtain ⟨⟨name, s₁⟩, hkey, hrest⟩ := Option.bind_eq_some_iff.mp htransaction
      obtain ⟨⟨code', s₂⟩, hread, hupdate⟩ := Option.bind_eq_some_iff.mp hrest
      rw [wl_of_update hupdate, wl_of_read hread, wl_of_nextTransactionKey hkey]

end Workload

end Bench

end YcsbC
