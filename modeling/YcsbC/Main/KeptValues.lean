import YcsbC.Core.Client
import YcsbC.Db.DBFactory
import YcsbC.Db.EngineWrites

/-!
# The values of a record

RocksDB and LevelDB have one value for a key, and the adapters put the values of a list
one over the other.  For RocksDB alone `Init` makes a record of one field.  A write on
LevelDB loses all its values but the last, unless there is one field or it is an update
of one field (`keepsValues_iff`).

The puts of a write are read off a trace that the engine keeps beside its state.
-/

namespace YcsbC

/-! ## The puts of an engine -/

/-- The state of an engine and the puts it has got, the oldest first. -/
structure Traced (σ : Type) where
  /-- The state. -/
  db : σ
  /-- The puts. -/
  puts : List (Str × Str) := []

/-- An engine that keeps a trace of its puts. -/
def Engine.traced {σ ι : Type} (E : Engine σ ι) : Engine (Traced σ) ι where
  put options s key value :=
    let (status, db) := E.put options s.db key value
    (status, ⟨db, s.puts ++ [(key, value)]⟩)
  get s key := E.get s.db key
  newIterator s := E.newIterator s.db
  seek := E.seek
  valid := E.valid
  key := E.key
  value := E.value
  next := E.next

theorem Engine.Puts.traced {σ ι : Type} {E : Engine σ ι} {records : σ → Records}
    (hputs : E.Puts records) : E.traced.Puts fun s => records s.db :=
  fun options s key value => hputs options s.db key value

namespace EngineDB

variable {σ ι : Type} {E : Engine σ ι} {records : σ → Records}

variable (records) in
/-- A write has kept its values: none of its puts was put over another, and each value is
there. -/
structure KeepsValues (values : List KVPair) (s s' : Traced σ) : Prop where
  /-- The puts of the write are under different keys. -/
  puts : ∃ puts, s'.puts = s.puts ++ puts ∧ puts.Pairwise fun put later => put.1 ≠ later.1
  /-- The values are there. -/
  values : ∀ pair ∈ values, ∃ key : Str, (records s'.db)[key]? = some pair.2

/-- The loop of `Insert` puts the values under the key. -/
theorem puts_of_putValues {options : WriteOptions} {key : Str} {values : List KVPair}
    {s s' : Traced σ} (hput : putValues E.traced options key values s = some s') :
    s'.puts = s.puts ++ values.map fun pair => (key, pair.2) := by
  induction values generalizing s with
  | nil =>
      cases hput
      simp
  | cons pair values ih =>
      rw [putValues] at hput
      dsimp only at hput
      split at hput
      next =>
        rw [ih hput]
        simp [Engine.traced]
      next => cases hput

theorem pairwise_ne_key_iff {key : Str} {values : List KVPair} :
    ((values.map fun pair => (key, pair.2)).Pairwise fun put later => put.1 ≠ later.1) ↔
      values.length ≤ 1 := by
  cases values with
  | nil => simp
  | cons pair values =>
      cases values with
      | nil => simp
      | cons pair' values => simp

/-- An `Insert` or `Update` keeps its values exactly when there is at most one. -/
theorem keepsValues_of_insertValues (hputs : E.Puts records) {options : WriteOptions} {key : Str}
    {values : List KVPair} {s s' : EngineDB (Traced σ)} {code : ℤ}
    (hinsert : s.insertValues E.traced options key values = some (code, s')) :
    KeepsValues records values s.db s'.db ↔ values.length ≤ 1 := by
  obtain ⟨db, hput, heq⟩ := Option.map_eq_some_iff.mp hinsert
  cases heq
  have htrace := puts_of_putValues hput
  constructor
  · rintro ⟨⟨puts, hputs, hpairwise⟩, -⟩
    rw [htrace] at hputs
    obtain rfl := List.append_cancel_left hputs
    exact pairwise_ne_key_iff.mp hpairwise
  · intro hlength
    refine ⟨⟨_, htrace, pairwise_ne_key_iff.mpr hlength⟩, ?_⟩
    intro pair hpair
    obtain ⟨db', hput', hlast, -⟩ := exists_putValues hputs.traced options key values s.db
    cases hput.symm.trans hput'
    cases values with
    | nil => cases hpair
    | cons pair' values =>
        obtain rfl := List.eq_nil_of_length_eq_zero (Nat.le_zero.mp (Nat.le_of_succ_le_succ hlength))
        obtain rfl := List.mem_singleton.mp hpair
        exact ⟨key, hlast⟩

/-- `Read` leaves the engine as it is. -/
theorem db_of_readValue {s s' : EngineDB σ} {key : Str} {code : ℤ} {result : List KVPair}
    (hread : s.readValue E key = some (code, result, s')) : s'.db = s.db := by
  rw [readValue] at hread
  dsimp only at hread
  split at hread
  · cases hread
    rfl
  · cases hread
    rfl
  · cases hread

end EngineDB

/-- The adapter of what `CreateDB` constructs. -/
def CreatedDB.adapter? : CreatedDB → Option Adapter
  | basic => none
  | rocksdb _ _ => some .rocksdb
  | leveldb _ _ => some .leveldb

/-! ## The client -/

/-- A call of the loop of `DelegateClient`. -/
inductive BenchCall (δ : Type) where
  /-- `DoInsert`. -/
  | doInsert (values : ℕ → CoreWorkload.ValueDraw)
  /-- `DoTransaction`. -/
  | doTransaction (draws : TransactionDraws δ)

/-- A write of the client. -/
inductive ClientWrite where
  /-- `DoInsert`. -/
  | doInsert
  /-- `TransactionInsert`. -/
  | transactionInsert
  /-- `TransactionUpdate`. -/
  | transactionUpdate
  /-- `TransactionReadModifyWrite`. -/
  | transactionReadModifyWrite
deriving DecidableEq, Repr

/-- A write that calls `Update`. -/
def ClientWrite.updates : ClientWrite → Bool
  | doInsert | transactionInsert => false
  | transactionUpdate | transactionReadModifyWrite => true

namespace Bench

variable {σ χ δ ι : Type} (db : DB σ) (next : χ → δ → Option (UInt64 × χ))

/-- The calls of clients, one after the other. -/
def clientCalls : Machine (Bench σ χ) (BenchCall δ) where
  step s
    | .doInsert values => (s.doInsert db values).map Prod.snd
    | .doTransaction draws => (s.doTransaction db next draws).map Prod.snd

/-- A write of the client, on the draws of a transaction. -/
def write (s : Bench σ χ) (write : ClientWrite) (draws : TransactionDraws δ) :
    Option (Bench σ χ) :=
  match write with
  | .doInsert => (s.doInsert db draws.values).map Prod.snd
  | .transactionInsert => (s.transactionInsert db draws).map Prod.snd
  | .transactionUpdate => (s.transactionUpdate db next draws).map Prod.snd
  | .transactionReadModifyWrite => (s.transactionReadModifyWrite db next draws).map Prod.snd

/-- The values that a write passes to the adapter. -/
def writeValues (s : Bench σ χ) (write : ClientWrite) (draws : TransactionDraws δ) : List KVPair :=
  match write with
  | .doInsert | .transactionInsert => s.wl.buildValues draws.values
  | .transactionUpdate | .transactionReadModifyWrite => s.updateValues draws

variable {db next} {s s' : Bench σ χ}

/-- The settings of a workload that say which values are written. -/
def SameSettings (wl wl' : CoreWorkload) : Prop :=
  wl.fieldCount = wl'.fieldCount ∧ wl.writeAllFields = wl'.writeAllFields

theorem sameSettings_nextSequenceKey : SameSettings s.nextSequenceKey.2.wl s.wl := ⟨rfl, rfl⟩

theorem sameSettings_doInsert {values : ℕ → CoreWorkload.ValueDraw} {ok : Bool}
    (hinsert : s.doInsert db values = some (ok, s')) : SameSettings s'.wl s.wl := by
  obtain ⟨⟨code, s₁⟩, hinsert, heq⟩ := Option.map_eq_some_iff.mp hinsert
  cases heq
  rw [wl_of_insert hinsert]
  exact sameSettings_nextSequenceKey

theorem sameSettings_transaction {draws : TransactionDraws δ} {code : ℤ}
    (htransaction : s.transaction db next draws = some (code, s')) : SameSettings s'.wl s.wl := by
  by_cases hop : draws.op = .INSERT
  · rw [transaction, hop] at htransaction
    rw [wl_of_insert htransaction]
    exact sameSettings_nextSequenceKey
  · rw [wl_of_transaction hop htransaction]
    exact ⟨rfl, rfl⟩

/-- No call of a client changes the settings. -/
theorem sameSettings_step {wl : CoreWorkload} {call : BenchCall δ}
    (hsettings : SameSettings s.wl wl)
    (hstep : (clientCalls db next).step s call = some s') : SameSettings s'.wl wl := by
  have hsame : SameSettings s'.wl s.wl := by
    cases call with
    | doInsert values =>
        obtain ⟨⟨ok, s₁⟩, hinsert, rfl⟩ := Option.map_eq_some_iff.mp hstep
        exact sameSettings_doInsert hinsert
    | doTransaction draws =>
        obtain ⟨⟨ok, s₁⟩, hdo, rfl⟩ := Option.map_eq_some_iff.mp hstep
        obtain ⟨⟨code, s₂⟩, htransaction, hcode⟩ := Option.bind_eq_some_iff.mp hdo
        dsimp only at hcode
        split at hcode
        · cases hcode
          exact sameSettings_transaction htransaction
        · cases hcode
  exact ⟨hsame.1.trans hsettings.1, hsame.2.trans hsettings.2⟩

end Bench

/-! ## The client on an adapter -/

namespace EngineDB

variable {σ χ δ ι : Type} {E : Engine σ ι} {records : σ → Records} {adapter : Adapter}
  {next : χ → δ → Option (UInt64 × χ)}

section Calls

variable {s s' : Bench (EngineDB σ) χ} {table key : Str} {code : ℤ}

theorem insertValues_of_insert {values : List KVPair}
    (hinsert : s.insert (adapter.asDB E) table key values = some (code, s')) :
    s.store.insertValues E (adapter.options s.store) key values = some (code, s'.store) := by
  obtain ⟨⟨code', store⟩, hcall, heq⟩ := Option.map_eq_some_iff.mp hinsert
  cases heq
  exact (adapter.insert_eq E s.store table key values).symm.trans hcall

theorem insertValues_of_update {values : List KVPair}
    (hupdate : s.update (adapter.asDB E) table key values = some (code, s')) :
    s.store.insertValues E (adapter.options s.store) key values = some (code, s'.store) := by
  obtain ⟨⟨code', store⟩, hcall, heq⟩ := Option.map_eq_some_iff.mp hupdate
  cases heq
  exact (adapter.update_eq E s.store table key values).symm.trans hcall

theorem db_of_read {fields : Option (List Str)}
    (hread : s.read (adapter.asDB E) table key fields = some (code, s')) :
    s'.store.db = s.store.db := by
  obtain ⟨⟨code', result, store⟩, hcall, heq⟩ := Option.map_eq_some_iff.mp hread
  cases heq
  exact db_of_readValue ((adapter.read_eq E s.store table key fields).symm.trans hcall)

theorem store_of_nextTransactionKey {draws : List δ} {name : Str}
    (hkey : s.nextTransactionKey next draws = some (name, s')) : s'.store = s.store := by
  obtain ⟨result, -, heq⟩ := Option.map_eq_some_iff.mp hkey
  cases heq
  rfl

end Calls

/-- A write is one call of `Insert` or `Update` with its values, on the engine as it was. -/
theorem exists_insertValues {s s' : Bench (EngineDB σ) χ} {write : ClientWrite}
    {draws : TransactionDraws δ} (hwrite : s.write (adapter.asDB E) next write draws = some s') :
    ∃ (store : EngineDB σ) (options : WriteOptions) (key : Str) (code : ℤ),
      store.db = s.store.db ∧
      store.insertValues E options key (s.writeValues write draws) = some (code, s'.store) := by
  cases write with
  | doInsert =>
      obtain ⟨⟨ok, s₁⟩, hdo, rfl⟩ := Option.map_eq_some_iff.mp hwrite
      obtain ⟨⟨code, s₂⟩, hinsert, heq⟩ := Option.map_eq_some_iff.mp hdo
      cases heq
      have hcall := insertValues_of_insert hinsert
      exact ⟨_, _, _, code, rfl, hcall⟩
  | transactionInsert =>
      obtain ⟨⟨code, s₁⟩, hinsert, rfl⟩ := Option.map_eq_some_iff.mp hwrite
      have hcall := insertValues_of_insert hinsert
      exact ⟨_, _, _, code, rfl, hcall⟩
  | transactionUpdate =>
      obtain ⟨⟨code, s₁⟩, hdo, rfl⟩ := Option.map_eq_some_iff.mp hwrite
      obtain ⟨⟨name, s₂⟩, hkey, hupdate⟩ := Option.bind_eq_some_iff.mp hdo
      have hcall := insertValues_of_update hupdate
      rw [Bench.updateValues, Bench.wl_of_nextTransactionKey hkey] at hcall
      exact ⟨_, _, _, code, by rw [store_of_nextTransactionKey hkey], hcall⟩
  | transactionReadModifyWrite =>
      obtain ⟨⟨code, s₁⟩, hdo, rfl⟩ := Option.map_eq_some_iff.mp hwrite
      obtain ⟨⟨name, s₂⟩, hkey, hrest⟩ := Option.bind_eq_some_iff.mp hdo
      obtain ⟨⟨code', s₃⟩, hread, hupdate⟩ := Option.bind_eq_some_iff.mp hrest
      have hcall := insertValues_of_update hupdate
      rw [Bench.updateValues, Bench.wl_of_read hread, Bench.wl_of_nextTransactionKey hkey] at hcall
      exact ⟨_, _, _, code, by rw [db_of_read hread, store_of_nextTransactionKey hkey], hcall⟩

/-- The settings that `Init` leaves for the database that is constructed. -/
theorem sameSettings_init {p : Properties} {db : CreatedDB} (hadapter : db.adapter? = some adapter)
    (hname : p.dbname = db.name) {wl : CoreWorkload}
    (hsettings : Bench.SameSettings wl (CoreWorkload.init p)) :
    adapter = .rocksdb ∧ wl.fieldCount = 1 ∧ wl.writeAllFields = true ∨
      adapter = .leveldb ∧ wl.fieldCount = p.fieldCount ∧
        wl.writeAllFields = p.writeAllFields := by
  obtain ⟨hfields, hall⟩ := hsettings
  rw [hfields, hall, CoreWorkload.init, hname]
  cases db with
  | basic => cases hadapter
  | rocksdb dbPath dbConfig =>
      cases hadapter
      exact .inl ⟨rfl, rfl, rfl⟩
  | leveldb dbPath dbConfig =>
      cases hadapter
      exact .inr ⟨rfl, rfl, rfl⟩

theorem length_buildValues (wl : CoreWorkload) (draw : ℕ → CoreWorkload.ValueDraw) :
    (wl.buildValues draw).length = wl.fieldCount.toInt.toNat := by
  simp [CoreWorkload.buildValues]

theorem length_updateValues (s : Bench σ χ) (draws : TransactionDraws δ) :
    (s.updateValues draws).length =
      if s.wl.writeAllFields then s.wl.fieldCount.toInt.toNat else 1 := by
  cases hall : s.wl.writeAllFields with
  | true => simp [Bench.updateValues, hall, length_buildValues]
  | false => simp [Bench.updateValues, hall, CoreWorkload.buildUpdate]

/-- An update of one field passes one value, and any other write one for each field. -/
theorem length_writeValues (s : Bench σ χ) (write : ClientWrite) (draws : TransactionDraws δ) :
    (s.writeValues write draws).length =
      if write.updates && !s.wl.writeAllFields then 1 else s.wl.fieldCount.toInt.toNat := by
  cases write with
  | doInsert => exact length_buildValues s.wl draws.values
  | transactionInsert => exact length_buildValues s.wl draws.values
  | transactionUpdate =>
      rw [Bench.writeValues, length_updateValues]
      cases s.wl.writeAllFields <;> rfl
  | transactionReadModifyWrite =>
      rw [Bench.writeValues, length_updateValues]
      cases s.wl.writeAllFields <;> rfl

theorem toNat_fieldCount_le_one_iff {fieldCount : Int32} (hfields : 1 ≤ fieldCount.toInt) :
    fieldCount.toInt.toNat ≤ 1 ↔ fieldCount = 1 := by
  have hone : (1 : Int32).toInt = 1 := rfl
  rw [← Int32.toInt_inj, hone]
  omega

/-- A write on an adapter that `CreateDB` constructs keeps its values exactly on RocksDB,
with one field, or when it is an update of one field. -/
theorem keepsValues_iff (hputs : E.Puts records) {props : Utils.Properties} {created : CreatedDB}
    (hcreate : createDB props = .ok (some created)) (hadapter : created.adapter? = some adapter)
    {p : Properties} (hdbname : p.dbname = props.getProperty "dbname".toList [])
    (hfields : 1 ≤ p.fieldCount.toInt) {s₀ s s' : Bench (EngineDB (Traced σ)) χ}
    (hinit : s₀.wl = CoreWorkload.init p)
    (hreaches : (Bench.clientCalls (adapter.asDB E.traced) next).Reaches s₀ s)
    {write : ClientWrite} {draws : TransactionDraws δ}
    (hwrite : s.write (adapter.asDB E.traced) next write draws = some s') :
    KeepsValues records (s.writeValues write draws) s.store.db s'.store.db ↔
      adapter = .rocksdb ∨ p.fieldCount = 1 ∨ write.updates = true ∧ p.writeAllFields = false := by
  obtain ⟨store, options, key, code, hdb, hinsert⟩ := exists_insertValues hwrite
  have hname : p.dbname = created.name := by
    rw [hdbname, Utils.Properties.getProperty, dbname_of_createDB hcreate, Option.getD_some]
  have hsettings : Bench.SameSettings s.wl (CoreWorkload.init p) := by
    refine hreaches.invariant (fun _ _ _ => Bench.sameSettings_step) ?_
    rw [hinit]
    exact ⟨rfl, rfl⟩
  rw [← hdb, keepsValues_of_insertValues hputs hinsert, length_writeValues]
  rcases sameSettings_init hadapter hname hsettings with
    ⟨rfl, hcount, hall⟩ | ⟨rfl, hcount, hall⟩
  · simp [hcount, hall]
  · rw [hcount, hall]
    split
    next hone =>
      have hupdate : write.updates = true ∧ p.writeAllFields = false := by simpa using hone
      simp [hupdate]
    next hmany =>
      have hother : ¬ (write.updates = true ∧ p.writeAllFields = false) := by simpa using hmany
      rw [toNat_fieldCount_le_one_iff hfields]
      simp [hother]

/-- The properties that name LevelDB. -/
def leveldbProps : Utils.Properties :=
  Utils.Properties.empty.overlay
    [("dbname".toList, "leveldb".toList), ("dbPath".toList, "/tmp/db".toList)]

/-- The settings of a client of LevelDB with two fields. -/
def twoFields : Properties where
  dbname := "leveldb".toList
  fieldCount := 2
  recordCount := 1
  operationCount := 1

/-- The client before its first call. -/
def twoFieldsStart : Bench (EngineDB (Traced Records)) Unit :=
  ⟨{ db := ⟨∅, []⟩ }, CoreWorkload.init twoFields, (), []⟩

/-- Draws for the values `!` and `"`. -/
def twoValues : TransactionDraws Unit where
  op := .INSERT
  keys := []
  readField := 0
  scanLength := 1
  values i := ⟨1, i⟩
  updateField := 0
  updateValue := ⟨1, 0⟩

/-- The client does `DoInsert`. -/
theorem exists_doInsert_twoFields :
    ∃ s', twoFieldsStart.write (Adapter.leveldb.asDB treeEngine.traced) (fun _ _ => none)
      .doInsert twoValues = some s' :=
  ⟨_, rfl⟩

/-- The theorem at this call. -/
theorem keepsValues_iff_twoFields :
    ∃ s', twoFieldsStart.write (Adapter.leveldb.asDB treeEngine.traced) (fun _ _ => none)
      .doInsert twoValues = some s' ∧
    (KeepsValues id (twoFieldsStart.writeValues .doInsert twoValues) twoFieldsStart.store.db
        s'.store.db ↔
      Adapter.leveldb = .rocksdb ∨ twoFields.fieldCount = 1 ∨
        ClientWrite.doInsert.updates = true ∧ twoFields.writeAllFields = false) := by
  obtain ⟨s', hwrite⟩ := exists_doInsert_twoFields
  have hcreate : createDB leveldbProps = .ok (some (.leveldb "/tmp/db".toList [])) := rfl
  exact ⟨s', hwrite, keepsValues_iff puts_treeEngine hcreate rfl rfl (by decide) rfl
    (Machine.Reaches.refl _ _) hwrite⟩

/-- The second value is put over the first. -/
theorem not_keepsValues_twoFields :
    ∃ s', twoFieldsStart.write (Adapter.leveldb.asDB treeEngine.traced) (fun _ _ => none)
      .doInsert twoValues = some s' ∧
    ¬ KeepsValues id (twoFieldsStart.writeValues .doInsert twoValues) twoFieldsStart.store.db
        s'.store.db := by
  obtain ⟨s', hwrite⟩ := exists_doInsert_twoFields
  refine ⟨s', hwrite, ?_⟩
  obtain ⟨store, options, key, code, hdb, hinsert⟩ := exists_insertValues hwrite
  rw [← hdb, keepsValues_of_insertValues puts_treeEngine hinsert, length_writeValues]
  decide

end EngineDB

end YcsbC
