import YcsbC.Core.Client
import YcsbC.Db.RecordFields
import YcsbC.Foundation.Machine

/-!
# A load and a run on the hashtable database

Clients load an empty `HashtableDB` by `DoInsert` and then work on it by
`DoTransaction`, whole calls in any order.  After `k` inserts the store holds a record
for each of the first `k` key numbers and no others, each with the fields that
`BuildValues` names (`Stored`).  So the next key is not there, and the keys of
transactions, which are those of the loaded records, are.

Keys are kept up to their NUL.  A table name that holds one makes all keys the same,
so it is one without (`load_then_run`, `conflict_nulTable`).
-/

namespace YcsbC

/-- A whole call of some client.  The database visits its elements in the given order. -/
inductive ClientCall (δ : Type*) where
  /-- `DoInsert`. -/
  | doInsert (order : IterationOrder) (values : ℕ → CoreWorkload.ValueDraw)
  /-- `DoTransaction`. -/
  | doTransaction (order : IterationOrder) (draws : TransactionDraws δ)

namespace Bench

open HashtableDB

variable {χ δ : Type*} (next : χ → δ → Option (UInt64 × χ))

/-- The machine of whole calls. -/
def calls : Machine (Bench HashtableDB χ) (ClientCall δ) where
  step s
    | .doInsert order values => (s.doInsert (asDB order) values).map Prod.snd
    | .doTransaction order draws => (s.doTransaction (asDB order) next draws).map Prod.snd

/-- An empty database and the workload as `Init` leaves it. -/
def start (p : Properties) (keyChooser : χ) : Bench HashtableDB χ :=
  ⟨.empty, .init p, keyChooser, []⟩

/-- The random draws of a call end the key loop, if it has one. -/
def KeyLoopEnds (s : Bench HashtableDB χ) : ClientCall δ → Prop
  | .doInsert .. => True
  | .doTransaction _ draws => draws.op ≠ .INSERT →
      (s.wl.nextTransactionKeyNum next s.keyChooser draws.keys).isSome

/-- `DoInsert` calls followed by `DoTransaction` calls. -/
def loadThenRun (loads : List (IterationOrder × (ℕ → CoreWorkload.ValueDraw)))
    (transactions : List (IterationOrder × TransactionDraws δ)) : List (ClientCall δ) :=
  (loads.map fun (order, values) => .doInsert order values) ++
    transactions.map fun (order, draws) => .doTransaction order draws

/-- The number of transactions that insert. -/
def inserts (transactions : List (IterationOrder × TransactionDraws δ)) : ℕ :=
  transactions.countP fun (_, draws) => draws.op = .INSERT

/-! ## The invariant -/

/-- The index string of a key number. -/
def index (p : Properties) (keyNum : ℕ) : Str :=
  p.table ++ (CoreWorkload.init p).keyName (.ofNat keyNum)

/-- The store after `k` inserts, none of which and no other call has failed. -/
structure Stored (p : Properties) (k : ℕ) (s : Bench HashtableDB χ) : Prop where
  wellFormed : s.store.WellFormed
  wl : s.wl = { CoreWorkload.init p with keyGenerator := ⟨.ofNat k⟩ }
  present : ∀ {j : ℕ}, j < k → ∃ fieldTable, s.store.recordTable (index p j) = some fieldTable
  record : ∀ {i : Str} {fieldTable : FieldHashtable}, NulFree i →
    s.store.recordTable i = some fieldTable →
      HasFields fieldTable (CoreWorkload.init p).fieldNames ∧ ∃ j < k, i = index p j
  size : s.store.keyTable.size = k
  codes : ∀ code ∈ s.codes, code = kOK

variable {next} {p : Properties} {k : ℕ} {s : Bench HashtableDB χ}

theorem nulFree_index (htable : NulFree p.table) (keyNum : ℕ) : NulFree (index p keyNum) :=
  nulFree_append.mpr ⟨htable, CoreWorkload.nulFree_keyName _ _⟩

/-- Key numbers below `2 ^ 32` have different index strings. -/
theorem index_inj {i j : ℕ} (hi : i < 2 ^ 32) (hj : j < 2 ^ 32) (heq : index p i = index p j) :
    i = j := by
  have hlt : ∀ {n : ℕ}, n < 2 ^ 32 → UInt64.ofNat n < 2 ^ 32 := by
    intro n hn
    rw [UInt64.lt_iff_toNat_lt, UInt64.toNat_ofNat', Nat.mod_eq_of_lt (by omega)]
    exact hn
  have hnum := CoreWorkload.buildKeyName_inj (hlt hi) (hlt hj) (List.append_cancel_left heq)
  have htoNat := congrArg UInt64.toNat hnum
  rwa [UInt64.toNat_ofNat', UInt64.toNat_ofNat', Nat.mod_eq_of_lt (by omega),
    Nat.mod_eq_of_lt (by omega)] at htoNat

theorem stored_start (hstart : p.insertStart = 0) (keyChooser : χ) :
    Stored p 0 (start p keyChooser) where
  wellFormed := wellFormed_empty
  wl := by
    have hzero : (CoreWorkload.init p).keyGenerator = ⟨.ofNat 0⟩ := by
      rw [CoreWorkload.keyGenerator_init, hstart]
      rfl
    rw [start, ← hzero]
  present hj := absurd hj (Nat.not_lt_zero _)
  record _ hrecord := by
    rw [start, recordTable_empty] at hrecord
    cases hrecord
  size := rfl
  codes _ hmem := absurd hmem List.not_mem_nil

theorem Stored.tableName (hs : Stored p k s) : s.wl.tableName = p.table := by
  rw [hs.wl, ← CoreWorkload.tableName_init]

theorem Stored.codes_append (hs : Stored p k s) : ∀ code ∈ s.codes ++ [kOK], code = kOK := by
  intro code hmem
  rcases List.mem_append.mp hmem with hold | hnew
  · exact hs.codes code hold
  · exact List.mem_singleton.mp hnew

/-! ## Database calls -/

theorem Stored.read (hs : Stored p k s) {j : ℕ} (hj : j < k) (order : IterationOrder)
    (fields : Option (List Str)) :
    ∃ s', s.read (asDB order) p.table ((CoreWorkload.init p).keyName (.ofNat j)) fields =
      some (kOK, s') ∧ Stored p k s' := by
  obtain ⟨fieldTable, hrecord⟩ := hs.present hj
  refine ⟨{ s with codes := s.codes ++ [kOK] }, ?_, { hs with codes := hs.codes_append }⟩
  rw [Bench.read, asDB_read, read_eq hs.wellFormed,
    show s.store.recordTable (p.table ++ _) = some fieldTable from hrecord]
  rfl

theorem Stored.scan (hs : Stored p k s) (order : IterationOrder) (key : Str) (len : Int32)
    (fields : Option (List Str)) :
    ∃ s', s.scan (asDB order) p.table key len fields = some (kOK, s') ∧ Stored p k s' := by
  obtain ⟨result, hscan⟩ := scan_spec hs.wellFormed p.table key order len fields
  refine ⟨{ s with codes := s.codes ++ [kOK] }, ?_, { hs with codes := hs.codes_append }⟩
  rw [Bench.scan, asDB_scan, hscan]
  rfl

/-- Setting the record of one key number, a new one or not. -/
theorem Stored.sets (hs : Stored p k s) (htable : NulFree p.table) {j k' : ℕ}
    (hrange : ∀ i, i < k' ↔ i < k ∨ i = j) {fieldTable : FieldHashtable} {db : HashtableDB}
    (hsets : Sets s.store (index p j) (some fieldTable) db)
    (hfields : HasFields fieldTable (CoreWorkload.init p).fieldNames) {wl : CoreWorkload}
    (hwl : wl = { CoreWorkload.init p with keyGenerator := ⟨.ofNat k'⟩ })
    (hsize : db.keyTable.size = k') :
    Stored p k' { s with store := db, wl := wl, codes := s.codes ++ [kOK] } where
  wellFormed := hsets.wellFormed
  wl := hwl
  present := by
    intro i hi
    by_cases heq : index p i = index p j
    · exact ⟨fieldTable, by rw [heq]; exact hsets.self⟩
    · cases (hrange i).mp hi with
      | inl hlt =>
          obtain ⟨old, hold⟩ := hs.present hlt
          exact ⟨old, (hsets.other_of_ne (nulFree_index htable j) (nulFree_index htable i)
            heq).trans hold⟩
      | inr hij => exact absurd (congrArg (index p) hij) heq
  record := by
    intro i fieldTable' hfree hrecord
    by_cases heq : i = index p j
    · rw [heq, hsets.self] at hrecord
      cases hrecord
      exact ⟨hfields, j, (hrange j).mpr (Or.inr rfl), heq⟩
    · have hsame := hsets.other_of_ne (nulFree_index htable j) hfree heq
      obtain ⟨hfields', i', hi', heq'⟩ := hs.record hfree (hsame.symm.trans hrecord)
      exact ⟨hfields', i', (hrange i').mpr (Or.inl hi'), heq'⟩
  size := hsize
  codes := hs.codes_append

theorem Stored.update (hs : Stored p k s) (htable : NulFree p.table) {j : ℕ} (hj : j < k)
    (order : IterationOrder) {values : List KVPair} (hvalues : NulFreeValues values)
    (hnames : ∀ pair ∈ values, pair.1 ∈ (CoreWorkload.init p).fieldNames) :
    ∃ s', s.update (asDB order) p.table ((CoreWorkload.init p).keyName (.ofNat j)) values =
      some (kOK, s') ∧ Stored p k s' := by
  obtain ⟨fieldTable, hrecord⟩ := hs.present hj
  obtain ⟨db, hupdate, hsets⟩ := update_spec hs.wellFormed p.table
    ((CoreWorkload.init p).keyName (.ofNat j)) values
  simp only [show s.store.recordTable (p.table ++ _) = _ from hrecord] at hsets
  have hfields := (hs.record (nulFree_index htable j) hrecord).1.updateFields hvalues hnames
  have hsize : db.keyTable.size = k := by
    have hsets' := hsets.size
    rw [show s.store.recordTable (p.table ++ _) = _ from hrecord, hs.size] at hsets'
    exact Nat.add_right_cancel hsets'
  refine ⟨_, ?_, hs.sets htable (fun i => by omega) hsets hfields hs.wl hsize⟩
  rw [Bench.update, asDB_update, hupdate]
  rfl

/-- The next insert meets no record, since its key number has not been used. -/
theorem Stored.insert (hs : Stored p k s) (htable : NulFree p.table) (hk : k < 2 ^ 32)
    (order : IterationOrder) (values : ℕ → CoreWorkload.ValueDraw) :
    ∃ s', s.nextSequenceKey.2.insert (asDB order) s.nextSequenceKey.2.wl.tableName
        s.nextSequenceKey.1 (s.nextSequenceKey.2.wl.buildValues values) = some (kOK, s') ∧
      Stored p (k + 1) s' := by
  have habsent : s.store.recordTable (index p k) = none := by
    by_contra hne
    obtain ⟨fieldTable, hrecord⟩ := Option.ne_none_iff_exists'.mp hne
    obtain ⟨-, j, hj, heq⟩ := hs.record (nulFree_index htable k) hrecord
    exact absurd (index_inj hk (hj.trans hk) heq) hj.ne'
  -- the call as it is made under this invariant
  have hcall : s.nextSequenceKey = ((CoreWorkload.init p).keyName (.ofNat k),
      { s with wl := { CoreWorkload.init p with keyGenerator := ⟨.ofNat (k + 1)⟩ } }) := by
    rw [nextSequenceKey, hs.wl, CoreWorkload.nextSequenceKey, CoreWorkload.nextSequenceKeyNum,
      UInt64.ofNat_add]
    rfl
  rw [hcall]
  dsimp only
  obtain ⟨hstatus, hfields⟩ := hasFields_insertFields
    (CoreWorkload.nulFreeValues_buildValues (.init p) values)
    (by rw [CoreWorkload.map_fst_buildValues]; exact CoreWorkload.nodup_fieldNames _)
  obtain ⟨db, hinsert, hsets⟩ := insert_spec hs.wellFormed p.table
    ((CoreWorkload.init p).keyName (.ofNat k)) ((CoreWorkload.init p).buildValues values)
  have hsize := hsets.size
  rw [show s.store.recordTable (p.table ++ _) = none from habsent, Option.getD_none]
    at hinsert hsets
  rw [show s.store.recordTable (p.table ++ _) = none from habsent, hs.size] at hsize
  rw [hstatus, ← CoreWorkload.tableName_init p] at hinsert
  rw [CoreWorkload.map_fst_buildValues] at hfields
  refine ⟨_, ?_, hs.sets htable (fun i => by omega) hsets hfields rfl hsize⟩
  rw [Bench.insert, asDB_insert]
  change (s.store.insert _ _ ((CoreWorkload.init p).buildValues values)).map _ = _
  rw [hinsert]
  rfl

/-! ## Calls of clients -/

section Calls

variable (hs : Stored p k s)

include hs

/-- The key of a transaction is the key of a loaded record. -/
theorem Stored.nextTransactionKey (hrecords : 1 ≤ p.recordCount.toInt)
    (hk : p.recordCount.toInt.toNat ≤ k) {draws : List δ}
    (hends : (s.wl.nextTransactionKeyNum next s.keyChooser draws).isSome) :
    ∃ j < k, ∃ s', s.nextTransactionKey next draws =
      some ((CoreWorkload.init p).keyName (.ofNat j), s') ∧ Stored p k s' := by
  obtain ⟨⟨keyNum, keyChooser⟩, hloop⟩ := Option.isSome_iff_exists.mp hends
  obtain ⟨-, hle, -⟩ := CoreWorkload.nextTransactionKeyNum_eq_some (I := fun _ => True)
    (fun _ _ _ _ _ _ => trivial) trivial hloop
  have hlast := CoreWorkload.toNat_last_init hrecords
  rw [hs.wl, UInt64.le_iff_toNat_le] at hle
  change keyNum.toNat ≤ (CoreWorkload.init p).insertKeySequence.last.toNat at hle
  refine ⟨keyNum.toNat, by omega, { s with keyChooser := keyChooser }, ?_, { hs with }⟩
  rw [Bench.nextTransactionKey, CoreWorkload.nextTransactionKey, hloop, UInt64.ofNat_toNat, hs.wl]
  rfl

/-- The pairs of an update are pairs for fields of the record. -/
theorem Stored.updateValues (hfields : 1 ≤ p.fieldCount.toInt) {draws : TransactionDraws δ}
    (hfield : draws.updateField ≤ CoreWorkload.maxField p) :
    NulFreeValues (s.updateValues draws) ∧
      ∀ pair ∈ s.updateValues draws, pair.1 ∈ (CoreWorkload.init p).fieldNames := by
  rw [Bench.updateValues, hs.wl]
  cases hwrite : (CoreWorkload.init p).writeAllFields with
  | true =>
      refine ⟨CoreWorkload.nulFreeValues_buildValues _ _, fun pair hmem => ?_⟩
      rw [← CoreWorkload.map_fst_buildValues (.init p) draws.values]
      exact List.mem_map_of_mem hmem
  | false =>
      refine ⟨CoreWorkload.nulFreeValues_buildUpdate _ _, fun pair hmem => ?_⟩
      rw [List.mem_singleton.mp hmem]
      refine CoreWorkload.nextFieldName_mem_fieldNames ?_
      have hmax := CoreWorkload.toNat_maxField hfields
      rw [UInt64.le_iff_toNat_le] at hfield
      rw [CoreWorkload.fieldCount_init hwrite]
      omega

variable (htable : NulFree p.table) (hk : k < 2 ^ 32)

include htable hk

/-- A call of `DoInsert` succeeds and adds a record. -/
theorem Stored.doInsert (order : IterationOrder) (values : ℕ → CoreWorkload.ValueDraw) :
    ∃ s', s.doInsert (asDB order) values = some (true, s') ∧ Stored p (k + 1) s' := by
  obtain ⟨s', hinsert, hs'⟩ := hs.insert htable hk order values
  refine ⟨s', ?_, hs'⟩
  rw [Bench.doInsert]
  dsimp only
  rw [hinsert]
  rfl

/-- A transaction succeeds, and adds a record if it is an insert. -/
theorem Stored.doTransaction (hrecords : 1 ≤ p.recordCount.toInt)
    (hfields : 1 ≤ p.fieldCount.toInt) (hloaded : p.recordCount.toInt.toNat ≤ k)
    (order : IterationOrder) {draws : TransactionDraws δ}
    (hfield : draws.updateField ≤ CoreWorkload.maxField p)
    (hends : draws.op ≠ .INSERT →
      (s.wl.nextTransactionKeyNum next s.keyChooser draws.keys).isSome) :
    ∃ s', s.doTransaction (asDB order) next draws = some (true, s') ∧
      Stored p (k + if draws.op = .INSERT then 1 else 0) s' := by
  suffices htransaction : ∃ s', s.transaction (asDB order) next draws = some (kOK, s') ∧
      Stored p (k + if draws.op = .INSERT then 1 else 0) s' by
    obtain ⟨s', htransaction, hs'⟩ := htransaction
    refine ⟨s', ?_, hs'⟩
    rw [Bench.doTransaction, htransaction]
    rfl
  rw [Bench.transaction]
  cases hop : draws.op with
  | INSERT =>
      obtain ⟨s', hinsert, hs'⟩ := hs.insert htable hk order draws.values
      exact ⟨s', hinsert, hs'⟩
  | READ =>
      rw [hop] at hends
      obtain ⟨j, hj, s₁, hkey, hs₁⟩ := hs.nextTransactionKey hrecords hloaded (hends (by simp))
      obtain ⟨s', hread, hs'⟩ := hs₁.read hj order (s₁.readFields draws.readField)
      refine ⟨s', ?_, hs'⟩
      simp only [Bench.transactionRead, hkey, Option.bind_eq_bind, Option.bind_some, hs₁.tableName,
        hread]
  | UPDATE =>
      rw [hop] at hends
      obtain ⟨j, hj, s₁, hkey, hs₁⟩ := hs.nextTransactionKey hrecords hloaded (hends (by simp))
      obtain ⟨hvalues, hnames⟩ := hs₁.updateValues hfields hfield
      obtain ⟨s', hupdate, hs'⟩ := hs₁.update htable hj order hvalues hnames
      refine ⟨s', ?_, hs'⟩
      simp only [Bench.transactionUpdate, hkey, Option.bind_eq_bind, Option.bind_some,
        hs₁.tableName, hupdate]
  | SCAN =>
      rw [hop] at hends
      obtain ⟨j, -, s₁, hkey, hs₁⟩ := hs.nextTransactionKey hrecords hloaded (hends (by simp))
      obtain ⟨s', hscan, hs'⟩ := hs₁.scan order ((CoreWorkload.init p).keyName (.ofNat j))
        draws.scanLength.toUInt32.toInt32 (s₁.readFields draws.readField)
      refine ⟨s', ?_, hs'⟩
      simp only [Bench.transactionScan, hkey, Option.bind_eq_bind, Option.bind_some, hs₁.tableName,
        hscan]
  | READMODIFYWRITE =>
      rw [hop] at hends
      obtain ⟨j, hj, s₁, hkey, hs₁⟩ := hs.nextTransactionKey hrecords hloaded (hends (by simp))
      obtain ⟨s₂, hread, hs₂⟩ := hs₁.read hj order (s₁.readFields draws.readField)
      obtain ⟨hvalues, hnames⟩ := hs₂.updateValues hfields hfield
      obtain ⟨s', hupdate, hs'⟩ := hs₂.update htable hj order hvalues hnames
      refine ⟨s', ?_, hs'⟩
      simp only [Bench.transactionReadModifyWrite, hkey, Option.bind_eq_bind, Option.bind_some,
        hs₁.tableName, hread, hs₂.tableName, hupdate]

end Calls

/-! ## Runs -/

/-- Each `DoInsert` of a load adds a record. -/
theorem Stored.load (hs : Stored p k s) (htable : NulFree p.table)
    {loads : List (IterationOrder × (ℕ → CoreWorkload.ValueDraw))}
    (hk : k + loads.length ≤ 2 ^ 32) :
    ∃ s', (calls next).run s (loads.map fun (order, values) => .doInsert order values) = some s' ∧
      Stored p (k + loads.length) s' := by
  induction loads generalizing k s with
  | nil => exact ⟨s, rfl, hs⟩
  | cons load loads ih =>
      rw [List.length_cons] at hk ⊢
      obtain ⟨s₁, hinsert, hs₁⟩ := hs.doInsert htable (by omega) load.1 load.2
      obtain ⟨s', hrun, hs'⟩ := ih hs₁ (by omega)
      refine ⟨s', (calls next).run_cons_eq_some.mpr ⟨s₁, ?_, hrun⟩, ?_⟩
      · rw [calls]
        dsimp only
        rw [hinsert]
        rfl
      · rwa [Nat.add_comm loads.length, ← Nat.add_assoc]

/-- Transactions add as many records as they make inserts. -/
theorem Stored.run (hs : Stored p k s) (htable : NulFree p.table)
    (hrecords : 1 ≤ p.recordCount.toInt) (hfields : 1 ≤ p.fieldCount.toInt)
    (hloaded : p.recordCount.toInt.toNat ≤ k)
    {transactions : List (IterationOrder × TransactionDraws δ)}
    (hk : k + transactions.length ≤ 2 ^ 32)
    (hfield : ∀ t ∈ transactions, t.2.updateField ≤ CoreWorkload.maxField p)
    (hends : (calls next).Along (KeyLoopEnds next) s
      (transactions.map fun (order, draws) => .doTransaction order draws)) :
    ∃ s', (calls next).run s (transactions.map fun (order, draws) => .doTransaction order draws) =
      some s' ∧ Stored p (k + inserts transactions) s' := by
  induction transactions generalizing k s with
  | nil => exact ⟨s, rfl, hs⟩
  | cons transaction transactions ih =>
      rw [List.length_cons] at hk
      obtain ⟨s₁, htransaction, hs₁⟩ := hs.doTransaction htable (by omega) hrecords hfields
        hloaded transaction.1 (hfield _ List.mem_cons_self) hends.1
      have hstep : (calls next).step s (.doTransaction transaction.1 transaction.2) = some s₁ := by
        rw [calls]
        dsimp only
        rw [htransaction]
        rfl
      have hcount : inserts (transaction :: transactions) =
          inserts transactions + if transaction.2.op = .INSERT then 1 else 0 := by
        rw [inserts, List.countP_cons, inserts]
        simp only [decide_eq_true_eq]
      have hle : (if transaction.2.op = .INSERT then 1 else 0) ≤ 1 := by split <;> omega
      obtain ⟨s', hrun, hs'⟩ := ih hs₁ (by omega) (by omega)
        (fun t hmem => hfield t (List.mem_cons_of_mem _ hmem)) (hends.2 s₁ hstep)
      refine ⟨s', (calls next).run_cons_eq_some.mpr ⟨s₁, hstep, hrun⟩, ?_⟩
      rw [hcount, Nat.add_comm (inserts transactions), ← Nat.add_assoc]
      exact hs'

/-- Every record is one of those inserted. -/
theorem Stored.hasFields (hs : Stored p k s) {i : Str} {fieldTable : FieldHashtable}
    (hrecord : s.store.recordTable i = some fieldTable) :
    HasFields fieldTable (CoreWorkload.init p).fieldNames := by
  refine (hs.record (nulFree_cStr i) ?_).1
  rw [← hrecord, recordTable, recordTable, StlHashtable.get, StlHashtable.get,
    ← HashString.wrap_value (.wrap i)]
  rfl

/-- After a load of all records and any transactions, all database calls have returned
`kOK`, each insert has added a record, and every record has each field once. -/
theorem load_then_run (hstart : p.insertStart = 0) (hrecords : 1 ≤ p.recordCount.toInt)
    (hfields : 1 ≤ p.fieldCount.toInt) (htable : NulFree p.table) (keyChooser : χ)
    {loads : List (IterationOrder × (ℕ → CoreWorkload.ValueDraw))}
    (hloads : loads.length = p.recordCount.toInt.toNat)
    {transactions : List (IterationOrder × TransactionDraws δ)}
    (htransactions : transactions.length < 2 ^ 31)
    (hfield : ∀ t ∈ transactions, t.2.updateField ≤ CoreWorkload.maxField p)
    (hends : (calls next).Along (KeyLoopEnds next) (start p keyChooser)
      (loadThenRun loads transactions)) :
    ∃ s, (calls next).run (start p keyChooser) (loadThenRun loads transactions) = some s ∧
      (∀ code ∈ s.codes, code = kOK) ∧
      s.store.keyTable.size = p.recordCount.toInt.toNat + inserts transactions ∧
      ∀ i fieldTable, s.store.recordTable i = some fieldTable → ∀ order,
        ((fieldTable.entries order none none).map Prod.fst).Perm
          (CoreWorkload.init p).fieldNames := by
  have hlt := Int32.toInt_lt p.recordCount
  obtain ⟨s₁, hload, hs₁⟩ : ∃ s₁, (calls next).run (start p keyChooser)
      (loads.map fun (order, values) => .doInsert order values) = some s₁ ∧
        Stored p (0 + loads.length) s₁ :=
    (stored_start hstart keyChooser).load htable (by omega)
  rw [Nat.zero_add] at hs₁
  obtain ⟨s, hrun, hs⟩ := hs₁.run htable hrecords hfields hloads.ge (by omega) hfield
    ((calls next).along_append hends hload)
  refine ⟨s, (calls next).run_append_eq_some.mpr ⟨s₁, hload, hrun⟩, hs.codes, ?_, ?_⟩
  · rw [hs.size, hloads]
  · exact fun i fieldTable hrecord order =>
      (hs.hasFields hrecord).perm_entries (CoreWorkload.nodup_fieldNames _) order

/-! ## Two runs -/

/-- A generator that returns the number it is given. -/
def nextDrawn (_ : Unit) (draw : UInt64) : Option (UInt64 × Unit) := some (draw, ())

/-- The values of one character each. -/
def oneChar (_ : ℕ) : CoreWorkload.ValueDraw := ⟨1, 0⟩

/-- A `DoInsert` with such values. -/
def load : IterationOrder × (ℕ → CoreWorkload.ValueDraw) := (.latestFirst, oneChar)

/-- A transaction that draws 0 throughout. -/
def transactionZero (op : Operation) : IterationOrder × TransactionDraws UInt64 :=
  (.latestFirst, ⟨op, [0], 0, 0, oneChar, 0, ⟨1, 0⟩⟩)

theorem isSome_keyLoop_zero (wl : CoreWorkload) :
    (wl.nextTransactionKeyNum nextDrawn () [0]).isSome := by
  have haccepts : wl.rejects 0 = false := decide_eq_false UInt64.not_lt_zero
  rw [CoreWorkload.nextTransactionKeyNum, nextDrawn, Option.bind_some]
  dsimp only
  rw [haccepts]
  rfl

/-- One record of two fields. -/
def oneRecord : Properties := { recordCount := 1, operationCount := 2, fieldCount := 2 }

/-- The theorem at an update and an insert. -/
theorem load_then_run_oneRecord :
    ∃ s, (calls nextDrawn).run (start oneRecord ())
        (loadThenRun [load] [transactionZero .UPDATE, transactionZero .INSERT]) = some s ∧
      (∀ code ∈ s.codes, code = kOK) ∧
      s.store.keyTable.size = oneRecord.recordCount.toInt.toNat +
        inserts [transactionZero .UPDATE, transactionZero .INSERT] ∧
      ∀ i fieldTable, s.store.recordTable i = some fieldTable → ∀ order,
        ((fieldTable.entries order none none).map Prod.fst).Perm
          (CoreWorkload.init oneRecord).fieldNames := by
  refine load_then_run (by decide) (by decide) (by decide) (by decide) () (by decide) (by decide)
    (by decide) ⟨trivial, fun s _ => ⟨fun _ => ?_, fun _ _ => ⟨fun hop => ?_, fun _ _ => trivial⟩⟩⟩
  · exact isSome_keyLoop_zero s.wl
  · exact absurd rfl hop

/-- Two records of one field in a table whose name is NUL. -/
def nulTable : Properties :=
  { recordCount := 2, operationCount := 0, fieldCount := 1, table := ['\x00']
    insertOrder := "ordered".toList }

/-- The second `DoInsert` of the load finds the record of the first. -/
theorem conflict_nulTable :
    ((calls nextDrawn).run (start nulTable ()) (loadThenRun [load, load] [])).map (·.codes) =
      some [kOK, kErrorConflict] := by
  decide +kernel

end Bench

end YcsbC
