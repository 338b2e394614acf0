import YcsbC.Db.FailedInserts
import YcsbC.Main.LoadThenRun

/-!
# The fields that transactions ask for

`NextFieldName` returns the name of a field, `field` and its number.  The three transactions
that read put `field` before it once more, so they ask for `fieldfield3` where `BuildValues`
and `BuildUpdate` write `field3`.

What a transaction asks for is read off a database that keeps a list of its queries
(`DB.recording`).  None of the names is one that is ever written, and `HashtableDB` finds
nothing (`asks_missing_fields`).
-/

namespace YcsbC

/-! ## A database that keeps its queries -/

/-- A `Read` or `Scan` with the fields it asks for and its result. -/
inductive FieldQuery where
  | read (fields : Option (List Str)) (result : List KVPair)
  | scan (fields : Option (List Str)) (result : List (List KVPair))
deriving DecidableEq, Repr

/-- The names that a query asks for, none if it asks for all fields. -/
def FieldQuery.names : FieldQuery → List Str
  | read fields _ | scan fields _ => fields.getD []

/-- A database that keeps a list of its queries beside its state. -/
def DB.recording {σ : Type*} (db : DB σ) : DB (σ × List FieldQuery) where
  read s table key fields :=
    (db.read s.1 table key fields).map fun (status, result, store) =>
      (status, result, (store, s.2 ++ [.read fields result]))
  scan s table key len fields :=
    (db.scan s.1 table key len fields).map fun (status, result, store) =>
      (status, result, (store, s.2 ++ [.scan fields result]))
  update s table key values :=
    (db.update s.1 table key values).map fun (status, store) => (status, (store, s.2))
  insert s table key values :=
    (db.insert s.1 table key values).map fun (status, store) => (status, (store, s.2))

/-- The database returns this result for the query in a state. -/
inductive FieldQuery.AnsweredBy {σ : Type*} (db : DB σ) (store : σ) (table key : Str) :
    FieldQuery → Prop where
  | read {fields status result store'} :
    db.read store table key fields = some (status, result, store') →
    AnsweredBy db store table key (.read fields result)
  | scan {len fields status result store'} :
    db.scan store table key len fields = some (status, result, store') →
    AnsweredBy db store table key (.scan fields result)

namespace Bench

variable {σ χ δ : Type*} {db : DB σ} {next : χ → δ → Option (UInt64 × χ)}

/-- The bench with an empty list of queries. -/
def recording (s : Bench σ χ) : Bench (σ × List FieldQuery) χ :=
  ⟨(s.store, []), s.wl, s.keyChooser, s.codes⟩

/-- The bench without the list. -/
def forget (s : Bench (σ × List FieldQuery) χ) : Bench σ χ :=
  ⟨s.store.1, s.wl, s.keyChooser, s.codes⟩

/-- A transaction that reads. -/
def reads (op : Operation) : Bool := op == .READ || op == .SCAN || op == .READMODIFYWRITE

/-! ## Calls on such a database -/

section Calls

variable {s s' : Bench (σ × List FieldQuery) χ} {table key : Str} {code : ℤ}

theorem read_recording {fields : Option (List Str)}
    (hread : s.read db.recording table key fields = some (code, s')) :
    ∃ query : FieldQuery, s'.store.2 = s.store.2 ++ [query] ∧ query.names = fields.getD [] ∧
      query.AnsweredBy db s.store.1 table key := by
  obtain ⟨⟨status, result, store⟩, hcall, heq⟩ := Option.map_eq_some_iff.mp hread
  obtain ⟨⟨status', result', store'⟩, hinner, heq'⟩ := Option.map_eq_some_iff.mp hcall
  cases heq
  cases heq'
  exact ⟨_, rfl, rfl, .read hinner⟩

theorem scan_recording {len : Int32} {fields : Option (List Str)}
    (hscan : s.scan db.recording table key len fields = some (code, s')) :
    ∃ query : FieldQuery, s'.store.2 = s.store.2 ++ [query] ∧ query.names = fields.getD [] ∧
      query.AnsweredBy db s.store.1 table key := by
  obtain ⟨⟨status, result, store⟩, hcall, heq⟩ := Option.map_eq_some_iff.mp hscan
  obtain ⟨⟨status', result', store'⟩, hinner, heq'⟩ := Option.map_eq_some_iff.mp hcall
  cases heq
  cases heq'
  exact ⟨_, rfl, rfl, .scan hinner⟩

theorem update_recording {values : List KVPair}
    (hupdate : s.update db.recording table key values = some (code, s')) :
    s'.store.2 = s.store.2 := by
  obtain ⟨⟨status, store⟩, hcall, heq⟩ := Option.map_eq_some_iff.mp hupdate
  obtain ⟨⟨status', store'⟩, -, heq'⟩ := Option.map_eq_some_iff.mp hcall
  cases heq
  cases heq'
  rfl

theorem nextTransactionKey_store {draws : List δ} {name : Str}
    (hkey : s.nextTransactionKey next draws = some (name, s')) :
    s'.store = s.store ∧ s'.wl = s.wl := by
  obtain ⟨result, -, heq⟩ := Option.map_eq_some_iff.mp hkey
  cases heq
  exact ⟨rfl, rfl⟩

end Calls

/-! ## The list aside, the calls are those of the database -/

section Forget

variable (s : Bench (σ × List FieldQuery) χ) (table key : Str)

theorem map_forget_read (fields : Option (List Str)) :
    (s.read db.recording table key fields).map (Prod.map id forget) =
      s.forget.read db table key fields := by
  simp only [read, DB.recording, Option.map_map]
  rfl

theorem map_forget_scan (len : Int32) (fields : Option (List Str)) :
    (s.scan db.recording table key len fields).map (Prod.map id forget) =
      s.forget.scan db table key len fields := by
  simp only [scan, DB.recording, Option.map_map]
  rfl

theorem map_forget_update (values : List KVPair) :
    (s.update db.recording table key values).map (Prod.map id forget) =
      s.forget.update db table key values := by
  simp only [update, DB.recording, Option.map_map]
  rfl

theorem map_forget_insert (values : List KVPair) :
    (s.insert db.recording table key values).map (Prod.map id forget) =
      s.forget.insert db table key values := by
  simp only [insert, DB.recording, Option.map_map]
  rfl

theorem map_forget_nextTransactionKey (draws : List δ) :
    (s.nextTransactionKey next draws).map (Prod.map id forget) =
      s.forget.nextTransactionKey next draws := by
  simp only [nextTransactionKey, Option.map_map]
  rfl

/-- A transaction on the database with the list does what it does on the database. -/
theorem map_forget_transaction (draws : TransactionDraws δ) :
    (s.transaction db.recording next draws).map (Prod.map id forget) =
      s.forget.transaction db next draws := by
  rw [transaction, transaction]
  cases draws.op with
  | INSERT => exact map_forget_insert s.nextSequenceKey.2 _ _ _
  | READ =>
      simp only [transactionRead, ← map_forget_nextTransactionKey, Option.bind_eq_bind,
        Option.map_bind, Option.bind_map]
      refine congrArg _ (funext fun drawn => ?_)
      exact map_forget_read drawn.2 _ _ _
  | SCAN =>
      simp only [transactionScan, ← map_forget_nextTransactionKey, Option.bind_eq_bind,
        Option.map_bind, Option.bind_map]
      refine congrArg _ (funext fun drawn => ?_)
      exact map_forget_scan drawn.2 _ _ _ _
  | UPDATE =>
      simp only [transactionUpdate, ← map_forget_nextTransactionKey, Option.bind_eq_bind,
        Option.map_bind, Option.bind_map]
      refine congrArg _ (funext fun drawn => ?_)
      exact map_forget_update drawn.2 _ _ _
  | READMODIFYWRITE =>
      simp only [transactionReadModifyWrite, ← map_forget_nextTransactionKey, Option.bind_eq_bind,
        Option.map_bind, Option.bind_map]
      refine congrArg _ (funext fun drawn => ?_)
      change _ = (drawn.2.forget.read db _ _ _).bind _
      rw [← map_forget_read, Option.bind_map, Function.comp_apply, Option.map_bind]
      refine congrArg _ (funext fun read => ?_)
      exact map_forget_update read.2 _ _ _

end Forget

/-! ## The query of a transaction -/

/-- The query after the draw of the key, in the terms of the bench before it. -/
theorem query_after_key {s : Bench σ χ} {s₁ s' : Bench (σ × List FieldQuery) χ} {draws : List δ}
    {key : Str} (hkey : s.recording.nextTransactionKey next draws = some (key, s₁)) {draw : UInt64}
    (hquery : ∃ query : FieldQuery, s'.store.2 = s₁.store.2 ++ [query] ∧
      query.names = (s₁.readFields draw).getD [] ∧
      query.AnsweredBy db s₁.store.1 s₁.wl.tableName key) :
    ∃ key, ∃ query : FieldQuery, s'.store.2 = [query] ∧
      query.names = (s.readFields draw).getD [] ∧
      query.AnsweredBy db s.store s.wl.tableName key := by
  obtain ⟨hstore, hwl⟩ := nextTransactionKey_store hkey
  obtain ⟨query, hlist, hnames, hanswer⟩ := hquery
  rw [hstore] at hlist hanswer
  rw [readFields, hwl] at hnames
  rw [hwl] at hanswer
  exact ⟨key, query, hlist, hnames, hanswer⟩

/-- A transaction that reads makes one query, for the field it has drawn. -/
theorem query_of_transaction {s : Bench σ χ} {draws : TransactionDraws δ}
    (hop : reads draws.op) {code : ℤ} {s' : Bench (σ × List FieldQuery) χ}
    (hdone : s.recording.transaction db.recording next draws = some (code, s')) :
    ∃ key, ∃ query : FieldQuery, s'.store.2 = [query] ∧
      query.names = (s.readFields draws.readField).getD [] ∧
      query.AnsweredBy db s.store s.wl.tableName key := by
  rw [transaction] at hdone
  cases hcase : draws.op with
  | READ =>
      rw [hcase] at hdone
      obtain ⟨⟨key, s₁⟩, hkey, hread⟩ := Option.bind_eq_some_iff.mp hdone
      exact query_after_key hkey (read_recording hread)
  | SCAN =>
      rw [hcase] at hdone
      obtain ⟨⟨key, s₁⟩, hkey, hscan⟩ := Option.bind_eq_some_iff.mp hdone
      exact query_after_key hkey (scan_recording hscan)
  | READMODIFYWRITE =>
      rw [hcase] at hdone
      obtain ⟨⟨key, s₁⟩, hkey, hrest⟩ := Option.bind_eq_some_iff.mp hdone
      obtain ⟨⟨code', s₂⟩, hread, hupdate⟩ := Option.bind_eq_some_iff.mp hrest
      refine query_after_key hkey ?_
      rw [update_recording hupdate]
      exact read_recording hread
  | UPDATE =>
      rw [hcase] at hop
      cases hop
  | INSERT =>
      rw [hcase] at hop
      cases hop

/-! ## Names -/

/-- The name a transaction asks for is not the name of a field. -/
theorem asked_ne_fieldName (draw : UInt64) (i : ℕ) :
    "field".toList ++ CoreWorkload.nextFieldName draw ≠ CoreWorkload.fieldName i := by
  intro heq
  have htail : CoreWorkload.nextFieldName draw = toStr i := List.append_cancel_left heq
  have hmem : 'f' ∈ toStr i := by
    rw [← htail]
    exact List.mem_append_left _ (by decide)
  have hdigit := Nat.isDigit_of_mem_toDigits (by decide) (by decide) hmem
  revert hdigit
  decide

/-- The names that a transaction asks for are not written to any record. -/
theorem asked_notMem_fieldNames (wl : CoreWorkload) (draw : UInt64) :
    "field".toList ++ CoreWorkload.nextFieldName draw ∉ wl.fieldNames := by
  intro hmem
  obtain ⟨i, -, heq⟩ := List.mem_map.mp hmem
  exact asked_ne_fieldName draw i heq.symm

theorem nulFree_asked (draw : UInt64) :
    NulFree ("field".toList ++ CoreWorkload.nextFieldName draw) :=
  nulFree_append.mpr ⟨by decide, CoreWorkload.nulFree_fieldName _⟩

end Bench

/-! ## What the database holds -/

namespace HashtableDB

/-- The fields of a record have names of fields. -/
def OnlyFieldNames (fieldTable : FieldHashtable) : Prop :=
  ∀ field, (fieldTable.get field).isSome → ∃ i, cStr field = CoreWorkload.fieldName i

/-- Pairs for fields, under their names. -/
def NamesFields (values : List KVPair) : Prop :=
  ∀ pair ∈ values, ∃ i, pair.1 = CoreWorkload.fieldName i

section Loops

variable {fieldTable : FieldHashtable} {values : List KVPair}

theorem onlyFieldNames_empty : OnlyFieldNames .empty := by
  intro field hsome
  rw [StlHashtable.get_empty] at hsome
  cases hsome

/-- One more field with the name of a field. -/
theorem OnlyFieldNames.sets (honly : OnlyFieldNames fieldTable) {fieldTable' : FieldHashtable}
    {i : ℕ} {str : Str} (hget : ∀ field, fieldTable'.get field =
      if cStr field = cStr (CoreWorkload.fieldName i) then some str else fieldTable.get field) :
    OnlyFieldNames fieldTable' := by
  intro field hsome
  rw [hget] at hsome
  split at hsome
  · rename_i hname
    exact ⟨i, hname.trans (cStr_eq_self (CoreWorkload.nulFree_fieldName i))⟩
  · exact honly field hsome

theorem OnlyFieldNames.insert (honly : OnlyFieldNames fieldTable) (i : ℕ) (str : Str) :
    OnlyFieldNames (fieldTable.insert (CoreWorkload.fieldName i) str).2 := by
  cases hget : fieldTable.get (CoreWorkload.fieldName i) with
  | some old =>
      rw [StlHashtable.insert_of_get hget]
      exact honly
  | none => exact honly.sets fun field => StlHashtable.get_insert hget

theorem OnlyFieldNames.update (honly : OnlyFieldNames fieldTable) (i : ℕ) (str : Str) :
    OnlyFieldNames (fieldTable.update (CoreWorkload.fieldName i) str).2 := by
  cases hget : fieldTable.get (CoreWorkload.fieldName i) with
  | none =>
      rw [StlHashtable.update_of_get hget]
      exact honly
  | some old => exact honly.sets fun field => StlHashtable.get_update hget

theorem NamesFields.cons {pair : KVPair} (hvalues : NamesFields (pair :: values)) :
    (∃ i, pair.1 = CoreWorkload.fieldName i) ∧ NamesFields values :=
  List.forall_mem_cons.mp hvalues

theorem OnlyFieldNames.insertFields (honly : OnlyFieldNames fieldTable)
    (hvalues : NamesFields values) : OnlyFieldNames (insertFields fieldTable values).2 := by
  induction values generalizing fieldTable with
  | nil => exact honly
  | cons pair values ih =>
      obtain ⟨⟨i, hname⟩, hrest⟩ := hvalues.cons
      cases hget : fieldTable.get pair.1 with
      | none =>
          rw [insertFields_cons_of_none hget, hname]
          exact ih (honly.insert i _) hrest
      | some old =>
          rw [insertFields_cons_of_some hget]
          exact honly

theorem OnlyFieldNames.updateNewFields (honly : OnlyFieldNames fieldTable)
    (hvalues : NamesFields values) : OnlyFieldNames (updateNewFields fieldTable values) := by
  induction values generalizing fieldTable with
  | nil => exact honly
  | cons pair values ih =>
      obtain ⟨⟨i, hname⟩, hrest⟩ := hvalues.cons
      rw [HashtableDB.updateNewFields, hname]
      exact ih (honly.insert i _) hrest

theorem OnlyFieldNames.updateFields (honly : OnlyFieldNames fieldTable)
    (hvalues : NamesFields values) : OnlyFieldNames (updateFields fieldTable values) := by
  induction values generalizing fieldTable with
  | nil => exact honly
  | cons pair values ih =>
      obtain ⟨⟨i, hname⟩, hrest⟩ := hvalues.cons
      cases hget : fieldTable.get pair.1 with
      | none =>
          rw [updateFields_cons_of_none hget, hname]
          exact ih (honly.insert i _) hrest
      | some old =>
          rw [updateFields_cons_of_some hget, hname]
          exact ih (honly.update i _) hrest

end Loops

/-- All records have only fields with names of fields. -/
structure RecordsNamed (db : HashtableDB) : Prop where
  wellFormed : db.WellFormed
  record : ∀ {index fieldTable}, db.recordTable index = some fieldTable →
    OnlyFieldNames fieldTable

theorem recordsNamed_empty : RecordsNamed empty where
  wellFormed := wellFormed_empty
  record hrecord := by
    rw [recordTable_empty] at hrecord
    cases hrecord

theorem RecordsNamed.sets {db db' : HashtableDB} (hdb : db.RecordsNamed) {index : Str}
    {fieldTable : FieldHashtable} (hsets : Sets db index (some fieldTable) db')
    (honly : OnlyFieldNames fieldTable) : db'.RecordsNamed where
  wellFormed := hsets.wellFormed
  record := by
    intro index' fieldTable' hrecord
    by_cases hindex : cStr index' = cStr index
    · rw [recordTable_congr hindex, hsets.self] at hrecord
      cases hrecord
      exact honly
    · rw [hsets.other fun hwrap => hindex (HashString.wrap_eq_wrap_iff.mp hwrap)] at hrecord
      exact hdb.record hrecord

theorem RecordsNamed.getD {db : HashtableDB} (hdb : db.RecordsNamed) (index : Str) :
    OnlyFieldNames ((db.recordTable index).getD .empty) := by
  cases hrecord : db.recordTable index with
  | none => exact onlyFieldNames_empty
  | some fieldTable => exact hdb.record hrecord

theorem RecordsNamed.insert {db db' : HashtableDB} (hdb : db.RecordsNamed) {table key : Str}
    {values : List KVPair} (hvalues : NamesFields values) {code : ℤ}
    (hinsert : db.insert table key values = some (code, db')) : db'.RecordsNamed := by
  obtain ⟨db₁, hinsert₁, hsets⟩ := insert_spec hdb.wellFormed table key values
  cases hinsert.symm.trans hinsert₁
  exact hdb.sets hsets ((hdb.getD _).insertFields hvalues)

theorem RecordsNamed.update {db db' : HashtableDB} (hdb : db.RecordsNamed) {table key : Str}
    {values : List KVPair} (hvalues : NamesFields values) {code : ℤ}
    (hupdate : db.update table key values = some (code, db')) : db'.RecordsNamed := by
  obtain ⟨db₁, hupdate₁, hsets⟩ := update_spec hdb.wellFormed table key values
  cases hupdate.symm.trans hupdate₁
  refine hdb.sets hsets ?_
  cases hrecord : db.recordTable (table ++ key) with
  | none => exact onlyFieldNames_empty.updateNewFields hvalues
  | some fieldTable => exact (hdb.record hrecord).updateFields hvalues

end HashtableDB

/-! ## Runs -/

namespace Bench

open HashtableDB

variable {χ δ : Type*} {next : χ → δ → Option (UInt64 × χ)}

section Store

variable {s s' : Bench HashtableDB χ} {order : IterationOrder} {table key : Str} {code : ℤ}
  {values : List KVPair}

theorem store_of_read {fields : Option (List Str)}
    (hread : s.read (asDB order) table key fields = some (code, s')) : s'.store = s.store := by
  obtain ⟨⟨status, result, store⟩, hcall, heq⟩ := Option.map_eq_some_iff.mp hread
  obtain ⟨answer, -, heq'⟩ := Option.map_eq_some_iff.mp hcall
  cases heq
  cases heq'
  rfl

theorem store_of_scan {len : Int32} {fields : Option (List Str)}
    (hscan : s.scan (asDB order) table key len fields = some (code, s')) :
    s'.store = s.store := by
  obtain ⟨⟨status, result, store⟩, hcall, heq⟩ := Option.map_eq_some_iff.mp hscan
  obtain ⟨answer, -, heq'⟩ := Option.map_eq_some_iff.mp hcall
  cases heq
  cases heq'
  rfl

theorem store_of_nextTransactionKey {draws : List δ} {name : Str}
    (hkey : s.nextTransactionKey next draws = some (name, s')) : s'.store = s.store := by
  obtain ⟨result, -, heq⟩ := Option.map_eq_some_iff.mp hkey
  cases heq
  rfl

theorem recordsNamed_of_insert (hs : s.store.RecordsNamed) (hvalues : NamesFields values)
    (hinsert : s.insert (asDB order) table key values = some (code, s')) :
    s'.store.RecordsNamed := by
  obtain ⟨⟨status, store⟩, hcall, heq⟩ := Option.map_eq_some_iff.mp hinsert
  cases heq
  exact hs.insert hvalues hcall

theorem recordsNamed_of_update (hs : s.store.RecordsNamed) (hvalues : NamesFields values)
    (hupdate : s.update (asDB order) table key values = some (code, s')) :
    s'.store.RecordsNamed := by
  obtain ⟨⟨status, store⟩, hcall, heq⟩ := Option.map_eq_some_iff.mp hupdate
  cases heq
  exact hs.update hvalues hcall

theorem namesFields_buildValues (wl : CoreWorkload) (draw : ℕ → CoreWorkload.ValueDraw) :
    NamesFields (wl.buildValues draw) := by
  intro pair hmem
  obtain ⟨i, -, rfl⟩ := List.mem_map.mp hmem
  exact ⟨i, rfl⟩

theorem namesFields_updateValues (s : Bench HashtableDB χ) (draws : TransactionDraws δ) :
    NamesFields (s.updateValues draws) := by
  rw [updateValues]
  split
  · exact namesFields_buildValues _ _
  · intro pair hmem
    rw [List.mem_singleton.mp hmem]
    exact ⟨_, rfl⟩

/-- A transaction writes pairs for fields, under their names. -/
theorem recordsNamed_of_transaction (hs : s.store.RecordsNamed) {draws : TransactionDraws δ}
    (hdone : s.transaction (asDB order) next draws = some (code, s')) :
    s'.store.RecordsNamed := by
  rw [transaction] at hdone
  cases hcase : draws.op with
  | INSERT =>
      rw [hcase] at hdone
      exact recordsNamed_of_insert (s := s.nextSequenceKey.2) hs (namesFields_buildValues _ _) hdone
  | READ =>
      rw [hcase] at hdone
      obtain ⟨⟨name, s₁⟩, hkey, hread⟩ := Option.bind_eq_some_iff.mp hdone
      rw [store_of_read hread, store_of_nextTransactionKey hkey]
      exact hs
  | SCAN =>
      rw [hcase] at hdone
      obtain ⟨⟨name, s₁⟩, hkey, hscan⟩ := Option.bind_eq_some_iff.mp hdone
      rw [store_of_scan hscan, store_of_nextTransactionKey hkey]
      exact hs
  | UPDATE =>
      rw [hcase] at hdone
      obtain ⟨⟨name, s₁⟩, hkey, hupdate⟩ := Option.bind_eq_some_iff.mp hdone
      rw [← store_of_nextTransactionKey hkey] at hs
      exact recordsNamed_of_update hs (namesFields_updateValues _ _) hupdate
  | READMODIFYWRITE =>
      rw [hcase] at hdone
      obtain ⟨⟨name, s₁⟩, hkey, hrest⟩ := Option.bind_eq_some_iff.mp hdone
      obtain ⟨⟨code', s₂⟩, hread, hupdate⟩ := Option.bind_eq_some_iff.mp hrest
      rw [← store_of_nextTransactionKey hkey, ← store_of_read hread] at hs
      exact recordsNamed_of_update hs (namesFields_updateValues _ _) hupdate

end Store

/-- Whatever clients call, the fields of all records have names of fields. -/
theorem recordsNamed_of_reaches {p : Properties} {keyChooser : χ} {s : Bench HashtableDB χ}
    (hreaches : (calls next).Reaches (start p keyChooser) s) : s.store.RecordsNamed := by
  refine hreaches.invariant (I := fun s => s.store.RecordsNamed) ?_ recordsNamed_empty
  intro s call s' hs hcall
  cases call with
  | doInsert order values =>
      obtain ⟨⟨ok, s₁⟩, hinsert, heq⟩ := Option.map_eq_some_iff.mp hcall
      obtain ⟨⟨code, s₂⟩, hinner, heq'⟩ := Option.map_eq_some_iff.mp hinsert
      cases heq
      cases heq'
      exact recordsNamed_of_insert (s := s.nextSequenceKey.2) hs (namesFields_buildValues _ _)
        hinner
  | doTransaction order draws =>
      obtain ⟨⟨ok, s₁⟩, hdone, heq⟩ := Option.map_eq_some_iff.mp hcall
      obtain ⟨⟨code, s₂⟩, hinner, hcode⟩ := Option.bind_eq_some_iff.mp hdone
      dsimp only at hcode
      split at hcode
      · cases heq
        cases hcode
        exact recordsNamed_of_transaction hs hinner
      · cases hcode

/-- A `Read` of the name that a transaction asks for finds nothing. -/
theorem readFields_asked {fieldTable : FieldHashtable} (honly : OnlyFieldNames fieldTable)
    (order : IterationOrder) (draw : UInt64) :
    HashtableDB.readFields order fieldTable
      (some ["field".toList ++ CoreWorkload.nextFieldName draw]) = [] := by
  cases hget : fieldTable.get ("field".toList ++ CoreWorkload.nextFieldName draw) with
  | none => simp only [HashtableDB.readFields, List.filterMap_cons, hget, Option.map_none,
      List.filterMap_nil]
  | some value =>
      obtain ⟨i, heq⟩ := honly _ (by rw [hget]; rfl)
      rw [cStr_eq_self (nulFree_asked draw)] at heq
      exact absurd heq (asked_ne_fieldName draw i)

/-- The names that the queries ask for are ones that `BuildValues` writes. -/
def AsksForFields (wl : CoreWorkload) (queries : List FieldQuery) : Prop :=
  ∀ query ∈ queries, ∀ name ∈ query.names, name ∈ wl.fieldNames

/-- On a store of such records, a `Read` of the name returns no pair. -/
theorem result_of_answeredBy {store : HashtableDB} (hstore : store.RecordsNamed)
    {order : IterationOrder} {table key : Str} {fields : Option (List Str)}
    {result : List KVPair} {draw : UInt64}
    (hanswer : (FieldQuery.read fields result).AnsweredBy (asDB order) store table key)
    (hnames : fields.getD [] = ["field".toList ++ CoreWorkload.nextFieldName draw]) :
    result = [] := by
  cases hanswer with
  | read hread =>
      rw [asDB_read, read_eq hstore.wellFormed] at hread
      cases hrecord : store.recordTable (table ++ key) with
      | none =>
          rw [hrecord] at hread
          cases hread
          rfl
      | some fieldTable =>
          rw [hrecord] at hread
          cases hread
          cases fields with
          | none => cases hnames
          | some names =>
              obtain rfl : names = _ := hnames
              exact readFields_asked (hstore.record hrecord) order draw

/-- With `readallfields` false, the name that a transaction passes to a database is never one
that `BuildValues` writes, whatever the field count and the draw.  On a `HashtableDB` that
clients have worked on, each `Read` that a transaction makes returns no pair. -/
theorem asks_missing_fields (next : χ → δ → Option (UInt64 × χ)) :
    (∀ {σ : Type} (db : DB σ) (s : Bench σ χ) (draws : TransactionDraws δ) (code : ℤ)
      (s' : Bench (σ × List FieldQuery) χ), s.wl.readAllFields = false → reads draws.op = true →
      s.recording.transaction db.recording next draws = some (code, s') →
        ¬ AsksForFields s.wl s'.store.2) ∧
      ∀ (p : Properties) (keyChooser : χ) (s : Bench HashtableDB χ) (order : IterationOrder)
        (draws : TransactionDraws δ) (code : ℤ) (s' : Bench (HashtableDB × List FieldQuery) χ),
        (calls next).Reaches (start p keyChooser) s → s.wl.readAllFields = false →
        reads draws.op = true →
        s.recording.transaction (asDB order).recording next draws = some (code, s') →
          ∀ fields result, .read fields result ∈ s'.store.2 → result = [] := by
  constructor
  · intro σ db s draws code s' hread hop hdone hasks
    obtain ⟨key, query, hqueries, hnames, -⟩ := query_of_transaction hop hdone
    rw [hqueries] at hasks
    rw [readFields, hread] at hnames
    refine asked_notMem_fieldNames s.wl draws.readField (hasks query List.mem_cons_self _ ?_)
    rw [hnames]
    exact List.mem_cons_self
  · intro p keyChooser s order draws code s' hreaches hread hop hdone fields result hmem
    obtain ⟨key, query, hqueries, hnames, hanswer⟩ := query_of_transaction hop hdone
    rw [hqueries, List.mem_singleton] at hmem
    subst hmem
    rw [readFields, hread] at hnames
    exact result_of_answeredBy (recordsNamed_of_reaches hreaches) hanswer hnames

/-- One record of two fields, of which a transaction reads one. -/
def oneFieldRead : Properties :=
  { recordCount := 1, operationCount := 1, fieldCount := 2, readAllFields := false }

/-- After a load of this record a transaction asks for `fieldfield0`, which is not there, and
`Read` returns `kOK` with no pair. -/
theorem asks_fieldfield0 :
    ((calls nextDrawn).run (start oneFieldRead ()) (loadThenRun [load] [])).bind (fun s =>
      (s.recording.transaction (asDB .latestFirst).recording nextDrawn
        (transactionZero .READ).2).map fun (code, s') => (code, s'.store.2)) =
      some (kOK, [.read (some ["fieldfield0".toList]) []]) ∧
    "fieldfield0".toList ∉ (CoreWorkload.init oneFieldRead).fieldNames := by
  constructor
  · decide +kernel
  · decide +kernel

/-- The theorem at this load and this transaction. -/
theorem asks_missing_fields_oneFieldRead : ∃ s code s',
    (calls nextDrawn).run (start oneFieldRead ()) (loadThenRun [load] []) = some s ∧
      s.recording.transaction (asDB .latestFirst).recording nextDrawn (transactionZero .READ).2 =
        some (code, s') ∧
      ¬ AsksForFields s.wl s'.store.2 ∧
      ∀ fields result, .read fields result ∈ s'.store.2 → result = [] := by
  have hsome : (((calls nextDrawn).run (start oneFieldRead ()) (loadThenRun [load] [])).bind
      fun s => s.recording.transaction (asDB .latestFirst).recording nextDrawn
        (transactionZero .READ).2).isSome := by decide +kernel
  have hall : ((calls nextDrawn).run (start oneFieldRead ()) (loadThenRun [load] [])).map
      (fun s => s.wl.readAllFields) = some false := by decide +kernel
  obtain ⟨⟨code, s'⟩, hboth⟩ := Option.isSome_iff_exists.mp hsome
  obtain ⟨s, hrun, hdone⟩ := Option.bind_eq_some_iff.mp hboth
  rw [hrun] at hall
  have hread : s.wl.readAllFields = false := Option.some.inj hall
  exact ⟨s, code, s', hrun, hdone,
    (asks_missing_fields nextDrawn).1 (asDB .latestFirst) s _ code s' hread rfl hdone,
    (asks_missing_fields nextDrawn).2 oneFieldRead () s .latestFirst _ code s' ⟨_, hrun⟩ hread rfl
      hdone⟩

end Bench

end YcsbC
