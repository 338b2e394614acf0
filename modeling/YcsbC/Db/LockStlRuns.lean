import YcsbC.Db.LockStlMemory
import YcsbC.Db.RecordWrites
import Mathlib.Data.Finset.Card

/-!
# Runs of the database on its memory

Whatever calls are made, one after another, none of them follows or frees a pointer to
what has been freed, and each returns what it returns on `HashtableDB`
(`runs_agree`).  What is lost is known exactly: an `Insert` that conflicts loses the copy of one field, an `Update` that makes a record loses a value and
the copy of a field for every pair that repeats a field, and a `Delete` loses the copies
of the fields of its record.  After `~LockStlDB` just that is still allocated, together
with the copies of the index strings and fields of the records that were there
(`destroy_leaves`).
-/

namespace YcsbC

/-! ## The names of a table -/

namespace StlHashtable

variable {V : Type}

/-- The keys of a table. -/
def names (t : StlHashtable V) : Finset Str := (t.table.entries.keys.map HashString.value).toFinset

theorem size_eq_card (t : StlHashtable V) : t.size = t.names.card := by
  have hnodup : (t.table.entries.keys.map HashString.value).Nodup :=
    t.table.nodupKeys.map fun _ _ => HashString.ext
  rw [names, List.toFinset_card_of_nodup hnodup, List.length_map, List.keys, List.length_map, size]

theorem names_insert {t : StlHashtable V} {key : Str} (hget : t.get key = none) (value : V) :
    (t.insert key value).2.names = Insert.insert (cStr key) t.names := by
  have hmem : HashString.wrap key ∉ t.table := AList.lookup_eq_none.mp hget
  rw [StlHashtable.insert, show t.table.lookup (.wrap key) = none from hget, names,
    AList.entries_insert_of_notMem hmem]
  simp [names, HashString.wrap]

theorem mem_names_of_get {t : StlHashtable V} {key : Str} {value : V}
    (hget : t.get key = some value) : cStr key ∈ t.names := by
  have hmem : HashString.wrap key ∈ t.table := by
    rw [← AList.lookup_isSome, show t.table.lookup (.wrap key) = some value from hget]
    rfl
  rw [names, List.mem_toFinset]
  exact List.mem_map_of_mem (f := HashString.value) (AList.mem_keys.mp hmem)

end StlHashtable

namespace HashtableDB

/-- The fields of a list of pairs, as a table tells them apart. -/
def fieldNames (values : List KVPair) : Finset Str := (values.map fun pair => cStr pair.1).toFinset

/-- The number of pairs that repeat a field. -/
def repeats (values : List KVPair) : ℕ := values.length - (fieldNames values).card

/-- A new record has the fields of the list. -/
theorem names_updateNewFields (fields : FieldHashtable) (values : List KVPair) :
    (updateNewFields fields values).names = fields.names ∪ fieldNames values := by
  induction values generalizing fields with
  | nil => simp [updateNewFields, fieldNames]
  | cons pair values ih =>
      obtain ⟨field, str⟩ := pair
      have hcons : fieldNames ((field, str) :: values) =
          Insert.insert (cStr field) (fieldNames values) := by
        simp [fieldNames]
      rw [updateNewFields, ih, hcons]
      cases hget : fields.get field with
      | none => rw [StlHashtable.names_insert hget, Finset.insert_union, Finset.union_insert]
      | some old =>
          rw [StlHashtable.insert_of_get hget, Finset.union_insert, eq_comm,
            Finset.insert_eq_self.mpr]
          exact Finset.mem_union_left _ (StlHashtable.mem_names_of_get hget)

end HashtableDB

namespace LockStlDB

namespace Accounts

variable {m : LockStlDB} {db : HashtableDB} {keys values tables : List Ptr} {table : Ptr}
  {fields : FieldHashtable}

/-! ## The loops -/

/-- The loop of `Insert` loses the copy of the field that conflicts. -/
theorem insertFields (hacc : Accounts m db keys values tables)
    (hfields : db.fieldTable table = some fields) (pairs : List KVPair) :
    ∃ m' lost, m.insertFields table pairs =
        some ((HashtableDB.insertFields fields pairs).1, m') ∧
      lost.length = (if (HashtableDB.insertFields fields pairs).1 = kErrorConflict then 1 else 0) ∧
      Accounts m' (db.setFieldTable table (HashtableDB.insertFields fields pairs).2)
        (lost ++ keys) values tables := by
  induction pairs generalizing m db fields with
  | nil =>
      refine ⟨m, [], rfl, ?_, ?_⟩
      · simp [HashtableDB.insertFields, kOK, kErrorConflict]
      · rw [HashtableDB.insertFields, HashtableDB.setFieldTable_self hfields]
        exact hacc
  | cons pair pairs ih =>
      obtain ⟨field, str⟩ := pair
      obtain ⟨hacc₁, hvalue⟩ := hacc.copyString str
      cases hget : fields.get field with
      | none =>
          obtain ⟨m₂, hinsert, hacc₂, -⟩ := hacc₁.fieldInsert_of_none hvalue hfields hget
          obtain ⟨m', lost, hrest, hlost, hacc'⟩ :=
            ih hacc₂ (HashtableDB.fieldTable_setFieldTable _ hfields)
          rw [HashtableDB.setFieldTable_setFieldTable] at hacc'
          rw [HashtableDB.insertFields_cons_of_none hget]
          refine ⟨m', lost, ?_, hlost, hacc'⟩
          simp only [LockStlDB.insertFields, hinsert, Option.bind_eq_bind, Option.bind_some]
          exact hrest
      | some old =>
          obtain ⟨m₂, key, hinsert, hacc₂⟩ :=
            hacc₁.fieldInsert_of_some hfields hget (m.copyString str).1
          obtain ⟨m', hdelete, hacc', -⟩ := hacc₂.deleteString
          rw [HashtableDB.insertFields_cons_of_some hget,
            HashtableDB.setFieldTable_self hfields]
          refine ⟨m', [key], ?_, by simp, hacc'⟩
          simp [LockStlDB.insertFields, hinsert, hdelete]

/-- The loop of `Update` on a new field table loses the value and the copy of the field
of each pair whose field is there. -/
theorem updateNewFields (hacc : Accounts m db keys values tables)
    (hfields : db.fieldTable table = some fields) (pairs : List KVPair) :
    ∃ m' lostKeys lostValues, m.updateNewFields table pairs = some m' ∧
      lostKeys.length + (HashtableDB.updateNewFields fields pairs).size =
        fields.size + pairs.length ∧
      lostValues.length = lostKeys.length ∧
      Accounts m' (db.setFieldTable table (HashtableDB.updateNewFields fields pairs))
        (lostKeys ++ keys) (lostValues ++ values) tables := by
  induction pairs generalizing m db fields keys values with
  | nil =>
      refine ⟨m, [], [], rfl, ?_, rfl, ?_⟩
      · simp [HashtableDB.updateNewFields]
      · rw [HashtableDB.updateNewFields, HashtableDB.setFieldTable_self hfields]
        exact hacc
  | cons pair pairs ih =>
      obtain ⟨field, str⟩ := pair
      obtain ⟨hacc₁, hvalue⟩ := hacc.copyString str
      rw [HashtableDB.updateNewFields]
      cases hget : fields.get field with
      | none =>
          obtain ⟨m₂, hinsert, hacc₂, -⟩ := hacc₁.fieldInsert_of_none hvalue hfields hget
          obtain ⟨m', lostKeys, lostValues, hrest, hcount, hlost, hacc'⟩ :=
            ih hacc₂ (HashtableDB.fieldTable_setFieldTable _ hfields)
          rw [HashtableDB.setFieldTable_setFieldTable] at hacc'
          refine ⟨m', lostKeys, lostValues, ?_, ?_, hlost, hacc'⟩
          · simp [LockStlDB.updateNewFields, hinsert, hrest]
          · have hsize : (fields.insert field (HashtableDB.copyString str)).2.size =
                fields.size + 1 := StlHashtable.size_insert hget
            simp only [HashtableDB.copyString, List.length_cons] at hsize ⊢
            omega
      | some old =>
          obtain ⟨m₂, key, hinsert, hacc₂⟩ :=
            hacc₁.fieldInsert_of_some hfields hget (m.copyString str).1
          obtain ⟨m', lostKeys, lostValues, hrest, hcount, hlost, hacc'⟩ := ih hacc₂ hfields
          rw [StlHashtable.insert_of_get hget]
          refine ⟨m', lostKeys ++ [key], lostValues ++ [(m.copyString str).1], ?_, ?_, ?_, ?_⟩
          · simp [LockStlDB.updateNewFields, hinsert, hrest]
          · simp only [List.length_append, List.length_cons, List.length_nil]
            omega
          · simp [hlost]
          · rw [List.append_assoc, List.append_assoc]
            exact hacc'

/-- The loop of `Update` on a field table that was there loses nothing. -/
theorem updateFields (hacc : Accounts m db keys values tables)
    (hfields : db.fieldTable table = some fields) (pairs : List KVPair) :
    ∃ m', m.updateFields table pairs = some m' ∧
      Accounts m' (db.setFieldTable table (HashtableDB.updateFields fields pairs)) keys values
        tables := by
  induction pairs generalizing m db fields with
  | nil =>
      refine ⟨m, rfl, ?_⟩
      rw [HashtableDB.updateFields, HashtableDB.setFieldTable_self hfields]
      exact hacc
  | cons pair pairs ih =>
      obtain ⟨field, str⟩ := pair
      obtain ⟨hacc₁, hvalue⟩ := hacc.copyString str
      cases hget : fields.get field with
      | none =>
          obtain ⟨m₂, hupdate, hacc₂, hsame⟩ :=
            hacc₁.fieldUpdate_of_none hfields hget (m.copyString str).1
          obtain ⟨m₃, hinsert, hacc₃, -⟩ :=
            hacc₂.fieldInsert_of_none (hsame ▸ hvalue) hfields hget
          obtain ⟨m', hrest, hacc'⟩ := ih hacc₃ (HashtableDB.fieldTable_setFieldTable _ hfields)
          rw [HashtableDB.setFieldTable_setFieldTable] at hacc'
          rw [HashtableDB.updateFields_cons_of_none hget]
          refine ⟨m', ?_, hacc'⟩
          simp [LockStlDB.updateFields, hupdate, hinsert, hrest]
      | some old =>
          obtain ⟨m₂, value₀, hupdate, hacc₂, -⟩ :=
            hacc₁.fieldUpdate_of_some hvalue hfields hget
          obtain ⟨m₃, hdelete, hacc₃, -⟩ := hacc₂.deleteString
          obtain ⟨m', hrest, hacc'⟩ := ih hacc₃ (HashtableDB.fieldTable_setFieldTable _ hfields)
          rw [HashtableDB.setFieldTable_setFieldTable] at hacc'
          rw [HashtableDB.updateFields_cons_of_some hget]
          refine ⟨m', ?_, hacc'⟩
          simp [LockStlDB.updateFields, hupdate, hdelete, hrest]

/-! ## The operations -/

/-- A new field table in the key table. -/
theorem publish (hacc : Accounts m db keys values tables) {index : Str}
    (hget : db.keyTable.get index = none) :
    ∃ m', m.newFieldHashtable.2.keyInsert index m.newFieldHashtable.1 = some m' ∧
      m.newFieldHashtable.1 = db.newFieldHashtable.1 ∧
      Accounts m' (db.publish index) keys values tables := by
  obtain ⟨hsame, hacc₁⟩ := hacc.newFieldHashtable
  obtain ⟨m', hinsert, hacc'⟩ := hacc₁.keyInsert_of_none hget
  rw [hsame] at hacc'
  exact ⟨m', hinsert, hsame, hacc'⟩

theorem insert (hacc : Accounts m db keys values tables) (table key : Str)
    (pairs : List KVPair) :
    ∃ status db' m' lost, db.insert table key pairs = some (status, db') ∧
      m.insert table key pairs = some (status, m') ∧
      lost.length = (if status = kErrorConflict then 1 else 0) ∧
      Accounts m' db' (lost ++ keys) values tables := by
  cases hget : db.keyTable.get (table ++ key) with
  | none =>
      obtain ⟨m₁, hpublish, hsame, hacc₁⟩ := hacc.publish hget
      have hfields : (db.publish (table ++ key)).fieldTable db.newFieldHashtable.1 =
        some .empty := HashtableDB.fieldTable_new_self
      obtain ⟨m', lost, hinsert, hlost, hacc'⟩ := hacc₁.insertFields hfields pairs
      refine ⟨_, _, m', lost, ?_, ?_, hlost, hacc'⟩
      · rw [HashtableDB.insert, hget]
        change ((db.publish (table ++ key)).fieldTable db.newFieldHashtable.1).map _ = _
        rw [hfields]
        rfl
      · rw [LockStlDB.insert, hacc.keyGet, hget]
        simp only [Option.bind_eq_bind, Option.bind_some, hpublish]
        rw [hsame, hinsert]
  | some handle =>
      obtain ⟨fields, hfields⟩ := hacc.exists_fieldTable hget
      obtain ⟨m', lost, hinsert, hlost, hacc'⟩ := hacc.insertFields hfields pairs
      refine ⟨_, _, m', lost, ?_, ?_, hlost, hacc'⟩
      · rw [HashtableDB.insert, hget]
        change (db.fieldTable handle).map _ = _
        rw [hfields]
        rfl
      · rw [LockStlDB.insert, hacc.keyGet, hget]
        simp only [Option.bind_eq_bind, Option.bind_some, hinsert]

theorem update (hacc : Accounts m db keys values tables) (table key : Str)
    (pairs : List KVPair) :
    ∃ db' m' lostKeys lostValues, db.update table key pairs = some (kOK, db') ∧
      m.update table key pairs = some (kOK, m') ∧
      lostValues.length =
        (if (db.recordTable (table ++ key)).isNone then HashtableDB.repeats pairs else 0) ∧
      lostKeys.length = lostValues.length ∧
      Accounts m' db' (lostKeys ++ keys) (lostValues ++ values) tables := by
  cases hget : db.keyTable.get (table ++ key) with
  | none =>
      obtain ⟨m₁, hpublish, hsame, hacc₁⟩ := hacc.publish hget
      have hfields : (db.publish (table ++ key)).fieldTable db.newFieldHashtable.1 =
        some .empty := HashtableDB.fieldTable_new_self
      obtain ⟨m', lostKeys, lostValues, hupdate, hcount, hlost, hacc'⟩ :=
        hacc₁.updateNewFields hfields pairs
      refine ⟨_, m', lostKeys, lostValues, ?_, ?_, ?_, hlost.symm, hacc'⟩
      · rw [HashtableDB.update, hget]
        change ((db.publish (table ++ key)).fieldTable db.newFieldHashtable.1).map _ = _
        rw [hfields]
        rfl
      · rw [LockStlDB.update, hacc.keyGet, hget]
        simp only [Option.bind_eq_bind, Option.bind_some, hpublish]
        rw [hsame, hupdate]
        rfl
      · rw [StlHashtable.size_eq_card, HashtableDB.names_updateNewFields] at hcount
        rw [HashtableDB.recordTable_of_none hget, HashtableDB.repeats, hlost]
        have hempty : (StlHashtable.empty : FieldHashtable).names = ∅ := rfl
        rw [hempty, Finset.empty_union] at hcount
        have hsize : (StlHashtable.empty : FieldHashtable).size = 0 := rfl
        simp
        omega
  | some handle =>
      obtain ⟨fields, hfields⟩ := hacc.exists_fieldTable hget
      obtain ⟨m', hupdate, hacc'⟩ := hacc.updateFields hfields pairs
      refine ⟨_, m', [], [], ?_, ?_, ?_, rfl, hacc'⟩
      · rw [HashtableDB.update, hget]
        change (db.fieldTable handle).map _ = _
        rw [hfields]
        rfl
      · rw [LockStlDB.update, hacc.keyGet, hget]
        simp [hupdate]
      · simp [HashtableDB.recordTable, hget, hfields]

theorem delete {order : IterationOrder} (horder : order.LooksAtKeys)
    (hacc : Accounts m db keys values tables) (table key : Str) :
    ∃ status db' m' lost, db.delete table key = some (status, db') ∧
      m.delete order table key = some (status, m') ∧
      lost.length = (db.recordTable (table ++ key)).elim 0 StlHashtable.size ∧
      Accounts m' db' (lost ++ keys) values tables := by
  cases hget : db.keyTable.get (table ++ key) with
  | none =>
      refine ⟨kErrorNoData, db, m, [], ?_, ?_, ?_, hacc⟩
      · rw [HashtableDB.delete, StlHashtable.remove,
          show db.keyTable.table.lookup (.wrap (table ++ key)) = none from hget]
      · simp [LockStlDB.delete, hacc.keyRemove_of_none hget]
      · simp [HashtableDB.recordTable_of_none hget]
  | some handle =>
      obtain ⟨fields, hfields⟩ := hacc.exists_fieldTable hget
      obtain ⟨m₁, hremove, hacc₁⟩ := hacc.keyRemove_of_some hget
      obtain ⟨m', lost, hdelete, hlost, -, hacc'⟩ :=
        hacc₁.deleteFieldHashtable horder hfields
      refine ⟨kOK, _, m', lost, ?_, ?_, ?_, hacc'⟩
      · have hremoved : (db.keyTable.remove (table ++ key)).1 = some handle := by
          rw [StlHashtable.remove_fst, hget]
        rw [HashtableDB.delete]
        dsimp only
        rw [hremoved]
        change ((db.fieldTable handle).map _).map _ = _
        rw [hfields]
        rfl
      · simp [LockStlDB.delete, hremove, hdelete]
      · simp [HashtableDB.recordTable, hget, hfields, hlost]

theorem read {order : IterationOrder} (horder : order.LooksAtKeys)
    (hacc : Accounts m db keys values tables) (table key : Str) (asked : Option (List Str))
    (result : List KVPair) :
    ∃ returned, db.read order table key asked result = some returned ∧
      m.read order table key asked result = some returned := by
  rw [LockStlDB.read, hacc.keyGet, HashtableDB.read]
  simp only [Option.bind_eq_bind, Option.bind_some]
  cases hget : db.keyTable.get (table ++ key) with
  | none => exact ⟨_, rfl, rfl⟩
  | some handle =>
      obtain ⟨fields, hfields⟩ := hacc.exists_fieldTable hget
      refine ⟨(kOK, HashtableDB.readFields order fields asked), ?_, ?_⟩
      · simp [hfields]
      · simp [hacc.readFields horder hfields]

/-- The loop of `Scan` over entries whose field tables are there. -/
theorem mapM_readFields {order : IterationOrder} (horder : order.LooksAtKeys)
    (hacc : Accounts m db keys values tables) (asked : Option (List Str))
    {pairs : List (Ptr × Ptr)} {pairs' : List (Str × Handle)}
    (hpairs : List.Forall₂ (MemHashtable.PairRel m.keys (· = ·)) pairs pairs')
    (hlive : ∀ pair ∈ pairs', ∃ fields, db.fieldTable pair.2 = some fields) :
    ∃ result, (pairs'.mapM fun pair => (db.fieldTable pair.2).map fun fieldTable =>
        HashtableDB.readFields order fieldTable asked) = some result ∧
      (pairs.mapM fun pair => m.readFields order pair.2 asked) = some result := by
  induction hpairs with
  | nil => exact ⟨[], rfl, rfl⟩
  | cons hhead _ ih =>
      obtain ⟨fields, hfields⟩ := hlive _ List.mem_cons_self
      obtain ⟨result, htables, hmemory⟩ := ih fun pair hmem => hlive pair (List.mem_cons_of_mem _ hmem)
      refine ⟨HashtableDB.readFields order fields asked :: result, ?_, ?_⟩
      · rw [List.mapM_cons, htables, hfields]
        rfl
      · rw [List.mapM_cons, hmemory, hhead.2, hacc.readFields horder hfields]
        rfl

theorem scan {order : IterationOrder} (horder : order.LooksAtKeys)
    (hacc : Accounts m db keys values tables) (table key : Str) (len : Int32)
    (asked : Option (List Str)) :
    ∃ returned, db.scan order table key len asked = some returned ∧
      m.scan order table key len asked = some returned := by
  obtain ⟨pairs, hentries, hpairs⟩ := MemHashtable.entries_spec hacc.keyTable horder
    (some (table ++ key)) (some (sizeOfInt len))
  have hlive : ∀ pair ∈ db.keyTable.entries order (some (table ++ key)) (some (sizeOfInt len)),
      ∃ fields, db.fieldTable pair.2 = some fields := by
    intro pair hmem
    exact hacc.exists_fieldTable (StlHashtable.get_of_mem_entries hmem)
  obtain ⟨result, htables, hmemory⟩ := hacc.mapM_readFields horder asked hpairs hlive
  refine ⟨(kOK, result), ?_, ?_⟩
  · simp only [HashtableDB.scan, htables, Option.map_some]
  · simp only [LockStlDB.scan, hentries, hmemory, Option.bind_eq_bind, Option.bind_some]

end Accounts

end LockStlDB

/-! ## Runs -/

/-- A call of `HashtableDB`, with the order in which it visits tables. -/
inductive StoreCall where
  | insert (table key : Str) (values : List KVPair)
  | update (table key : Str) (values : List KVPair)
  | delete (order : IterationOrder) (table key : Str)
  | read (order : IterationOrder) (table key : Str) (fields : Option (List Str))
      (result : List KVPair)
  | scan (order : IterationOrder) (table key : Str) (len : Int32) (fields : Option (List Str))

/-- What a call returns: its status, and the records that `Read` and `Scan` list. -/
structure CallResult where
  /-- The status. -/
  status : ℤ
  /-- `result`, of one record for `Read`. -/
  records : List (List KVPair)

namespace StoreCall

/-- The tables are visited in an order that depends on their keys. -/
def LooksAtKeys : StoreCall → Prop
  | insert .. | update .. => True
  | delete order _ _ | read order _ _ _ _ | scan order _ _ _ _ => order.LooksAtKeys

/-- A call on the tables. -/
def onTables (db : HashtableDB) : StoreCall → Option (CallResult × HashtableDB)
  | insert table key values => (db.insert table key values).map fun (status, db) => (⟨status, []⟩, db)
  | update table key values => (db.update table key values).map fun (status, db) => (⟨status, []⟩, db)
  | delete _ table key => (db.delete table key).map fun (status, db) => (⟨status, []⟩, db)
  | read order table key fields result =>
      (db.read order table key fields result).map fun (status, result) => (⟨status, [result]⟩, db)
  | scan order table key len fields =>
      (db.scan order table key len fields).map fun (status, result) => (⟨status, result⟩, db)

/-- A call on the memory. -/
def onMemory (m : LockStlDB) : StoreCall → Option (CallResult × LockStlDB)
  | insert table key values => (m.insert table key values).map fun (status, m) => (⟨status, []⟩, m)
  | update table key values => (m.update table key values).map fun (status, m) => (⟨status, []⟩, m)
  | delete order table key => (m.delete order table key).map fun (status, m) => (⟨status, []⟩, m)
  | read order table key fields result =>
      (m.read order table key fields result).map fun (status, result) => (⟨status, [result]⟩, m)
  | scan order table key len fields =>
      (m.scan order table key len fields).map fun (status, result) => (⟨status, result⟩, m)

/-- The values that a call loses. -/
def lostValues (db : HashtableDB) : StoreCall → ℕ
  | update table key values =>
      if (db.recordTable (table ++ key)).isNone then HashtableDB.repeats values else 0
  | insert .. | delete .. | read .. | scan .. => 0

/-- The copies of keys that a call loses. -/
def lostKeys (db : HashtableDB) : StoreCall → ℕ
  | insert table key values =>
      if (db.insert table key values).map Prod.fst = some kErrorConflict then 1 else 0
  | update table key values =>
      if (db.recordTable (table ++ key)).isNone then HashtableDB.repeats values else 0
  | delete _ table key => (db.recordTable (table ++ key)).elim 0 StlHashtable.size
  | read .. | scan .. => 0

/-- Calls one after another, with what they return. -/
def run {σ : Type} (step : σ → StoreCall → Option (CallResult × σ)) (s : σ) :
    List StoreCall → Option (List CallResult × σ)
  | [] => some ([], s)
  | call :: calls => do
      let (result, s) ← step s call
      let (results, s) ← run step s calls
      some (result :: results, s)

/-- What the calls of a run lose. -/
def lostIn (lost : HashtableDB → StoreCall → ℕ) (db : HashtableDB) : List StoreCall → ℕ
  | [] => 0
  | call :: calls => lost db call + match call.onTables db with
      | none => 0
      | some (_, db') => lostIn lost db' calls

end StoreCall

namespace LockStlDB

variable {m : LockStlDB} {db : HashtableDB} {keys values tables : List Ptr}

/-- A call on the memory returns what it returns on the tables, and loses what it is said
to lose. -/
theorem Accounts.call (hacc : Accounts m db keys values tables) {call : StoreCall}
    (hcall : call.LooksAtKeys) :
    ∃ result db' m' lostKeys lostValues, call.onTables db = some (result, db') ∧
      call.onMemory m = some (result, m') ∧ lostKeys.length = call.lostKeys db ∧
      lostValues.length = call.lostValues db ∧
      Accounts m' db' (lostKeys ++ keys) (lostValues ++ values) tables := by
  cases call with
  | insert table key pairs =>
      obtain ⟨status, db', m', lost, htables, hmemory, hlost, hacc'⟩ :=
        hacc.insert table key pairs
      refine ⟨⟨status, []⟩, db', m', lost, [], ?_, ?_, ?_, rfl, hacc'⟩
      · simp [StoreCall.onTables, htables]
      · simp [StoreCall.onMemory, hmemory]
      · simp [StoreCall.lostKeys, htables, hlost]
  | update table key pairs =>
      obtain ⟨db', m', lostKeys, lostValues, htables, hmemory, hlost, hkeys, hacc'⟩ :=
        hacc.update table key pairs
      refine ⟨⟨kOK, []⟩, db', m', lostKeys, lostValues, ?_, ?_, ?_, hlost, hacc'⟩
      · simp [StoreCall.onTables, htables]
      · simp [StoreCall.onMemory, hmemory]
      · rw [hkeys, hlost, StoreCall.lostKeys]
  | delete order table key =>
      obtain ⟨status, db', m', lost, htables, hmemory, hlost, hacc'⟩ :=
        hacc.delete hcall table key
      refine ⟨⟨status, []⟩, db', m', lost, [], ?_, ?_, hlost, rfl, hacc'⟩
      · simp [StoreCall.onTables, htables]
      · simp [StoreCall.onMemory, hmemory]
  | read order table key asked result =>
      obtain ⟨returned, htables, hmemory⟩ := hacc.read hcall table key asked result
      refine ⟨⟨returned.1, [returned.2]⟩, db, m, [], [], ?_, ?_, rfl, rfl, hacc⟩
      · simp [StoreCall.onTables, htables]
      · simp [StoreCall.onMemory, hmemory]
  | scan order table key len asked =>
      obtain ⟨returned, htables, hmemory⟩ := hacc.scan hcall table key len asked
      refine ⟨⟨returned.1, returned.2⟩, db, m, [], [], ?_, ?_, rfl, rfl, hacc⟩
      · simp [StoreCall.onTables, htables]
      · simp [StoreCall.onMemory, hmemory]

/-- A run on the memory returns what it returns on the tables, and loses what its calls are
said to lose. -/
theorem Accounts.run (hacc : Accounts m db keys values tables) {calls : List StoreCall}
    (hcalls : ∀ call ∈ calls, call.LooksAtKeys) :
    ∃ results db' m' lostKeys lostValues,
      StoreCall.run StoreCall.onTables db calls = some (results, db') ∧
      StoreCall.run StoreCall.onMemory m calls = some (results, m') ∧
      lostKeys.length = StoreCall.lostIn StoreCall.lostKeys db calls ∧
      lostValues.length = StoreCall.lostIn StoreCall.lostValues db calls ∧
      Accounts m' db' (lostKeys ++ keys) (lostValues ++ values) tables := by
  induction calls generalizing m db keys values with
  | nil => exact ⟨[], db, m, [], [], rfl, rfl, rfl, rfl, hacc⟩
  | cons call calls ih =>
      obtain ⟨result, db₁, m₁, keys₁, values₁, htables, hmemory, hkeys, hvalues, hacc₁⟩ :=
        hacc.call (hcalls call List.mem_cons_self)
      obtain ⟨results, db', m', keys', values', htables', hmemory', hkeys', hvalues', hacc'⟩ :=
        ih hacc₁ fun call' hmem => hcalls call' (List.mem_cons_of_mem _ hmem)
      refine ⟨result :: results, db', m', keys' ++ keys₁, values' ++ values₁, ?_, ?_, ?_, ?_, ?_⟩
      · simp [StoreCall.run, htables, htables']
      · simp [StoreCall.run, hmemory, hmemory']
      · simp [StoreCall.lostIn, htables, hkeys, hkeys', Nat.add_comm]
      · simp [StoreCall.lostIn, htables, hvalues, hvalues', Nat.add_comm]
      · rw [List.append_assoc, List.append_assoc]
        exact hacc'

/-! ## `~LockStlDB` -/

/-- The field tables of the key table in nobody's table. -/
theorem Accounts.dropKeyTable (hacc : Accounts m db keys values tables) :
    Accounts { m with keyTable := .empty } { db with keyTable := .empty }
      (m.keyTable.keyPtrs ++ keys) values (m.keyTable.values ++ tables) where
  keyTable := MemHashtable.refines_empty
  fieldTables := hacc.fieldTables
  ownsKeys := by
    refine hacc.ownsKeys.perm (List.perm_iff_count.mpr fun ptr => ?_)
    simp only [List.count_append, MemHashtable.keyPtrs_empty, List.count_nil]
    omega
  ownsValues := hacc.ownsValues
  ownsTables := by
    refine hacc.ownsTables.perm (List.perm_iff_count.mpr fun ptr => ?_)
    simp only [List.count_append, MemHashtable.values_empty, List.count_nil]
    omega

/-- Field tables that are in no table are freed one after another; no copy of a key is. -/
theorem Accounts.deleteFieldHashtables {order : IterationOrder} (horder : order.LooksAtKeys)
    {handles : List Ptr} (hacc : Accounts m db keys values (handles ++ tables)) :
    ∃ m' db' lost, m.deleteFieldHashtables order handles = some m' ∧ m'.keys = m.keys ∧
      db'.keyTable = db.keyTable ∧ Accounts m' db' (lost ++ keys) values tables := by
  induction handles generalizing m db keys with
  | nil => exact ⟨m, db, [], rfl, rfl, rfl, hacc⟩
  | cons handle handles ih =>
      obtain ⟨t, hread⟩ := hacc.ownsTables.read (List.mem_append_left _ List.mem_cons_self)
      obtain ⟨fields, hfields, -⟩ := hacc.fieldTables.exists_right hread
      obtain ⟨m₁, lost₁, hdelete, -, hkeys₁, hacc₁⟩ := hacc.deleteFieldHashtable horder hfields
      obtain ⟨m', db', lost, hrest, hkeys, hkeyTable, hacc'⟩ := ih hacc₁
      refine ⟨m', db', lost ++ lost₁, ?_, hkeys.trans hkeys₁, hkeyTable, ?_⟩
      · simp [LockStlDB.deleteFieldHashtables, hdelete, hrest]
      · rw [List.append_assoc]
        exact hacc'

theorem deleteFieldHashtables_congr (keyTable : MemHashtable Ptr) (order : IterationOrder)
    (handles : List Ptr) :
    { m with keyTable := keyTable }.deleteFieldHashtables order handles =
      (m.deleteFieldHashtables order handles).map fun m' => { m' with keyTable := keyTable } := by
  induction handles generalizing m with
  | nil => rfl
  | cons handle handles ih =>
      simp only [LockStlDB.deleteFieldHashtables, Accounts.deleteFieldHashtable_congr,
        Option.bind_eq_bind]
      cases m.deleteFieldHashtable order handle with
      | none => rfl
      | some m₁ => exact ih

end LockStlDB

namespace HashtableDB

/-- The number of index strings and fields of all records. -/
def nameCount (db : HashtableDB) : ℕ :=
  db.keyTable.size + (db.keyTable.table.entries.map fun entry =>
    (db.fieldTable entry.2).elim 0 StlHashtable.size).sum

end HashtableDB

namespace LockStlDB

variable {m : LockStlDB} {db : HashtableDB} {keys values : List Ptr}

/-- The field tables of some handles have as many copies of keys as they have fields. -/
theorem length_flatMap_keyPtrs {memory : Heap Str} {R : Ptr → Str → Prop}
    (htables : m.fieldTables.Rel (MemHashtable.Refines memory R) db.heap)
    {elements : List (StringRef × Ptr)} {entries' : List (Sigma fun _ : HashString => Handle)}
    (hrel : List.Forall₂ (MemHashtable.ElementRel memory (· = ·)) elements entries') :
    (((elements.map Prod.snd).filterMap m.fieldTables.read).flatMap MemHashtable.keyPtrs).length =
      (entries'.map fun entry => (db.fieldTable entry.2).elim 0 StlHashtable.size).sum := by
  induction hrel with
  | nil => rfl
  | @cons elem entry elements entries' hhead _ ih =>
      have hread := htables.read elem.2
      rw [show (db.heap[elem.2]?).join = db.fieldTable entry.2 by rw [hhead.value]; rfl] at hread
      rw [List.map_cons, List.filterMap_cons, List.map_cons, List.sum_cons, ← ih]
      generalize db.fieldTable entry.2 = fieldTable at hread
      generalize m.fieldTables.read elem.2 = t at hread
      cases hread with
      | none => simp
      | @some t fields href =>
          have hsize : t.keyPtrs.length = fields.size := by
            rw [MemHashtable.keyPtrs, List.length_map]
            exact List.Forall₂.length_eq href
          simp [hsize]

/-- The copies of keys that are in tables are as many as the names. -/
theorem Accounts.length_keyPtrs (hacc : Accounts m db keys values []) :
    (m.keyTable.keyPtrs ++ m.fieldTables.contents.flatMap MemHashtable.keyPtrs).length =
      db.nameCount := by
  have hperm : (m.fieldTables.contents.flatMap MemHashtable.keyPtrs).Perm
      ((m.keyTable.values.filterMap m.fieldTables.read).flatMap MemHashtable.keyPtrs) :=
    hacc.ownsTables.contents_perm.flatMap_right _
  have hsize : m.keyTable.keyPtrs.length = db.keyTable.size := by
    rw [MemHashtable.keyPtrs, List.length_map]
    exact List.Forall₂.length_eq hacc.keyTable
  rw [List.length_append, hperm.length_eq, HashtableDB.nameCount, hsize, MemHashtable.values,
    length_flatMap_keyPtrs hacc.fieldTables hacc.keyTable]

/-- After `~LockStlDB` no field table is allocated, the values that are were lost before,
and so were the copies of keys, except those of the records that were there. -/
theorem Accounts.destroy {order : IterationOrder} (horder : order.LooksAtKeys)
    (hacc : Accounts m db keys values []) :
    ∃ m', m.destroy order = some m' ∧ m'.fieldTables.size = 0 ∧
      m'.values.size = values.length ∧ m'.keys.size = keys.length + db.nameCount := by
  obtain ⟨pairs, hentries, -⟩ := MemHashtable.entries_spec hacc.keyTable horder none none
  have hacc₁ : Accounts { m with keyTable := .empty } { db with keyTable := .empty }
      (m.keyTable.keyPtrs ++ keys) values (pairs.map Prod.snd ++ []) :=
    { hacc.dropKeyTable with
      ownsTables := hacc.dropKeyTable.ownsTables.perm
        (((MemHashtable.entries_perm_values hentries).symm.append_right _).append_right _) }
  obtain ⟨m', db', lost, hdelete, hkeys, hkeyTable, hacc'⟩ := hacc₁.deleteFieldHashtables horder
  have hnothing : m'.keyTable.values = [] := by
    have href := hacc'.keyTable
    rw [hkeyTable] at href
    rw [MemHashtable.values, List.forall₂_nil_right_iff.mp href, List.map_nil]
  have htables : m'.fieldTables.size = 0 := by
    rw [← hacc'.ownsTables.length, hnothing]
    rfl
  have hnone : m'.fieldTables.contents = [] := List.length_eq_zero_iff.mp htables
  refine ⟨m', ?_, htables, ?_, ?_⟩
  · rw [deleteFieldHashtables_congr, Option.map_eq_some_iff] at hdelete
    obtain ⟨m₁, hdelete, rfl⟩ := hdelete
    simp [LockStlDB.destroy, hentries, hdelete]
  · rw [← hacc'.ownsValues.length, hnone]
    simp
  · rw [hkeys, ← hacc.ownsKeys.length, List.length_append, hacc.length_keyPtrs]

/-- No run follows or frees a pointer to what has been freed, and every call of it returns
what it returns on the tables. -/
theorem runs_agree {calls : List StoreCall} (hcalls : ∀ call ∈ calls, call.LooksAtKeys) :
    ∃ results db m, StoreCall.run StoreCall.onTables .empty calls = some (results, db) ∧
      StoreCall.run StoreCall.onMemory .new calls = some (results, m) := by
  obtain ⟨results, db, m, -, -, htables, hmemory, -⟩ := Accounts.new.run hcalls
  exact ⟨results, db, m, htables, hmemory⟩

/-- After a run and `~LockStlDB` no field table is allocated.  The values that are have been
lost by calls, and so have the copies of keys, except those of the records that were
there. -/
theorem destroy_leaves {calls : List StoreCall} (hcalls : ∀ call ∈ calls, call.LooksAtKeys)
    {order : IterationOrder} (horder : order.LooksAtKeys) :
    ∃ results db m m', StoreCall.run StoreCall.onTables .empty calls = some (results, db) ∧
      StoreCall.run StoreCall.onMemory .new calls = some (results, m) ∧
      m.destroy order = some m' ∧ m'.fieldTables.size = 0 ∧
      m'.values.size = StoreCall.lostIn StoreCall.lostValues .empty calls ∧
      m'.keys.size = StoreCall.lostIn StoreCall.lostKeys .empty calls + db.nameCount := by
  obtain ⟨results, db, m, lostKeys, lostValues, htables, hmemory, hkeys, hvalues, hacc⟩ :=
    Accounts.new.run hcalls
  rw [List.append_nil, List.append_nil] at hacc
  obtain ⟨m', hdestroy, hnone, hvalues', hkeys'⟩ := hacc.destroy horder
  exact ⟨results, db, m, m', htables, hmemory, hdestroy, hnone, hvalues'.trans hvalues,
    hkeys'.trans (by rw [hkeys])⟩

/-- A record is made by an `Update` that repeats a field, an `Insert` into it conflicts at
its second pair, and another record is made and deleted. -/
def sampleCalls : List StoreCall :=
  let pair (c d : Char) : KVPair := ([c], [d])
  [.update ['t'] ['k'] [pair 'a' '1', pair 'a' '2'],
    .insert ['t'] ['k'] [pair 'b' '3', pair 'a' '4'],
    .insert ['t'] ['l'] [pair 'a' '5', pair 'b' '6'],
    .delete .latestFirst ['t'] ['l'],
    .scan .latestFirst ['t'] ['k'] 1 none]

theorem looksAtKeys_sample : ∀ call ∈ sampleCalls, call.LooksAtKeys := by
  have horder := IterationOrder.looksAtKeys_latestFirst
  simp [sampleCalls, StoreCall.LooksAtKeys, horder]

example : StoreCall.lostIn StoreCall.lostValues .empty sampleCalls = 1 ∧
    StoreCall.lostIn StoreCall.lostKeys .empty sampleCalls = 4 := by
  decide

/-- The run of the sample. -/
theorem runs_agree_sample : ∃ results db m,
    StoreCall.run StoreCall.onTables .empty sampleCalls = some (results, db) ∧
      StoreCall.run StoreCall.onMemory .new sampleCalls = some (results, m) :=
  runs_agree looksAtKeys_sample

/-- What the sample leaves. -/
theorem destroy_leaves_sample : ∃ results db m m',
    StoreCall.run StoreCall.onTables .empty sampleCalls = some (results, db) ∧
      StoreCall.run StoreCall.onMemory .new sampleCalls = some (results, m) ∧
      m.destroy .latestFirst = some m' ∧ m'.fieldTables.size = 0 ∧
      m'.values.size = StoreCall.lostIn StoreCall.lostValues .empty sampleCalls ∧
      m'.keys.size = StoreCall.lostIn StoreCall.lostKeys .empty sampleCalls + db.nameCount :=
  destroy_leaves looksAtKeys_sample IterationOrder.looksAtKeys_latestFirst

end LockStlDB

end YcsbC
