import YcsbC.Db.LockStlDB
import YcsbC.Db.RecordTables

/-!
# Who owns the memory of the database

`Accounts` says that the memory of a `LockStlDB` stands for a `HashtableDB`, and keeps
three ledgers: each copy of a key, each value and each field table that is allocated is
pointed to by one table, or is listed as belonging to nobody's table.  What is so listed
is in the hands of an operation or lost.  There is one lemma for each step that the
operations are made of; it says that the step does not fail, that it does what the step
of `HashtableDB` does, and what it moves from one ledger to another.
-/

namespace YcsbC

namespace LockStlDB

/-- A pointer to a value stands for its text. -/
def PointsTo (values : Heap Str) (value : Ptr) (str : Str) : Prop := values.read value = some str

/-- The memory `m` stands for `db`.  Of what is allocated, `keys`, `values` and `tables`
are in no table. -/
structure Accounts (m : LockStlDB) (db : HashtableDB) (keys values tables : List Ptr) : Prop where
  keyTable : m.keyTable.Refines m.keys (· = ·) db.keyTable
  fieldTables : m.fieldTables.Rel (MemHashtable.Refines m.keys (PointsTo m.values)) db.heap
  ownsKeys : Owns m.keys
    (keys ++ (m.keyTable.keyPtrs ++ m.fieldTables.contents.flatMap MemHashtable.keyPtrs))
  ownsValues : Owns m.values (values ++ m.fieldTables.contents.flatMap MemHashtable.values)
  ownsTables : Owns m.fieldTables (tables ++ m.keyTable.values)

namespace Accounts

variable {m m' : LockStlDB} {db : HashtableDB} {keys values tables : List Ptr} {table value : Ptr}
  {str field index : Str} {fields : FieldHashtable}

theorem new : Accounts LockStlDB.new .empty [] [] [] where
  keyTable := MemHashtable.refines_empty
  fieldTables := List.Forall₂.nil
  ownsKeys := Owns.empty
  ownsValues := Owns.empty
  ownsTables := Owns.empty

/-- A field table of the database and the one in memory that stands for it. -/
theorem read_fieldTable (hacc : Accounts m db keys values tables)
    (hfields : db.fieldTable table = some fields) :
    ∃ t, m.fieldTables.read table = some t ∧ t.Refines m.keys (PointsTo m.values) fields :=
  hacc.fieldTables.exists_left hfields

/-- The handles of the key table point to field tables. -/
theorem exists_fieldTable {handle : Handle} (hacc : Accounts m db keys values tables)
    (hget : db.keyTable.get index = some handle) : ∃ fields, db.fieldTable handle = some fields := by
  obtain ⟨_, hmem, rfl⟩ := hacc.keyTable.exists_value hget
  obtain ⟨t, hread⟩ := hacc.ownsTables.read (List.mem_append_right tables hmem)
  obtain ⟨fields, hfields, -⟩ := hacc.fieldTables.exists_right hread
  exact ⟨fields, hfields⟩

/-! ## Strings -/

/-- The value that `CopyString` allocates is in no table. -/
theorem copyString (hacc : Accounts m db keys values tables) (str : Str) :
    Accounts (m.copyString str).2 db keys ((m.copyString str).1 :: values) tables ∧
      PointsTo (m.copyString str).2.values (m.copyString str).1 (cStr str) := by
  refine ⟨⟨hacc.keyTable, ?_, hacc.ownsKeys, hacc.ownsValues.alloc _, hacc.ownsTables⟩,
    Heap.read_alloc_self _ _⟩
  refine hacc.fieldTables.imp fun t _ t' href => href.imp (fun _ _ _ hread => hread) ?_
  intro value _ str' hvalue
  exact Heap.read_alloc hvalue _

/-- A value that is in no table can be freed. -/
theorem deleteString (hacc : Accounts m db keys (value :: values) tables) :
    ∃ m', m.deleteString value = some m' ∧ Accounts m' db keys values tables ∧
      m'.fieldTables = m.fieldTables := by
  obtain ⟨values', hfree, howns⟩ := hacc.ownsValues.free
  refine ⟨{ m with values := values' }, by simp [LockStlDB.deleteString, hfree],
    ⟨hacc.keyTable, ?_, hacc.ownsKeys, howns, hacc.ownsTables⟩, rfl⟩
  refine hacc.fieldTables.imp fun t ht t' href => href.imp (fun _ _ _ hread => hread) ?_
  intro value' hmem str' hvalue
  rw [PointsTo, Heap.read_free_ne hfree, hvalue]
  rintro rfl
  obtain ⟨hnot, -⟩ := List.nodup_cons.mp hacc.ownsValues.nodup
  exact hnot (List.mem_append_right _ (List.mem_flatMap.mpr ⟨t, ht, hmem⟩))

/-! ## Field tables -/

/-- A new field table is in no table. -/
theorem newFieldHashtable (hacc : Accounts m db keys values tables) :
    m.newFieldHashtable.1 = db.newFieldHashtable.1 ∧
      Accounts m.newFieldHashtable.2 db.newFieldHashtable.2 keys values
        (m.newFieldHashtable.1 :: tables) := by
  have hcontents : m.newFieldHashtable.2.fieldTables.contents =
      m.fieldTables.contents ++ [.empty] := Heap.contents_alloc _ _
  refine ⟨hacc.fieldTables.length, hacc.keyTable, ?_, ?_, ?_, hacc.ownsTables.alloc _⟩
  · exact hacc.fieldTables.alloc MemHashtable.refines_empty
  · rw [hcontents]
    simpa [LockStlDB.newFieldHashtable] using hacc.ownsKeys
  · rw [hcontents]
    simpa [LockStlDB.newFieldHashtable] using hacc.ownsValues

/-- A field table is exchanged for another one, made of its elements, of new copies of
keys and of what was in no table. -/
theorem writeFields (hacc : Accounts m db keys values tables)
    {t t' : MemHashtable Ptr} (hread : m.fieldTables.read table = some t)
    {memory : Heap Str} {fields' : FieldHashtable} (new keys' values' : List Ptr)
    (hmono : ∀ ptr text, m.keys.read ptr = some text → memory.read ptr = some text)
    (href : t'.Refines memory (PointsTo m.values) fields')
    (howns : Owns memory (new ++ (keys ++
      (m.keyTable.keyPtrs ++ m.fieldTables.contents.flatMap MemHashtable.keyPtrs))))
    (hkeys : (new ++ (keys ++ t.keyPtrs)).Perm (keys' ++ t'.keyPtrs))
    (hvalues : (values ++ t.values).Perm (values' ++ t'.values)) :
    ∃ fieldTables', m.fieldTables.write table t' = some fieldTables' ∧
      Accounts { m with keys := memory, fieldTables := fieldTables' }
        (db.setFieldTable table fields') keys' values' tables := by
  obtain ⟨fieldTables', hwrite⟩ := Heap.exists_write hread t'
  obtain ⟨-, hset⟩ := Heap.write_eq_some.mp hwrite
  refine ⟨fieldTables', hwrite, hacc.keyTable.imp (fun ptr _ => hmono ptr) fun _ _ _ h => h, ?_,
    ?_, ?_, hacc.ownsTables.write hwrite⟩
  · subst hset
    refine Heap.Rel.set ?_ table (.some href)
    exact hacc.fieldTables.imp fun _ _ _ h => h.imp (fun ptr _ => hmono ptr) fun _ _ _ h => h
  · obtain ⟨rest, hbefore, hafter⟩ := Heap.flatMap_contents_write MemHashtable.keyPtrs hread hwrite
    refine howns.perm (List.perm_iff_count.mpr fun ptr => ?_)
    have hbefore := hbefore.count_eq ptr
    have hafter := hafter.count_eq ptr
    have hkeys := hkeys.count_eq ptr
    simp only [List.count_append] at hbefore hafter hkeys ⊢
    omega
  · obtain ⟨rest, hbefore, hafter⟩ := Heap.flatMap_contents_write MemHashtable.values hread hwrite
    refine hacc.ownsValues.perm (List.perm_iff_count.mpr fun ptr => ?_)
    have hbefore := hbefore.count_eq ptr
    have hafter := hafter.count_eq ptr
    have hvalues := hvalues.count_eq ptr
    simp only [List.count_append] at hbefore hafter hvalues ⊢
    omega

/-- The key that a table copies is new. -/
theorem owns_copy (hacc : Accounts m db keys values tables) (key : Str) :
    Owns (StringRef.copy m.keys key).2 ([(StringRef.copy m.keys key).1.value] ++ (keys ++
      (m.keyTable.keyPtrs ++ m.fieldTables.contents.flatMap MemHashtable.keyPtrs))) :=
  hacc.ownsKeys.alloc _

theorem read_copy (key : Str) (ptr : Ptr) (text : Str) (hread : m.keys.read ptr = some text) :
    (StringRef.copy m.keys key).2.read ptr = some text :=
  Heap.read_alloc hread _

/-- `field_table->Insert` of a field that is not there puts the value in the table. -/
theorem fieldInsert_of_none (hacc : Accounts m db keys (value :: values) tables)
    (hvalue : PointsTo m.values value str) (hfields : db.fieldTable table = some fields)
    (hget : fields.get field = none) :
    ∃ m', m.fieldInsert table field value = some (true, m') ∧
      Accounts m' (db.setFieldTable table (fields.insert field str).2) keys values tables ∧
      m'.values = m.values := by
  obtain ⟨t, hread, href⟩ := hacc.read_fieldTable hfields
  obtain ⟨t', hinsert, href', hkeys, hvalues⟩ :=
    MemHashtable.insert_of_none href hget (v := value) hvalue
  obtain ⟨fieldTables', hwrite, hacc'⟩ := hacc.writeFields hread [_] keys values
    (read_copy field) href' (hacc.owns_copy field)
    (by
      rw [hkeys, List.singleton_append]
      exact List.perm_middle.symm)
    (by
      rw [hvalues]
      exact List.perm_middle.symm)
  refine ⟨_, ?_, hacc', rfl⟩
  simp [LockStlDB.fieldInsert, hread, hinsert, hwrite]

/-- `field_table->Insert` of a field that is there loses the copy that it has made of
the field, and the value is in no table. -/
theorem fieldInsert_of_some {old : Str} (hacc : Accounts m db keys values tables)
    (hfields : db.fieldTable table = some fields) (hget : fields.get field = some old)
    (value : Ptr) :
    ∃ m' key, m.fieldInsert table field value = some (false, m') ∧
      Accounts m' db (key :: keys) values tables := by
  obtain ⟨t, hread, href⟩ := hacc.read_fieldTable hfields
  obtain ⟨fieldTables', hwrite, hacc'⟩ := hacc.writeFields hread [_] (_ :: keys) values
    (read_copy field) (href.copy field) (hacc.owns_copy field) (List.Perm.refl _)
    (List.Perm.refl _)
  refine ⟨{ m with keys := (StringRef.copy m.keys field).2, fieldTables := fieldTables' },
    (StringRef.copy m.keys field).1.value, ?_, ?_⟩
  · simp [LockStlDB.fieldInsert, hread, MemHashtable.insert_of_some href hget, hwrite]
  · rwa [HashtableDB.setFieldTable_self hfields] at hacc'

/-- `field_table->Update` of a field that is not there changes nothing. -/
theorem fieldUpdate_of_none (hacc : Accounts m db keys values tables)
    (hfields : db.fieldTable table = some fields) (hget : fields.get field = none) (value : Ptr) :
    ∃ m', m.fieldUpdate table field value = some (none, m') ∧ Accounts m' db keys values tables ∧
      m'.values = m.values := by
  obtain ⟨t, hread, href⟩ := hacc.read_fieldTable hfields
  obtain ⟨fieldTables', hwrite, hacc'⟩ := hacc.writeFields hread [] keys values
    (fun _ _ h => h) href hacc.ownsKeys (List.Perm.refl _) (List.Perm.refl _)
  rw [HashtableDB.setFieldTable_self hfields] at hacc'
  refine ⟨_, ?_, hacc', rfl⟩
  simp [LockStlDB.fieldUpdate, hread, MemHashtable.update_of_none href hget, hwrite]

/-- `field_table->Update` of a field that is there exchanges its value. -/
theorem fieldUpdate_of_some {old : Str} (hacc : Accounts m db keys (value :: values) tables)
    (hvalue : PointsTo m.values value str) (hfields : db.fieldTable table = some fields)
    (hget : fields.get field = some old) :
    ∃ m' value₀, m.fieldUpdate table field value = some (some value₀, m') ∧
      Accounts m' (db.setFieldTable table (fields.update field str).2) keys (value₀ :: values)
        tables ∧ m'.values = m.values := by
  obtain ⟨t, hread, href⟩ := hacc.read_fieldTable hfields
  obtain ⟨value₀, t', rest, hupdate, -, href', hkeys, hbefore, hafter⟩ :=
    MemHashtable.update_of_some href hget (v := value) hvalue
  obtain ⟨fieldTables', hwrite, hacc'⟩ := hacc.writeFields hread [] keys
    (value₀ :: values) (fun _ _ h => h) href' hacc.ownsKeys
    (by rw [hkeys]; exact List.Perm.refl _)
    (by
      refine List.perm_iff_count.mpr fun ptr => ?_
      have hbefore := hbefore.count_eq ptr
      have hafter := hafter.count_eq ptr
      simp only [List.count_append, List.count_cons] at hbefore hafter ⊢
      omega)
  refine ⟨_, value₀, ?_, hacc', rfl⟩
  simp [LockStlDB.fieldUpdate, hread, hupdate, hwrite]

/-- What `field_table->Get` finds stands for the value. -/
theorem fieldGet (hacc : Accounts m db keys values tables)
    (hfields : db.fieldTable table = some fields) (field : Str) :
    ∃ found, m.fieldGet table field = some found ∧
      Option.Rel (PointsTo m.values) found (fields.get field) := by
  obtain ⟨t, hread, href⟩ := hacc.read_fieldTable hfields
  obtain ⟨found, hget, hfound⟩ := MemHashtable.get_spec href field
  exact ⟨found, by simp [LockStlDB.fieldGet, hread, hget], hfound⟩

/-! ## The key table -/

/-- `key_table_->Get` finds the handle. -/
theorem keyGet (hacc : Accounts m db keys values tables) (index : Str) :
    m.keyGet index = some (db.keyTable.get index) := by
  obtain ⟨found, hget, hfound⟩ := MemHashtable.get_spec hacc.keyTable index
  rw [LockStlDB.keyGet, hget]
  generalize db.keyTable.get index = handle at hfound
  cases hfound with
  | none => rfl
  | some heq => rw [heq]

/-- `key_table_->Insert` of an index that is not there puts the field table in it. -/
theorem keyInsert_of_none (hacc : Accounts m db keys values (table :: tables))
    (hget : db.keyTable.get index = none) :
    ∃ m', m.keyInsert index table = some m' ∧
      Accounts m' { db with keyTable := (db.keyTable.insert index table).2 } keys values tables := by
  obtain ⟨t', hinsert, href', hkeys, hvalues⟩ :=
    MemHashtable.insert_of_none hacc.keyTable hget (v := table) rfl
  refine ⟨{ m with keys := (StringRef.copy m.keys index).2, keyTable := t' },
    by simp [LockStlDB.keyInsert, hinsert], href', ?_, ?_, hacc.ownsValues, ?_⟩
  · exact hacc.fieldTables.imp fun _ _ _ href => href.copy index
  · refine (hacc.owns_copy index).perm (List.perm_iff_count.mpr fun ptr => ?_)
    simp only [hkeys, List.count_append, List.count_cons, List.singleton_append]
    omega
  · rw [hvalues]
    exact hacc.ownsTables.perm List.perm_middle.symm

/-- `key_table_->Insert` of an index that is there loses the copy that it has made of
the index. -/
theorem keyInsert_of_some {handle : Handle} (hacc : Accounts m db keys values tables)
    (hget : db.keyTable.get index = some handle) (table : Ptr) :
    ∃ m' key, m.keyInsert index table = some m' ∧ Accounts m' db (key :: keys) values tables := by
  have hinsert := MemHashtable.insert_of_some hacc.keyTable hget table
  refine ⟨{ m with keys := (StringRef.copy m.keys index).2 },
    (StringRef.copy m.keys index).1.value, by simp [LockStlDB.keyInsert, hinsert],
    hacc.keyTable.copy index, ?_, hacc.owns_copy index, hacc.ownsValues, hacc.ownsTables⟩
  exact hacc.fieldTables.imp fun _ _ _ href => href.copy index

theorem keyRemove_of_none (hacc : Accounts m db keys values tables)
    (hget : db.keyTable.get index = none) : m.keyRemove index = some (none, m) := by
  simp [LockStlDB.keyRemove, MemHashtable.remove_of_none hacc.keyTable hget]

/-- `key_table_->Remove` takes the field table out and frees the copy of the index. -/
theorem keyRemove_of_some {handle : Handle} (hacc : Accounts m db keys values tables)
    (hget : db.keyTable.get index = some handle) :
    ∃ m', m.keyRemove index = some (some handle, m') ∧
      Accounts m' { db with keyTable := (db.keyTable.remove index).2 } keys values
        (handle :: tables) := by
  have hnodup : m.keyTable.keyPtrs.Nodup :=
    (List.nodup_append.mp (List.nodup_append.mp hacc.ownsKeys.nodup).2.1).1
  obtain ⟨_, ptr, memory, t', hremove, rfl, href', hfree, hkeys, hvalues⟩ :=
    MemHashtable.remove_of_some hacc.keyTable hnodup hget
  have howns : Owns m.keys
      (ptr :: (keys ++ (t'.keyPtrs ++ m.fieldTables.contents.flatMap MemHashtable.keyPtrs))) := by
    refine hacc.ownsKeys.perm (List.perm_iff_count.mpr fun ptr' => ?_)
    have hkeys := hkeys.count_eq ptr'
    simp only [List.count_append, List.count_cons] at hkeys ⊢
    omega
  obtain ⟨memory', hfree', howns'⟩ := howns.free
  cases hfree.symm.trans hfree'
  refine ⟨{ m with keys := memory, keyTable := t' }, by simp [LockStlDB.keyRemove, hremove],
    href', ?_, howns', hacc.ownsValues, ?_⟩
  · refine hacc.fieldTables.imp fun t ht _ href => href.imp ?_ fun _ _ _ h => h
    intro ptr' hmem text hread
    rw [Heap.read_free_ne hfree, hread]
    rintro rfl
    obtain ⟨hnot, -⟩ := List.nodup_cons.mp howns.nodup
    exact hnot (by simpa using Or.inr (Or.inr ⟨t, ht, hmem⟩))
  · refine hacc.ownsTables.perm (List.perm_iff_count.mpr fun ptr' => ?_)
    have hvalues := hvalues.count_eq ptr'
    simp only [List.count_append, List.count_cons] at hvalues ⊢
    omega

/-! ## `DeleteFieldHashtable` -/

/-- Strings that are in no table can be freed one after another. -/
theorem deleteStrings {strs : List Ptr} (hacc : Accounts m db keys (strs ++ values) tables) :
    ∃ m', m.deleteStrings strs = some m' ∧ Accounts m' db keys values tables := by
  induction strs generalizing m with
  | nil => exact ⟨m, rfl, hacc⟩
  | cons str strs ih =>
      obtain ⟨m₁, hdelete, hacc₁, -⟩ := hacc.deleteString
      obtain ⟨m', hrest, hacc'⟩ := ih hacc₁
      exact ⟨m', by simp [LockStlDB.deleteStrings, hdelete, hrest], hacc'⟩

/-- Freeing strings has nothing to do with the tables. -/
theorem deleteStrings_congr (keyTable : MemHashtable Ptr) (fieldTables : Heap (MemHashtable Ptr))
    (strs : List Ptr) :
    { m with keyTable := keyTable, fieldTables := fieldTables }.deleteStrings strs =
      (m.deleteStrings strs).map fun m' =>
        { m' with keyTable := keyTable, fieldTables := fieldTables } := by
  induction strs generalizing m with
  | nil => rfl
  | cons str strs ih =>
      simp only [LockStlDB.deleteStrings, LockStlDB.deleteString]
      cases m.values.free str with
      | none => rfl
      | some values =>
          simp only [Option.map_some, Option.bind_eq_bind, Option.bind_some]
          exact ih (m := { m with values := values })

theorem deleteStrings_eq_some {strs : List Ptr} (hdelete : m.deleteStrings strs = some m') :
    ∃ values, m' = { m with values := values } := by
  induction strs generalizing m with
  | nil =>
      cases hdelete
      exact ⟨_, rfl⟩
  | cons str strs ih =>
      simp only [LockStlDB.deleteStrings, LockStlDB.deleteString, Option.bind_eq_bind,
        Option.bind_eq_some_iff, Option.map_eq_some_iff] at hdelete
      obtain ⟨_, ⟨values, -, rfl⟩, hrest⟩ := hdelete
      exact ih (m := { m with values := values }) hrest

/-- A field table that is in no table can be freed; its keys and values are then in no
table. -/
theorem freeTable (hacc : Accounts m db keys values (table :: tables))
    (hfields : db.fieldTable table = some fields) :
    ∃ t fieldTables', m.fieldTables.read table = some t ∧
      t.Refines m.keys (PointsTo m.values) fields ∧
      m.fieldTables.free table = some fieldTables' ∧
      Accounts { m with fieldTables := fieldTables' }
        { db with heap := db.heap.set table none } (t.keyPtrs ++ keys) (t.values ++ values)
        tables := by
  obtain ⟨t, hread, href⟩ := hacc.read_fieldTable hfields
  obtain ⟨fieldTables', hfree, howns⟩ := hacc.ownsTables.free
  refine ⟨t, fieldTables', hread, href, hfree, hacc.keyTable, ?_, ?_, ?_, howns⟩
  · obtain ⟨-, rfl⟩ := Heap.free_eq_some.mp hfree
    exact hacc.fieldTables.set table .none
  · refine hacc.ownsKeys.perm (List.perm_iff_count.mpr fun ptr => ?_)
    have hperm := (Heap.flatMap_contents_free MemHashtable.keyPtrs hread hfree).count_eq ptr
    simp only [List.count_append] at hperm ⊢
    omega
  · refine hacc.ownsValues.perm (List.perm_iff_count.mpr fun ptr => ?_)
    have hperm := (Heap.flatMap_contents_free MemHashtable.values hread hfree).count_eq ptr
    simp only [List.count_append] at hperm ⊢
    omega

/-- `DeleteFieldHashtable` frees a field table and its values, and loses the copies of
its fields. -/
theorem deleteFieldHashtable {order : IterationOrder} (horder : order.LooksAtKeys)
    (hacc : Accounts m db keys values (table :: tables))
    (hfields : db.fieldTable table = some fields) :
    ∃ m' lost, m.deleteFieldHashtable order table = some m' ∧ lost.length = fields.size ∧
      m'.keys = m.keys ∧
      Accounts m' { db with heap := db.heap.set table none } (lost ++ keys) values tables := by
  obtain ⟨t, fieldTables', hread, href, hfree, hacc₁⟩ := hacc.freeTable hfields
  obtain ⟨pairs, hentries, hpairs⟩ := MemHashtable.entries_spec href horder none none
  have hperm : (pairs.map Prod.snd ++ values).Perm (t.values ++ values) :=
    (MemHashtable.entries_perm_values hentries).append_right values
  have hacc₂ : Accounts { m with fieldTables := fieldTables' }
      { db with heap := db.heap.set table none } (t.keyPtrs ++ keys)
      (pairs.map Prod.snd ++ values) tables :=
    { hacc₁ with ownsValues := hacc₁.ownsValues.perm (hperm.symm.append_right _) }
  obtain ⟨m', hdeleted, hacc'⟩ := hacc₂.deleteStrings
  have hsame : (m.deleteStrings (pairs.map Prod.snd)).map
      (fun m' => { m' with keyTable := m.keyTable, fieldTables := fieldTables' }) = some m' :=
    (deleteStrings_congr m.keyTable fieldTables' _).symm.trans hdeleted
  rw [Option.map_eq_some_iff] at hsame
  obtain ⟨m₁, hdelete, rfl⟩ := hsame
  obtain ⟨values₁, rfl⟩ := deleteStrings_eq_some hdelete
  refine ⟨{ m with values := values₁, fieldTables := fieldTables' }, t.keyPtrs, ?_, ?_, rfl, hacc'⟩
  · simp [LockStlDB.deleteFieldHashtable, hread, hentries, hdelete, hfree]
  · rw [MemHashtable.keyPtrs, List.length_map]
    exact List.Forall₂.length_eq href

/-- Freeing a field table has nothing to do with the key table. -/
theorem deleteFieldHashtable_congr (keyTable : MemHashtable Ptr) (order : IterationOrder)
    (table : Ptr) :
    { m with keyTable := keyTable }.deleteFieldHashtable order table =
      (m.deleteFieldHashtable order table).map fun m' => { m' with keyTable := keyTable } := by
  simp only [LockStlDB.deleteFieldHashtable, Option.bind_eq_bind]
  cases m.fieldTables.read table with
  | none => rfl
  | some t =>
      simp only [Option.bind_some]
      cases t.entries m.keys order none none with
      | none => rfl
      | some pairs =>
          have hcongr : { m with keyTable := keyTable }.deleteStrings (pairs.map Prod.snd) =
              (m.deleteStrings (pairs.map Prod.snd)).map fun m' =>
                { m' with keyTable := keyTable, fieldTables := m.fieldTables } :=
            deleteStrings_congr keyTable m.fieldTables _
          simp only [Option.bind_some]
          rw [hcongr]
          cases hdelete : m.deleteStrings (pairs.map Prod.snd) with
          | none => rfl
          | some m₁ =>
              obtain ⟨values₁, rfl⟩ := deleteStrings_eq_some hdelete
              simp only [Option.map_some, Option.bind_some]
              cases m.fieldTables.free table <;> rfl

/-! ## Reading -/

/-- The loop over the fields that are asked for reads what they stand for. -/
theorem getFields (hacc : Accounts m db keys values tables)
    (hfields : db.fieldTable table = some fields) (asked : List Str) :
    m.getFields table asked = some (asked.filterMap fun field =>
      (fields.get field).map fun value => (field, value)) := by
  induction asked with
  | nil => rfl
  | cons field asked ih =>
      obtain ⟨found, hget, hfound⟩ := hacc.fieldGet hfields field
      rw [List.filterMap_cons]
      simp only [LockStlDB.getFields, hget, Option.bind_eq_bind, Option.bind_some]
      generalize fields.get field = value at hfound
      cases hfound with
      | none => simpa using ih
      | some hvalue =>
          rw [PointsTo] at hvalue
          simp [hvalue, ih]

/-- The strings made of pairs of pointers are those that they stand for. -/
theorem mapM_readPair {pairs : List (Ptr × Ptr)} {pairs' : List KVPair}
    (hpairs : List.Forall₂ (MemHashtable.PairRel m.keys (PointsTo m.values)) pairs pairs') :
    pairs.mapM m.readPair = some pairs' := by
  induction hpairs with
  | nil => rfl
  | cons hhead _ ih =>
      obtain ⟨hfield, hvalue⟩ := hhead
      rw [PointsTo] at hvalue
      rw [List.mapM_cons, ih]
      simp [readPair, hfield, hvalue]

/-- `Read` and `Scan` list of a field table what it stands for. -/
theorem readFields {order : IterationOrder} (horder : order.LooksAtKeys)
    (hacc : Accounts m db keys values tables) (hfields : db.fieldTable table = some fields)
    (asked : Option (List Str)) :
    m.readFields order table asked = some (HashtableDB.readFields order fields asked) := by
  cases asked with
  | some asked => exact hacc.getFields hfields asked
  | none =>
      obtain ⟨t, hread, href⟩ := hacc.read_fieldTable hfields
      obtain ⟨pairs, hentries, hpairs⟩ := MemHashtable.entries_spec href horder none none
      simp only [LockStlDB.readFields, hread, hentries, Option.bind_eq_bind, Option.bind_some]
      exact mapM_readPair hpairs

end Accounts

end LockStlDB

end YcsbC
