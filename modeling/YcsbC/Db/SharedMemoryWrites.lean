import YcsbC.Db.SharedMemory

/-!
# Writing in the memory of a shared database

`field_table->Update` returns the value that it takes out of the table to one client
only, so every value is at any time in one table, in the hands of one write call, lost,
or freed.  A step of a write call can be made if what the call has in its hands is in
nobody's table, and leaves it so (`Accounts.writeStep`).  What is in the field tables
stays there, the values of the table on which `field_table->Update` works apart
(`Grows`).
-/

namespace YcsbC

/-! ## What a write call works on -/

namespace MemWritePc

/-- The value in the hands of a write call. -/
def held : MemWritePc → Option Ptr
  | deleteValue value | insertMissing _ _ value _ | deleteOld value _ _ => some value
  | get | publish | insertField .. | updateNewField .. | updateField .. | done => none

/-- The field table that a write call works on. -/
def table : MemWritePc → Option Ptr
  | insertField table _ | updateNewField table _ | updateField table _
  | insertMissing table _ _ _ | deleteOld _ table _ => some table
  | get | publish | deleteValue _ | done => none

/-- The step is one of the loop of `Update`. -/
def OfUpdate : MemWritePc → Prop
  | updateField .. | insertMissing .. | deleteOld .. => True
  | get | publish | insertField .. | deleteValue _ | updateNewField .. | done => False

/-- The field table whose values the next step may exchange. -/
def exchanges : MemWritePc → Option Ptr
  | updateField table _ => some table
  | get | publish | insertField .. | deleteValue _ | updateNewField .. | insertMissing ..
  | deleteOld .. | done => none

theorem ofUpdate_of_exchanges {pc : MemWritePc} {table : Ptr}
    (hexchanges : pc.exchanges = some table) : pc.OfUpdate ∧ pc.table = some table := by
  cases pc with
  | updateField => exact ⟨trivial, hexchanges⟩
  | _ => cases hexchanges

end MemWritePc

/-- Only `Update` gets into its loop. -/
theorem MemWrite.ofUpdate_step {call : MemWrite} {m m' : LockStlDB} {pc pc' : MemWritePc}
    (hpc : pc.OfUpdate → call.op = .update) (hstep : call.step m pc = some (m', pc'))
    (hpc' : pc'.OfUpdate) : call.op = .update := by
  cases hop : call.op with
  | update => rfl
  | insert =>
      exfalso
      cases pc with
      | get | publish =>
          simp only [MemWrite.step, hop, Option.bind_eq_bind, Option.bind_eq_some_iff] at hstep
          obtain ⟨found, -, hstep⟩ := hstep
          cases found <;> cases hstep <;> exact hpc'
      | insertField table values | updateNewField table values =>
          cases values with
          | nil =>
              cases hstep
              exact hpc'
          | cons pair values =>
              simp only [MemWrite.step, Option.bind_eq_bind, Option.bind_eq_some_iff] at hstep
              obtain ⟨⟨ok, _⟩, -, hstep⟩ := hstep
              cases ok <;> cases hstep <;> exact hpc'
      | deleteValue value =>
          simp only [MemWrite.step, Option.bind_eq_bind, Option.bind_eq_some_iff] at hstep
          obtain ⟨_, -, hstep⟩ := hstep
          cases hstep
          exact hpc'
      | updateField | insertMissing | deleteOld =>
          rw [hop] at hpc
          exact absurd (hpc trivial) (by decide)
      | done => cases hstep

namespace LockStlDB

/-! ## What stays in the field tables -/

/-- Field tables stay, and so does what is in them, values of `exchanged` apart. -/
def Grows (m m' : LockStlDB) (exchanged : Option Ptr) : Prop :=
  ∀ ⦃table : Ptr⦄ ⦃t : MemHashtable Ptr⦄, m.fieldTables.read table = some t →
    ∃ t', m'.fieldTables.read table = some t' ∧ t.keyPtrs ⊆ t'.keyPtrs ∧
      (exchanged ≠ some table → t.values ⊆ t'.values)

section Grows

variable {m m' m'' : LockStlDB} {table value : Ptr} {field : Str} {exchanged : Option Ptr}

theorem grows_of_eq (heq : m'.fieldTables = m.fieldTables) (exchanged : Option Ptr) :
    Grows m m' exchanged := by
  intro table t hread
  exact ⟨t, heq ▸ hread, List.Subset.refl _, fun _ => List.Subset.refl _⟩

theorem Grows.trans (h : Grows m m' exchanged) (h' : Grows m' m'' exchanged) :
    Grows m m'' exchanged := by
  intro table t hread
  obtain ⟨t', hread', hkeys, hvalues⟩ := h hread
  obtain ⟨t'', hread'', hkeys', hvalues'⟩ := h' hread'
  exact ⟨t'', hread'', List.Subset.trans hkeys hkeys',
    fun hne => List.Subset.trans (hvalues hne) (hvalues' hne)⟩

/-- One field table is exchanged for another. -/
theorem grows_write {t t' : MemHashtable Ptr} {fieldTables' : Heap (MemHashtable Ptr)}
    (hread : m.fieldTables.read table = some t)
    (hwrite : m.fieldTables.write table t' = some fieldTables') (hkeys : t.keyPtrs ⊆ t'.keyPtrs)
    (hvalues : exchanged ≠ some table → t.values ⊆ t'.values) (keys : Heap Str) :
    Grows m { m with keys := keys, fieldTables := fieldTables' } exchanged := by
  intro table' t₁ hread'
  by_cases heq : table' = table
  · subst heq
    cases hread.symm.trans hread'
    exact ⟨t', Heap.read_write_self hwrite, hkeys, hvalues⟩
  · refine ⟨t₁, ?_, List.Subset.refl _, fun _ => List.Subset.refl _⟩
    exact (Heap.read_write_ne hwrite heq).trans hread'

theorem grows_fieldInsert {ok : Bool} (hinsert : m.fieldInsert table field value = some (ok, m')) :
    Grows m m' none := by
  simp only [fieldInsert, Option.bind_eq_bind, Option.bind_eq_some_iff] at hinsert
  obtain ⟨t, hread, ⟨ok', keys, t'⟩, hinsert, fieldTables', hwrite, heq⟩ := hinsert
  cases heq
  obtain ⟨hkeys, hvalues⟩ := MemHashtable.subset_insert hinsert
  exact grows_write hread hwrite hkeys (fun _ => hvalues) keys

theorem grows_fieldUpdate {old : Option Ptr}
    (hupdate : m.fieldUpdate table field value = some (old, m')) : Grows m m' (some table) := by
  simp only [fieldUpdate, Option.bind_eq_bind, Option.bind_eq_some_iff] at hupdate
  obtain ⟨t, hread, ⟨old', t'⟩, hupdate, fieldTables', hwrite, heq⟩ := hupdate
  cases heq
  have hkeys : t.keyPtrs ⊆ t'.keyPtrs := by
    rw [MemHashtable.keyPtrs_update hupdate]
    exact List.Subset.refl _
  exact grows_write hread hwrite hkeys (fun hne => absurd rfl hne) m.keys

theorem grows_copyString (m : LockStlDB) (str : Str) : Grows m (m.copyString str).2 exchanged :=
  grows_of_eq rfl exchanged

theorem grows_newFieldHashtable (m : LockStlDB) : Grows m m.newFieldHashtable.2 none := by
  intro table t hread
  exact ⟨t, Heap.read_alloc hread _, List.Subset.refl _, fun _ => List.Subset.refl _⟩

theorem grows_keyInsert {index : Str} (hinsert : m.keyInsert index table = some m') :
    Grows m m' none := by
  simp only [keyInsert, Option.bind_eq_bind, Option.bind_eq_some_iff] at hinsert
  obtain ⟨_, -, heq⟩ := hinsert
  cases heq
  exact grows_of_eq rfl none

theorem grows_deleteString (hdelete : m.deleteString value = some m') : Grows m m' exchanged := by
  obtain ⟨_, -, rfl⟩ := Option.map_eq_some_iff.mp hdelete
  exact grows_of_eq rfl exchanged

end Grows

/-! ## Steps of write calls -/

/-- The field table is the one of the index, or in no table. -/
def AtHand (db : HashtableDB) (tables : List Ptr) (index : Str) (table : Ptr) : Prop :=
  db.keyTable.get index = some table ∨ table ∈ tables

/-- After a step of a write call the memory stands for a database again.  What was in
nobody's table and not in the hands of the call is in nobody's table still, and the value
that the call has now was not. -/
structure WriteOutcome (m : LockStlDB) (db : HashtableDB) (values tables : List Ptr) (index : Str)
    (pc : MemWritePc) (m' : LockStlDB) (pc' : MemWritePc) (db' : HashtableDB)
    (keys' values' tables' : List Ptr) : Prop where
  accounts : Accounts m' db' keys' values' tables'
  grows : Grows m m' pc.exchanges
  published : ∀ {i : Str} {table : Ptr}, db.keyTable.get i = some table →
    db'.keyTable.get i = some table
  tables : tables ⊆ tables'
  atHand : ∀ table ∈ pc'.table, AtHand db' tables' index table
  kept : ∀ value ∈ values, pc.held ≠ some value → value ∈ values'
  held : ∀ value ∈ pc'.held, value ∈ values' ∧ (value ∈ values → pc.held = some value)

variable {m : LockStlDB} {db : HashtableDB} {keys values tables : List Ptr}

theorem Accounts.exists_atHand (hacc : Accounts m db keys values tables) {index : Str}
    {table : Ptr} (htable : AtHand db tables index table) :
    ∃ fields, db.fieldTable table = some fields := by
  rcases htable with hget | hmem
  · exact hacc.exists_fieldTable hget
  · obtain ⟨t, hread⟩ := hacc.ownsTables.read (List.mem_append_left _ hmem)
    obtain ⟨fields, hfields, -⟩ := hacc.fieldTables.exists_right hread
    exact ⟨fields, hfields⟩

theorem Accounts.notMem_values {value : Ptr}
    (hacc : Accounts m db keys (value :: values) tables) : value ∉ values := by
  intro hmem
  obtain ⟨hnot, -⟩ := List.nodup_cons.mp hacc.ownsValues.nodup
  exact hnot (List.mem_append_left _ hmem)

/-- `CopyString` and `field_table->Insert`: the value is in the table or lost to it. -/
theorem Accounts.copy_fieldInsert (hacc : Accounts m db keys values tables) {table : Ptr}
    {fields : FieldHashtable} (hfields : db.fieldTable table = some fields) (field str : Str) :
    ∃ ok m' fields' keys' values',
      (m.copyString str).2.fieldInsert table field (m.copyString str).1 = some (ok, m') ∧
      Accounts m' (db.setFieldTable table fields') keys' values' tables ∧ Grows m m' none ∧
      values' = if ok then values else (m.copyString str).1 :: values := by
  obtain ⟨hacc₁, hvalue⟩ := hacc.copyString str
  cases hget : fields.get field with
  | none =>
      obtain ⟨m', hinsert, hacc', -⟩ := hacc₁.fieldInsert_of_none hvalue hfields hget
      exact ⟨true, m', _, _, values, hinsert, hacc',
        (grows_copyString m str).trans (grows_fieldInsert hinsert), rfl⟩
  | some old =>
      obtain ⟨m', key, hinsert, hacc'⟩ :=
        hacc₁.fieldInsert_of_some hfields hget (m.copyString str).1
      rw [← HashtableDB.setFieldTable_self hfields] at hacc'
      exact ⟨false, m', fields, key :: keys, _, hinsert, hacc',
        (grows_copyString m str).trans (grows_fieldInsert hinsert), rfl⟩

/-- A step that does not touch the tables. -/
theorem Accounts.outcome_same (hacc : Accounts m db keys values tables) {index : Str}
    {pc pc' : MemWritePc} (hatHand : ∀ table ∈ pc'.table, AtHand db tables index table)
    (hheld : pc'.held = none) :
    WriteOutcome m db values tables index pc m pc' db keys values tables where
  accounts := hacc
  grows := grows_of_eq rfl _
  published := id
  tables := List.Subset.refl _
  atHand := hatHand
  kept _ hmem _ := hmem
  held value hvalue := by
    rw [hheld] at hvalue
    cases hvalue

/-- A value that is in nobody's table can be listed first. -/
theorem Accounts.takeValue (hacc : Accounts m db keys values tables) {value : Ptr}
    (hmem : value ∈ values) : Accounts m db keys (value :: values.erase value) tables :=
  { hacc with ownsValues := hacc.ownsValues.perm ((List.perm_cons_erase hmem).append_right _) }

/-- What is not in the hands of a call stays when the call puts away what is. -/
theorem mem_erase_of_held {pc : MemWritePc} {value other : Ptr} (hpc : pc.held = some value)
    (hmem : other ∈ values) (hne : pc.held ≠ some other) : other ∈ values.erase value := by
  refine (List.mem_erase_of_ne ?_).mpr hmem
  rintro rfl
  exact hne hpc

/-- Freeing the value in the hands of a call. -/
theorem Accounts.outcome_deleteString (hacc : Accounts m db keys values tables) {index : Str}
    {value : Ptr} (pc pc' : MemWritePc) (hpc : pc.held = some value) (hmem : value ∈ values)
    (hatHand : ∀ table ∈ pc'.table, AtHand db tables index table) (hheld : pc'.held = none) :
    ∃ m' values', m.deleteString value = some m' ∧
      WriteOutcome m db values tables index pc m' pc' db keys values' tables := by
  obtain ⟨m', hdelete, hacc', -⟩ := (hacc.takeValue hmem).deleteString
  refine ⟨m', values.erase value, hdelete, hacc', grows_deleteString hdelete, id,
    List.Subset.refl _, hatHand, fun _ hother hne => mem_erase_of_held hpc hother hne, ?_⟩
  intro other hother
  rw [hheld] at hother
  cases hother

/-- `NewFieldHashtable` and `key_table_->Insert`: if another client has come first, the new
field table is in nobody's table. -/
theorem Accounts.outcome_publish (hacc : Accounts m db keys values tables) (index : Str) :
    ∃ m' db' keys' tables', m.newFieldHashtable.2.keyInsert index m.newFieldHashtable.1 = some m' ∧
      ∀ pc', pc'.table = some m.newFieldHashtable.1 → pc'.held = none →
        WriteOutcome m db values tables index .publish m' pc' db' keys' values tables' := by
  obtain ⟨hsame, hacc₁⟩ := hacc.newFieldHashtable
  cases hget : db.keyTable.get index with
  | none =>
      obtain ⟨m', hinsert, hacc'⟩ := hacc₁.keyInsert_of_none hget
      refine ⟨m', _, keys, tables, hinsert, fun pc' htable hheld => ⟨hacc', ?_, ?_,
        List.Subset.refl _, ?_, fun _ hmem _ => hmem, ?_⟩⟩
      · exact (grows_newFieldHashtable m).trans (grows_keyInsert hinsert)
      · intro i table hgeti
        have hkeyTable : StlHashtable.get db.newFieldHashtable.2.keyTable index = none := hget
        change StlHashtable.get (StlHashtable.insert db.keyTable index _).2 i = _
        rw [StlHashtable.get_insert hget, if_neg, hgeti]
        intro hi
        rw [StlHashtable.get_congr hi, hget] at hgeti
        cases hgeti
      · intro table htable'
        rw [htable] at htable'
        cases htable'
        exact Or.inl (StlHashtable.get_insert_self hget)
      · intro value hvalue
        rw [hheld] at hvalue
        cases hvalue
  | some handle =>
      obtain ⟨m', key, hinsert, hacc'⟩ := hacc₁.keyInsert_of_some hget m.newFieldHashtable.1
      refine ⟨m', _, key :: keys, _, hinsert, fun pc' htable hheld => ⟨hacc', ?_, id,
        List.subset_cons_self _ _, ?_, fun _ hmem _ => hmem, ?_⟩⟩
      · exact (grows_newFieldHashtable m).trans (grows_keyInsert hinsert)
      · intro table htable'
        rw [htable] at htable'
        cases htable'
        exact Or.inr List.mem_cons_self
      · intro value hvalue
        rw [hheld] at hvalue
        cases hvalue

/-- `CopyString` and `field_table->Insert`, as the loops of `Insert` and `Update` do. -/
theorem Accounts.outcome_copyInsert (hacc : Accounts m db keys values tables) {index : Str}
    (pc : MemWritePc) (hpc : pc.exchanges = none) {table : Ptr}
    (htable : AtHand db tables index table) (field str : Str) :
    ∃ ok m', (m.copyString str).2.fieldInsert table field (m.copyString str).1 = some (ok, m') ∧
      ∀ pc' : MemWritePc, (∀ table ∈ pc'.table, AtHand db tables index table) →
        (∀ value ∈ pc'.held, ok = false ∧ value = (m.copyString str).1) →
        ∃ db' keys' values',
          WriteOutcome m db values tables index pc m' pc' db' keys' values' tables := by
  obtain ⟨fields, hfields⟩ := hacc.exists_atHand htable
  have hfresh := (hacc.copyString str).1.notMem_values
  obtain ⟨ok, m', fields', keys', values', hinsert, hacc', hgrows, rfl⟩ :=
    hacc.copy_fieldInsert hfields field str
  refine ⟨ok, m', hinsert, fun pc' hatHand hheld => ⟨db.setFieldTable table fields', keys', _,
    hacc', hpc ▸ hgrows, id, List.Subset.refl _, hatHand, ?_, ?_⟩⟩
  · intro value hmem _
    cases ok with
    | true => exact hmem
    | false => exact List.mem_cons_of_mem _ hmem
  · intro value hvalue
    obtain ⟨rfl, rfl⟩ := hheld value hvalue
    exact ⟨List.mem_cons_self, fun hmem => absurd hmem hfresh⟩

/-- `CopyString` and `field_table->Update`: the call has the value that was there, or its
own if none was. -/
theorem Accounts.outcome_copyUpdate (hacc : Accounts m db keys values tables) {index : Str}
    {table : Ptr} (htable : AtHand db tables index table) (field str : Str)
    (pairs : List KVPair) :
    ∃ old m' db' values',
      (m.copyString str).2.fieldUpdate table field (m.copyString str).1 = some (old, m') ∧
      WriteOutcome m db values tables index (.updateField table ((field, str) :: pairs)) m'
        (match old with
          | none => .insertMissing table field (m.copyString str).1 pairs
          | some old => .deleteOld old table pairs) db' keys values' tables := by
  obtain ⟨fields, hfields⟩ := hacc.exists_atHand htable
  obtain ⟨hacc₁, hvalue⟩ := hacc.copyString str
  cases hget : fields.get field with
  | none =>
      obtain ⟨m', hupdate, hacc', -⟩ :=
        hacc₁.fieldUpdate_of_none hfields hget (m.copyString str).1
      refine ⟨none, m', db, _, hupdate, hacc', ?_, id, List.Subset.refl _, ?_, ?_, ?_⟩
      · exact (grows_copyString m str).trans (grows_fieldUpdate hupdate)
      · rintro _ ⟨⟩
        exact htable
      · intro _ hmem _
        exact List.mem_cons_of_mem _ hmem
      · rintro _ ⟨⟩
        exact ⟨List.mem_cons_self, fun hmem => absurd hmem hacc'.notMem_values⟩
  | some old =>
      obtain ⟨m', value₀, hupdate, hacc', -⟩ := hacc₁.fieldUpdate_of_some hvalue hfields hget
      refine ⟨some value₀, m', _, _, hupdate, hacc', ?_, id, List.Subset.refl _, ?_, ?_, ?_⟩
      · exact (grows_copyString m str).trans (grows_fieldUpdate hupdate)
      · rintro _ ⟨⟩
        exact htable
      · intro _ hmem _
        exact List.mem_cons_of_mem _ hmem
      · rintro _ ⟨⟩
        exact ⟨List.mem_cons_self, fun hmem => absurd hmem hacc'.notMem_values⟩

/-- `field_table->Insert` of the value in the hands of `Update`: the value goes to the
table, or is lost when another client has put one there. -/
theorem Accounts.outcome_insertMissing (hacc : Accounts m db keys values tables) {index : Str}
    {table value : Ptr} (htable : AtHand db tables index table) (hmem : value ∈ values)
    (field : Str) (pairs : List KVPair) :
    ∃ ok m' db' keys' values', m.fieldInsert table field value = some (ok, m') ∧
      WriteOutcome m db values tables index (.insertMissing table field value pairs) m'
        (.updateField table pairs) db' keys' values' tables := by
  obtain ⟨fields, hfields⟩ := hacc.exists_atHand htable
  cases hget : fields.get field with
  | none =>
      have hacc₁ := hacc.takeValue hmem
      obtain ⟨str, hvalue⟩ := hacc₁.ownsValues.read (List.mem_append_left _ List.mem_cons_self)
      obtain ⟨m', hinsert, hacc', -⟩ := hacc₁.fieldInsert_of_none hvalue hfields hget
      refine ⟨true, m', _, keys, _, hinsert, hacc', grows_fieldInsert hinsert, id,
        List.Subset.refl _, ?_, ?_, nofun⟩
      · rintro _ ⟨⟩
        exact htable
      · intro other hother hne
        exact mem_erase_of_held rfl hother hne
  | some old =>
      obtain ⟨m', key, hinsert, hacc'⟩ := hacc.fieldInsert_of_some hfields hget value
      refine ⟨false, m', db, _, values, hinsert, hacc', grows_fieldInsert hinsert, id,
        List.Subset.refl _, ?_, ?_, nofun⟩
      · rintro _ ⟨⟩
        exact htable
      · intro _ hother _
        exact hother

/-- The next step of a write call can be made. -/
theorem Accounts.writeStep (hacc : Accounts m db keys values tables) {call : MemWrite}
    {pc : MemWritePc} (hpc : pc ≠ .done)
    (hatHand : ∀ table ∈ pc.table, AtHand db tables call.index table)
    (hheld : ∀ value ∈ pc.held, value ∈ values) :
    ∃ m' pc' db' keys' values' tables', call.step m pc = some (m', pc') ∧
      WriteOutcome m db values tables call.index pc m' pc' db' keys' values' tables' := by
  cases pc with
  | get =>
      cases hget : db.keyTable.get call.index with
      | none =>
          refine ⟨m, .publish, db, keys, values, tables, ?_, hacc.outcome_same nofun rfl⟩
          simp [MemWrite.step, hacc.keyGet, hget]
      | some table =>
          have hatHand' : ∀ table' ∈ some table, AtHand db tables call.index table' := by
            rintro _ ⟨⟩
            exact Or.inl hget
          cases hop : call.op with
          | insert =>
              refine ⟨m, .insertField table call.values, db, keys, values, tables, ?_,
                hacc.outcome_same hatHand' rfl⟩
              simp [MemWrite.step, hacc.keyGet, hget, hop]
          | update =>
              refine ⟨m, .updateField table call.values, db, keys, values, tables, ?_,
                hacc.outcome_same hatHand' rfl⟩
              simp [MemWrite.step, hacc.keyGet, hget, hop]
  | publish =>
      obtain ⟨m', db', keys', tables', hinsert, houtcome⟩ := hacc.outcome_publish call.index
      cases hop : call.op with
      | insert =>
          refine ⟨m', .insertField m.newFieldHashtable.1 call.values, db', keys', values, tables',
            ?_, houtcome _ rfl rfl⟩
          simp [MemWrite.step, hinsert, hop]
      | update =>
          refine ⟨m', .updateNewField m.newFieldHashtable.1 call.values, db', keys', values,
            tables', ?_, houtcome _ rfl rfl⟩
          simp [MemWrite.step, hinsert, hop]
  | insertField table pairs =>
      cases pairs with
      | nil => exact ⟨m, .done, db, keys, values, tables, rfl, hacc.outcome_same nofun rfl⟩
      | cons pair pairs =>
          obtain ⟨field, str⟩ := pair
          obtain ⟨ok, m', hinsert, houtcome⟩ := hacc.outcome_copyInsert
            (.insertField table ((field, str) :: pairs)) rfl (hatHand table rfl) field str
          cases ok with
          | true =>
              obtain ⟨db', keys', values', houtcome⟩ :=
                houtcome (.insertField table pairs) hatHand nofun
              refine ⟨m', _, db', keys', values', tables, ?_, houtcome⟩
              simp [MemWrite.step, hinsert]
          | false =>
              obtain ⟨db', keys', values', houtcome⟩ :=
                houtcome (.deleteValue (m.copyString str).1) nofun (by rintro _ ⟨⟩; simp)
              refine ⟨m', _, db', keys', values', tables, ?_, houtcome⟩
              simp [MemWrite.step, hinsert]
  | deleteValue value =>
      obtain ⟨m', values', hdelete, houtcome⟩ := hacc.outcome_deleteString (.deleteValue value)
        .done rfl (hheld value rfl) nofun rfl
      exact ⟨m', .done, db, keys, values', tables, by simp [MemWrite.step, hdelete], houtcome⟩
  | updateNewField table pairs =>
      cases pairs with
      | nil => exact ⟨m, .done, db, keys, values, tables, rfl, hacc.outcome_same nofun rfl⟩
      | cons pair pairs =>
          obtain ⟨field, str⟩ := pair
          obtain ⟨ok, m', hinsert, houtcome⟩ := hacc.outcome_copyInsert
            (.updateNewField table ((field, str) :: pairs)) rfl (hatHand table rfl) field str
          obtain ⟨db', keys', values', houtcome⟩ :=
            houtcome (.updateNewField table pairs) hatHand nofun
          refine ⟨m', _, db', keys', values', tables, ?_, houtcome⟩
          simp [MemWrite.step, hinsert]
  | updateField table pairs =>
      cases pairs with
      | nil => exact ⟨m, .done, db, keys, values, tables, rfl, hacc.outcome_same nofun rfl⟩
      | cons pair pairs =>
          obtain ⟨field, str⟩ := pair
          obtain ⟨old, m', db', values', hupdate, houtcome⟩ :=
            hacc.outcome_copyUpdate (hatHand table rfl) field str pairs
          refine ⟨m', _, db', keys, values', tables, ?_, houtcome⟩
          cases old <;> simp [MemWrite.step, hupdate]
  | insertMissing table field value pairs =>
      obtain ⟨ok, m', db', keys', values', hinsert, houtcome⟩ :=
        hacc.outcome_insertMissing (hatHand table rfl) (hheld value rfl) field pairs
      refine ⟨m', .updateField table pairs, db', keys', values', tables, ?_, houtcome⟩
      simp [MemWrite.step, hinsert]
  | deleteOld old table pairs =>
      obtain ⟨m', values', hdelete, houtcome⟩ := hacc.outcome_deleteString
        (.deleteOld old table pairs) (.updateField table pairs) rfl (hheld old rfl) hatHand rfl
      exact ⟨m', .updateField table pairs, db, keys, values', tables,
        by simp [MemWrite.step, hdelete], houtcome⟩
  | done => exact absurd rfl hpc

end LockStlDB

end YcsbC
