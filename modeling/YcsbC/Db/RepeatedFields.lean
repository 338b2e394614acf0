import YcsbC.Db.FailedInserts

/-!
# Updates that repeat a field

`HashtableDB::Update` overwrites the fields of a record that is there, one pair after the
other, so the last pair of a field counts (`get_updateFields`).  For a record that is not
there it inserts the pairs and does not look at the result: a field that is there already
stays, so the first pair of a field counts (`get_updateNewFields`).

The two agree on the lists in which the first and the last pair of every field have the
same value, and only on these is `Update` of a new record an overwrite
(`overwrites_iff`).
-/

namespace YcsbC

namespace HashtableDB

/-- The value that `Read` gives for a field, if any. -/
def readValue (db : HashtableDB) (table key field : Str) : Option Str :=
  (db.read .latestFirst table key (some [field]) []).bind fun (_, result) =>
    result.head?.map Prod.snd

/-- The value of a field after an overwrite with a list of pairs. -/
def overwritten (values : List KVPair) (old : Str → Option Str) (field : Str) : Option Str :=
  (WriteLog.last values field).or (old field)

/-- What `Read` gives for a record: these values, for the fields asked for and for all
fields. -/
structure Gives (db : HashtableDB) (table key : Str) (value : Str → Option Str) : Prop where
  named : ∀ order fields result, (∀ field ∈ fields, NulFree field) →
    db.read order table key (some fields) result = some (kOK,
      fields.filterMap fun field => (value field).map fun v => (field, v))
  all : ∀ order result, ∃ listed,
    db.read order table key none result = some (kOK, listed) ∧ (listed.map Prod.fst).Nodup ∧
      ∀ field v, (field, v) ∈ listed ↔ NulFree field ∧ value field = some v

/-- `Update` returns `kOK`, and afterwards `Read` gives for each field of the list the value
of its last pair, for the other fields of the record what it gave before, and for other
index strings, which are compared up to their NUL, what it gave before. -/
def Overwrites (db : HashtableDB) (table key : Str) (values : List KVPair) : Prop :=
  ∃ db', db.update table key values = some (kOK, db') ∧
    db'.Gives table key (overwritten values (db.readValue table key)) ∧
    ∀ table' key', cStr (table' ++ key') ≠ cStr (table ++ key) → ∀ order fields result,
      db'.read order table' key' fields result = db.read order table' key' fields result

/-- A table without fields. -/
def NoFields (fieldTable : FieldHashtable) : Prop := ∀ field, fieldTable.get field = none

/-- After an `Update` with this list, `Read` gives the same for a record that was not there
and for one that was there without fields. -/
def PathsAgree (values : List KVPair) : Prop :=
  ∀ db₀ db₁ db₀' db₁' : HashtableDB, calls.Reaches empty db₀ → calls.Reaches empty db₁ →
    ∀ table key fieldTable, db₀.recordTable (table ++ key) = none →
      db₁.recordTable (table ++ key) = some fieldTable → NoFields fieldTable →
      db₀.update table key values = some (kOK, db₀') →
      db₁.update table key values = some (kOK, db₁') →
      ∀ field, NulFree field → db₀'.readValue table key field = db₁'.readValue table key field

/-- The first and the last pair of each field have the same value. -/
def FirstIsLast (values : List KVPair) : Prop :=
  ∀ field, values.lookup field = WriteLog.last values field

/-! ## Reading one field -/

theorem readValue_eq {db : HashtableDB} (hdb : db.WellFormed) (table key field : Str) :
    db.readValue table key field = db.storedValue (table ++ key) field := by
  rw [readValue, read_eq hdb, storedValue]
  cases db.recordTable (table ++ key) with
  | none => rfl
  | some fieldTable =>
      simp only [readFields, List.filterMap_cons, List.filterMap_nil, Option.bind_some]
      cases fieldTable.get field <;> rfl

/-- `Read` gives what the field table holds. -/
theorem gives_of_recordTable {db : HashtableDB} (hdb : db.WellFormed) {table key : Str}
    {fieldTable : FieldHashtable} {value : Str → Option Str}
    (hrecord : db.recordTable (table ++ key) = some fieldTable)
    (hvalue : ∀ field, NulFree field → fieldTable.get field = value field) :
    db.Gives table key value := by
  constructor
  · intro order fields result hfields
    rw [read_eq hdb, hrecord]
    simp only [readFields]
    rw [List.filterMap_congr fun field hmem => by rw [hvalue field (hfields field hmem)]]
  · intro order result
    have hread : db.read order table key none result =
        some (kOK, fieldTable.entries order none none) := by
      rw [read_eq hdb, hrecord]
      rfl
    refine ⟨_, hread, StlHashtable.nodup_keys_entries fieldTable order, fun field v => ?_⟩
    rw [StlHashtable.mem_entries]
    refine and_congr_right fun hfield => ?_
    rw [hvalue field hfield]

theorem Gives.readValue {db : HashtableDB} {table key : Str} {value : Str → Option Str}
    (hgives : db.Gives table key value) {field : Str} (hfield : NulFree field) :
    db.readValue table key field = value field := by
  have hfields : ∀ f ∈ [field], NulFree f := by simpa using hfield
  rw [HashtableDB.readValue, hgives.named .latestFirst [field] [] hfields]
  cases hvalue : value field <;> simp [hvalue]

/-! ## The two loops -/

section Loops

variable {values : List KVPair} {field : Str}

theorem last_cons (pair : KVPair) (values : List KVPair) (field : Str) :
    WriteLog.last (pair :: values) field =
      (WriteLog.last values field).or (if pair.1 = field then some pair.2 else none) := by
  rw [← List.singleton_append, WriteLog.last_append]
  rfl

theorem lookup_cons (pair : KVPair) (values : List KVPair) (field : Str) :
    List.lookup field (pair :: values) =
      if pair.1 = field then some pair.2 else values.lookup field := by
  rw [List.lookup_cons]
  split <;> split <;> simp_all

/-- What a pair writes comes before what is there. -/
theorem written_or (name str : Str) (old : Option Str) :
    (if name = field then some str else none).or old =
      if field = name then some str else old := by
  split <;> split <;> simp_all

/-- The loop on a record that was there leaves the last pair of each field. -/
theorem get_updateFields (hvalues : NulFreeValues values) (hfield : NulFree field)
    (fieldTable : FieldHashtable) :
    (updateFields fieldTable values).get field =
      (WriteLog.last values field).or (fieldTable.get field) := by
  induction values generalizing fieldTable with
  | nil => rfl
  | cons pair values ih =>
      obtain ⟨name, str⟩ := pair
      obtain ⟨hname, hstr⟩ := hvalues _ List.mem_cons_self
      have hcopy : copyString str = str := cStr_eq_self hstr
      rw [last_cons, Option.or_assoc]
      cases hget : fieldTable.get name with
      | none =>
          rw [updateFields_cons_of_none hget, hcopy, ih hvalues.tail, StlHashtable.get_insert hget,
            cStr_eq_self hfield, cStr_eq_self hname, written_or]
      | some old =>
          rw [updateFields_cons_of_some hget, hcopy, ih hvalues.tail, StlHashtable.get_update hget,
            cStr_eq_self hfield, cStr_eq_self hname, written_or]

/-- The loop on a new record leaves the first pair of each field. -/
theorem get_updateNewFields (hvalues : NulFreeValues values) (hfield : NulFree field)
    (fieldTable : FieldHashtable) :
    (updateNewFields fieldTable values).get field =
      (fieldTable.get field).or (values.lookup field) := by
  induction values generalizing fieldTable with
  | nil => rw [updateNewFields, List.lookup_nil, Option.or_none]
  | cons pair values ih =>
      obtain ⟨name, str⟩ := pair
      obtain ⟨hname, hstr⟩ := hvalues _ List.mem_cons_self
      have hcopy : copyString str = str := cStr_eq_self hstr
      rw [updateNewFields, hcopy, ih hvalues.tail, lookup_cons]
      cases hget : fieldTable.get name with
      | none =>
          rw [StlHashtable.get_insert hget, cStr_eq_self hfield, cStr_eq_self hname]
          by_cases heq : name = field
          · subst heq
            simp [hget]
          · simp [heq, Ne.symm heq]
      | some old =>
          rw [StlHashtable.insert_of_get hget]
          by_cases heq : name = field
          · simp [← heq, hget]
          · simp [heq]

end Loops

/-! ## The paths of `Update` -/

section Paths

variable {db : HashtableDB} {values : List KVPair}

/-- What each path leaves for a field. -/
theorem readValue_update (hdb : db.WellFormed) (hvalues : NulFreeValues values)
    {table key : Str} {db' : HashtableDB} (hupdate : db.update table key values = some (kOK, db'))
    {field : Str} (hfield : NulFree field) :
    db'.readValue table key field =
      if (db.recordTable (table ++ key)).isSome then
        overwritten values (db.readValue table key) field
      else values.lookup field := by
  obtain ⟨db₁, hupdate₁, hsets⟩ := update_spec hdb table key values
  cases hupdate.symm.trans hupdate₁
  rw [readValue_eq hsets.wellFormed, storedValue, hsets.self, overwritten, readValue_eq hdb,
    storedValue]
  cases db.recordTable (table ++ key) with
  | none =>
      rw [Option.bind_some, get_updateNewFields hvalues hfield, StlHashtable.get_empty]
      rfl
  | some fieldTable =>
      rw [Option.bind_some, get_updateFields hvalues hfield]
      rfl

/-- `Update` returns, and what `Read` gives for other index strings stays. -/
theorem exists_update (hdb : db.WellFormed) (table key : Str) (values : List KVPair) :
    ∃ db', db.update table key values = some (kOK, db') ∧ db'.WellFormed ∧
      (∃ fieldTable, db'.recordTable (table ++ key) = some fieldTable) ∧
      ∀ table' key', cStr (table' ++ key') ≠ cStr (table ++ key) → ∀ order fields result,
        db'.read order table' key' fields result = db.read order table' key' fields result := by
  obtain ⟨db', hupdate, hsets⟩ := update_spec hdb table key values
  refine ⟨db', hupdate, hsets.wellFormed, ⟨_, hsets.self⟩, ?_⟩
  intro table' key' hne order fields result
  have hother := hsets.other fun hwrap => hne (HashString.wrap_eq_wrap_iff.mp hwrap)
  rw [read_eq hsets.wellFormed, read_eq hdb, hother]

/-- `Update` overwrites exactly when each field comes out with the value of its last pair,
or with what was there. -/
theorem overwrites_iff_readValue (hdb : db.WellFormed) (hvalues : NulFreeValues values)
    {table key : Str} : db.Overwrites table key values ↔ ∀ field, NulFree field →
      (if (db.recordTable (table ++ key)).isSome then
        overwritten values (db.readValue table key) field
      else values.lookup field) = overwritten values (db.readValue table key) field := by
  obtain ⟨db', hupdate, hdb', ⟨fieldTable, hrecord⟩, hother⟩ := exists_update hdb table key values
  have hstored : ∀ field, NulFree field → fieldTable.get field =
      if (db.recordTable (table ++ key)).isSome then
        overwritten values (db.readValue table key) field
      else values.lookup field := by
    intro field hfield
    rw [← readValue_update hdb hvalues hupdate hfield, readValue_eq hdb', storedValue, hrecord]
    rfl
  constructor
  · rintro ⟨db₁, hupdate₁, hgives, -⟩ field hfield
    cases hupdate.symm.trans hupdate₁
    rw [← readValue_update hdb hvalues hupdate hfield, hgives.readValue hfield]
  · intro hvalue
    refine ⟨db', hupdate, gives_of_recordTable hdb' hrecord fun field hfield => ?_, hother⟩
    rw [hstored field hfield, hvalue field hfield]

/-- A list has a first pair of a field where it has a last one. -/
theorem firstIsLast_iff (hvalues : NulFreeValues values) :
    FirstIsLast values ↔ ∀ field, NulFree field →
      values.lookup field = WriteLog.last values field := by
  refine ⟨fun hfirst field _ => hfirst field, fun hfirst field => ?_⟩
  by_cases hfield : NulFree field
  · exact hfirst field hfield
  · have hnotMem : field ∉ values.map Prod.fst := by
      intro hmem
      obtain ⟨pair, hpair, rfl⟩ := List.mem_map.mp hmem
      exact hfield (hvalues pair hpair).1
    have hlast : WriteLog.last values field = none := by
      rw [← Option.not_isSome_iff_eq_none, WriteLog.isSome_last]
      exact hnotMem
    rw [hlast, List.lookup_eq_none_iff]
    intro pair hpair
    rw [bne_iff_ne]
    rintro rfl
    exact hnotMem (List.mem_map_of_mem hpair)

/-- The path for a record that is there overwrites, and the one for a new record does
where the first pairs of the list are as good as the last. -/
theorem overwrites_iff_of_wellFormed (hdb : db.WellFormed) (hvalues : NulFreeValues values)
    (table key : Str) : db.Overwrites table key values ↔
      (db.recordTable (table ++ key)).isSome ∨ FirstIsLast values := by
  rw [overwrites_iff_readValue hdb hvalues]
  cases hrecord : db.recordTable (table ++ key) with
  | some fieldTable => simp
  | none =>
      have hold : ∀ field, db.readValue table key field = none := by
        intro field
        rw [readValue_eq hdb, storedValue, hrecord]
        rfl
      simp [overwritten, hold, firstIsLast_iff hvalues]

/-- A database with a record without fields. -/
theorem exists_noFields (table key : Str) : ∃ db fieldTable, calls.Reaches empty db ∧
    db.recordTable (table ++ key) = some fieldTable ∧ NoFields fieldTable := by
  obtain ⟨db, hinsert, hsets⟩ := insert_spec wellFormed_empty table key []
  rw [recordTable_empty] at hsets
  refine ⟨db, .empty, ⟨[.insert table key []], ?_⟩, hsets.self, StlHashtable.get_empty⟩
  rw [Machine.run_cons]
  change (((empty.insert table key []).map (·.2)).bind fun db => calls.run db []) = some db
  rw [hinsert]
  rfl

/-- What the path for a new record leaves. -/
theorem readValue_update_new (hdb : db.WellFormed) (hvalues : NulFreeValues values)
    {table key : Str} {db' : HashtableDB} (hrecord : db.recordTable (table ++ key) = none)
    (hupdate : db.update table key values = some (kOK, db')) {field : Str}
    (hfield : NulFree field) : db'.readValue table key field = values.lookup field := by
  rw [readValue_update hdb hvalues hupdate hfield, hrecord]
  rfl

/-- What the path for a record leaves in one without fields. -/
theorem readValue_update_noFields (hdb : db.WellFormed) (hvalues : NulFreeValues values)
    {table key : Str} {db' : HashtableDB} {fieldTable : FieldHashtable}
    (hrecord : db.recordTable (table ++ key) = some fieldTable) (hnone : NoFields fieldTable)
    (hupdate : db.update table key values = some (kOK, db')) {field : Str}
    (hfield : NulFree field) :
    db'.readValue table key field = WriteLog.last values field := by
  rw [readValue_update hdb hvalues hupdate hfield, overwritten, readValue_eq hdb, storedValue,
    hrecord, Option.bind_some, hnone, Option.or_none]
  rfl

/-- The paths agree on the lists whose first pairs are as good as the last. -/
theorem pathsAgree_iff (hvalues : NulFreeValues values) :
    PathsAgree values ↔ FirstIsLast values := by
  rw [firstIsLast_iff hvalues]
  constructor
  · intro hagree field hfield
    obtain ⟨db₁, fieldTable, hreaches, hrecord, hnone⟩ := exists_noFields [] []
    have hdb₁ := wellFormed_of_reaches hreaches
    obtain ⟨db₀', hupdate₀, -⟩ := exists_update wellFormed_empty [] [] values
    obtain ⟨db₁', hupdate₁, -⟩ := exists_update hdb₁ [] [] values
    rw [← readValue_update_new wellFormed_empty hvalues (recordTable_empty _) hupdate₀ hfield,
      ← readValue_update_noFields hdb₁ hvalues hrecord hnone hupdate₁ hfield]
    exact hagree empty db₁ db₀' db₁' (.refl calls empty) hreaches [] [] fieldTable
      (recordTable_empty _) hrecord hnone hupdate₀ hupdate₁ field hfield
  · intro hfirst db₀ db₁ db₀' db₁' hreaches₀ hreaches₁ table key fieldTable habsent hrecord hnone
      hupdate₀ hupdate₁ field hfield
    rw [readValue_update_new (wellFormed_of_reaches hreaches₀) hvalues habsent hupdate₀ hfield,
      readValue_update_noFields (wellFormed_of_reaches hreaches₁) hvalues hrecord hnone hupdate₁
        hfield, hfirst field hfield]

/-- In every reachable state, `Update` with strings without NUL overwrites exactly when the
record is there, or the first and the last pair of each field in the list have the same
value.  The path for a new record and the one for a record without fields leave the same
fields exactly for these lists. -/
theorem overwrites_iff (hvalues : NulFreeValues values) :
    (∀ db, calls.Reaches empty db → ∀ table key, db.Overwrites table key values ↔
      (db.recordTable (table ++ key)).isSome ∨ FirstIsLast values) ∧
      (PathsAgree values ↔ FirstIsLast values) :=
  ⟨fun _ hreaches table key =>
    overwrites_iff_of_wellFormed (wellFormed_of_reaches hreaches) hvalues table key,
    pathsAgree_iff hvalues⟩

end Paths

/-- The theorem at a list that names `a` twice. -/
theorem overwrites_iff_twice :
    (∀ db, calls.Reaches empty db → ∀ table key,
      db.Overwrites table key [("a".toList, "1".toList), ("a".toList, "2".toList)] ↔
        (db.recordTable (table ++ key)).isSome ∨
          FirstIsLast [("a".toList, "1".toList), ("a".toList, "2".toList)]) ∧
      (PathsAgree [("a".toList, "1".toList), ("a".toList, "2".toList)] ↔
        FirstIsLast [("a".toList, "1".toList), ("a".toList, "2".toList)]) :=
  overwrites_iff (by decide)

/-- For a new record the list leaves the first value of `a`. -/
theorem not_overwrites_twice :
    ∃ db', empty.update "t".toList "k".toList
        [("a".toList, "1".toList), ("a".toList, "2".toList)] = some (kOK, db') ∧
      db'.read .latestFirst "t".toList "k".toList (some ["a".toList]) [] =
        some (kOK, [("a".toList, "1".toList)]) ∧
      ¬ empty.Overwrites "t".toList "k".toList
        [("a".toList, "1".toList), ("a".toList, "2".toList)] := by
  refine ⟨_, rfl, rfl, ?_⟩
  rintro ⟨db', hupdate, hgives, -⟩
  cases hupdate
  have hvalue := hgives.readValue (show NulFree "a".toList by decide)
  revert hvalue
  decide +kernel

end HashtableDB

end YcsbC
