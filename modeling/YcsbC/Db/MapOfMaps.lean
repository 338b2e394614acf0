import YcsbC.Db.RecordWrites
import YcsbC.Foundation.Machine

/-!
# The database is a map of maps

Used by one client at a time, the database behaves as a map from index strings to
records, a record being a map from fields to values.  What a history of calls has put
in a record is stated without tables: the pairs that took effect since the last
`Delete` of its index, if an `Insert` or `Update` has come after it
(`effectiveWrites`).  After every history `Read` returns just that, and no call changes
what it returns for another index (`refinesMapOfMaps`).
-/

namespace YcsbC

/-- A call of `HashtableDB`. -/
inductive Call where
  | insert (table key : Str) (values : List KVPair)
  | update (table key : Str) (values : List KVPair)
  | delete (table key : Str)
  | read (order : IterationOrder) (table key : Str) (fields : Option (List Str))
      (result : List KVPair)

/-- The writes to a record that took effect, if there is one. -/
abbrev RecordLog := Option (WriteLog Str Str)

namespace Call

/-- The index string of the record that a call names. -/
def index : Call → Str
  | insert table key _ | update table key _ | delete table key | read _ table key _ _ =>
      table ++ key

/-- Strings without NUL, and no field named twice in a list of pairs. -/
def Valid : Call → Prop
  | insert table key values | update table key values =>
      NulFree (table ++ key) ∧ HashtableDB.NulFreeValues values ∧ (values.map Prod.fst).Nodup
  | delete table key | read _ table key _ _ => NulFree (table ++ key)

instance (call : Call) : Decidable call.Valid :=
  match call with
  | insert .. | update .. => inferInstanceAs (Decidable (_ ∧ _ ∧ _))
  | delete .. | read .. => inferInstanceAs (Decidable (NulFree _))

/-- The database after a call. -/
def apply (call : Call) (db : HashtableDB) : Option HashtableDB :=
  match call with
  | insert table key values => (db.insert table key values).map (·.2)
  | update table key values => (db.update table key values).map (·.2)
  | delete table key => (db.delete table key).map (·.2)
  | read order table key fields result => (db.read order table key fields result).map fun _ => db

/-- What a call does to the record of its index: all pairs of an `Update` take effect,
and those of an `Insert` before the first whose field is there. -/
def effect (call : Call) (record : RecordLog) : RecordLog :=
  match call with
  | insert _ _ values => some (record.getD [] ++ HashtableDB.insertedPairs (record.getD []) values)
  | update _ _ values => some (record.getD [] ++ values)
  | delete _ _ => none
  | read .. => record

/-- `Insert` and `Update`. -/
def isWrite : Call → Bool
  | insert .. | update .. => true
  | delete .. | read .. => false

/-- `Delete`. -/
def isDelete : Call → Bool
  | delete .. => true
  | insert .. | update .. | read .. => false

end Call

namespace HashtableDB

/-- The machine of sequential calls. -/
def calls : Machine HashtableDB Call := ⟨fun db call => call.apply db⟩

/-- What a history of calls has put in the record of an index. -/
def effectiveWrites (index : Str) (history : List Call) : RecordLog :=
  history.foldl (fun record call => if call.index = index then call.effect record else record) none

/-- An `Insert` or `Update` on the index has come after its last `Delete`. -/
def WrittenSinceDelete (index : Str) (history : List Call) : Prop :=
  ∃ (before : List Call) (call : Call) (after : List Call), history = before ++ call :: after ∧
    call.index = index ∧ call.isWrite = true ∧
    ∀ later ∈ after, ¬ (later.index = index ∧ later.isDelete = true)

/-- `Read` returns what has been put in the record: no data if there is none, each field
once with its last write when all fields are asked for, and the fields that are there in
the order asked otherwise. -/
structure ReadsAs (db : HashtableDB) (table key : Str) (record : RecordLog) : Prop where
  noData : record = none → ∀ order fields result,
    db.read order table key fields result = some (kErrorNoData, result)
  all : ∀ log, record = some log → ∀ order result, ∃ listed,
    db.read order table key none result = some (kOK, listed) ∧ (listed.map Prod.fst).Nodup ∧
      ∀ field value, (field, value) ∈ listed ↔ log.last field = some value
  some : ∀ log, record = some log → ∀ order fields result, (∀ field ∈ fields, NulFree field) →
    db.read order table key (some fields) result = some (kOK,
      fields.filterMap fun field => (log.last field).map fun value => (field, value))

/-- The database after a history of calls is a map of maps: every call of the history
returned, `Read` returns no data exactly for the indices not written since their last
`Delete`, it returns the writes that took effect for the others, and no further call
changes what it returns for another index. -/
def RefinesMapOfMaps (history : List Call) : Prop :=
  ∃ db, calls.run empty history = some db ∧
    (∀ table key, NulFree (table ++ key) →
      (effectiveWrites (table ++ key) history = none ↔
        ¬ WrittenSinceDelete (table ++ key) history) ∧
      db.ReadsAs table key (effectiveWrites (table ++ key) history)) ∧
    ∀ call : Call, call.Valid → ∃ db', call.apply db = some db' ∧
      ∀ table key, NulFree (table ++ key) → table ++ key ≠ call.index →
        ∀ order fields result,
          db'.read order table key fields result = db.read order table key fields result

/-! ## Histories -/

theorem effectiveWrites_append (index : Str) (history : List Call) (call : Call) :
    effectiveWrites index (history ++ [call]) =
      if call.index = index then call.effect (effectiveWrites index history)
      else effectiveWrites index history := by
  rw [effectiveWrites, List.foldl_append]
  rfl

theorem writtenSinceDelete_append (index : Str) (history : List Call) (call : Call) :
    WrittenSinceDelete index (history ++ [call]) ↔
      (call.index = index ∧ call.isWrite = true) ∨
        (¬ (call.index = index ∧ call.isDelete = true) ∧ WrittenSinceDelete index history) := by
  constructor
  · rintro ⟨before, write, after, hsplit, hindex, hwrite, hafter⟩
    rcases List.eq_nil_or_concat after with rfl | ⟨after, last, rfl⟩
    · obtain ⟨-, hlast⟩ := List.append_inj' hsplit rfl
      cases hlast
      exact Or.inl ⟨hindex, hwrite⟩
    · rw [List.concat_eq_append, ← List.cons_append, ← List.append_assoc] at hsplit
      obtain ⟨hhistory, hlast⟩ := List.append_inj' hsplit rfl
      cases hlast
      refine Or.inr ⟨hafter _ (by simp), before, write, after, hhistory, hindex, hwrite, ?_⟩
      exact fun later hmem => hafter later (by simp [hmem])
  · rintro (⟨hindex, hwrite⟩ | ⟨hdelete, before, write, after, rfl, hindex, hwrite, hafter⟩)
    · exact ⟨history, call, [], rfl, hindex, hwrite, fun _ hmem => absurd hmem List.not_mem_nil⟩
    · refine ⟨before, write, after ++ [call], by simp, hindex, hwrite, fun later hmem => ?_⟩
      rcases List.mem_append.mp hmem with hold | hnew
      · exact hafter later hold
      · rw [List.mem_singleton.mp hnew]
        exact hdelete

/-- There is a record exactly when the index has been written since its last `Delete`. -/
theorem effectiveWrites_eq_none_iff (index : Str) (history : List Call) :
    effectiveWrites index history = none ↔ ¬ WrittenSinceDelete index history := by
  induction history using List.reverseRecOn with
  | nil => simp [effectiveWrites, WrittenSinceDelete]
  | append_singleton history call ih =>
      rw [effectiveWrites_append, writtenSinceDelete_append]
      split
      · rename_i hindex
        cases call with
        | insert => simp [Call.effect, Call.isWrite, hindex]
        | update => simp [Call.effect, Call.isWrite, hindex]
        | delete => simp [Call.effect, Call.isWrite, Call.isDelete, hindex]
        | read => simp [Call.effect, Call.isWrite, Call.isDelete, ih]
      · rename_i hindex
        simp [hindex, ih]

/-! ## The simulation -/

/-- The database holds what a history has put in each record. -/
structure Represents (history : List Call) (db : HashtableDB) : Prop where
  wellFormed : db.WellFormed
  record : ∀ index, NulFree index →
    Option.Rel Holds (db.recordTable index) (effectiveWrites index history)

/-- A call changes the record of its index as the history says. -/
theorem apply_spec {db : HashtableDB} (hdb : db.WellFormed) {call : Call} (hvalid : call.Valid)
    {log : RecordLog} (hrecord : Option.Rel Holds (db.recordTable call.index) log) :
    ∃ record db', call.apply db = some db' ∧ Sets db call.index record db' ∧
      Option.Rel Holds record (call.effect log) := by
  cases call with
  | insert table key values =>
      obtain ⟨-, hvalues, hnodup⟩ := hvalid
      obtain ⟨db', hinsert, hsets⟩ := insert_spec hdb table key values
      refine ⟨_, db', by rw [Call.apply, hinsert]; rfl, hsets, ?_⟩
      change Option.Rel Holds (db.recordTable (table ++ key)) log at hrecord
      generalize db.recordTable (table ++ key) = fieldTable at hrecord
      cases hrecord with
      | none => exact .some (holds_insertFields holds_empty hvalues hnodup).1
      | some hholds => exact .some (holds_insertFields hholds hvalues hnodup).1
  | update table key values =>
      obtain ⟨-, hvalues, hnodup⟩ := hvalid
      obtain ⟨db', hupdate, hsets⟩ := update_spec hdb table key values
      refine ⟨_, db', by rw [Call.apply, hupdate]; rfl, hsets, ?_⟩
      change Option.Rel Holds (db.recordTable (table ++ key)) log at hrecord
      generalize db.recordTable (table ++ key) = fieldTable at hrecord
      cases hrecord with
      | none => exact .some (holds_updateNewFields holds_empty hvalues hnodup fun _ _ => rfl)
      | some hholds => exact .some (holds_updateFields hholds hvalues)
  | delete table key =>
      obtain ⟨status, db', hdelete, hsets⟩ := delete_spec hdb table key
      exact ⟨none, db', by rw [Call.apply, hdelete]; rfl, hsets, .none⟩
  | read order table key fields result =>
      refine ⟨_, db, ?_, ⟨hdb, rfl, fun _ => rfl, rfl⟩, hrecord⟩
      rw [Call.apply, read_eq hdb]
      rfl

/-- A further call keeps the simulation. -/
theorem Represents.apply {history : List Call} {db : HashtableDB}
    (hdb : Represents history db) {call : Call} (hvalid : call.Valid) :
    ∃ db', call.apply db = some db' ∧ Represents (history ++ [call]) db' ∧
      ∀ index, NulFree index → index ≠ call.index →
        db'.recordTable index = db.recordTable index := by
  have hindex : NulFree call.index := by
    cases call with
    | insert => exact hvalid.1
    | update => exact hvalid.1
    | delete => exact hvalid
    | read => exact hvalid
  obtain ⟨record, db', happly, hsets, hrecord⟩ :=
    apply_spec hdb.wellFormed hvalid (hdb.record _ hindex)
  have hother : ∀ index, NulFree index → index ≠ call.index →
      db'.recordTable index = db.recordTable index :=
    fun _ hfree hne => hsets.other_of_ne hindex hfree hne
  refine ⟨db', happly, ⟨hsets.wellFormed, fun index hfree => ?_⟩, hother⟩
  rw [effectiveWrites_append]
  split
  · rename_i heq
    rw [← heq, hsets.self]
    exact hrecord
  · rename_i hne
    rw [hother index hfree (Ne.symm hne)]
    exact hdb.record index hfree

/-- Every history of calls returns, and the database holds what it has put in each
record. -/
theorem represents_run {history : List Call} (hvalid : ∀ call ∈ history, call.Valid) :
    ∃ db, calls.run empty history = some db ∧ Represents history db := by
  induction history using List.reverseRecOn with
  | nil =>
      refine ⟨empty, rfl, wellFormed_empty, fun index _ => ?_⟩
      rw [recordTable_empty]
      exact .none
  | append_singleton history call ih =>
      obtain ⟨db, hrun, hdb⟩ := ih fun c hmem => hvalid c (List.mem_append_left _ hmem)
      obtain ⟨db', happly, hdb', -⟩ :=
        hdb.apply (hvalid call (List.mem_append_right _ List.mem_cons_self))
      refine ⟨db', calls.run_append_eq_some.mpr ⟨db, hrun, ?_⟩, hdb'⟩
      exact calls.run_cons_eq_some.mpr ⟨db', happly, rfl⟩

/-- `Read` returns what the field table of its index holds. -/
theorem readsAs_of_rel {db : HashtableDB} (hdb : db.WellFormed) {table key : Str}
    {record : RecordLog} (hrecord : Option.Rel Holds (db.recordTable (table ++ key)) record) :
    db.ReadsAs table key record := by
  have hread := read_eq hdb table key
  generalize db.recordTable (table ++ key) = fieldTable at hrecord hread
  cases hrecord with
  | none =>
      exact ⟨fun _ order fields result => hread order fields result,
        fun _ hnone => (by cases hnone), fun _ hnone => (by cases hnone)⟩
  | some hholds =>
      refine ⟨fun hnone => (by cases hnone), ?_, ?_⟩
      · rintro _ ⟨⟩ order result
        exact ⟨_, hread order none result, hholds.readFields_none order⟩
      · rintro _ ⟨⟩ order fields result hfields
        rw [hread]
        dsimp only
        rw [hholds.readFields_some order hfields]

/-- After every history of calls the database is a map of maps. -/
theorem refinesMapOfMaps {history : List Call} (hvalid : ∀ call ∈ history, call.Valid) :
    RefinesMapOfMaps history := by
  obtain ⟨db, hrun, hdb⟩ := represents_run hvalid
  refine ⟨db, hrun, fun table key hfree => ⟨effectiveWrites_eq_none_iff _ _, ?_⟩, ?_⟩
  · exact readsAs_of_rel hdb.wellFormed (hdb.record _ hfree)
  · intro call hcall
    obtain ⟨db', happly, hdb', hother⟩ := hdb.apply hcall
    refine ⟨db', happly, fun table key hfree hne order fields result => ?_⟩
    rw [read_eq hdb'.wellFormed, read_eq hdb.wellFormed, hother _ hfree hne]

/-- A record is made, an `Insert` stops at its second pair, and an `Update` overwrites
a field. -/
def sampleHistory : List Call :=
  let field (c : Char) : Str := [c]
  [.insert (field 't') (field 'k') [(field 'a', field '1'), (field 'b', field '2')],
    .insert (field 't') (field 'k')
      [(field 'c', field '3'), (field 'a', field '4'), (field 'd', field '5')],
    .update (field 't') (field 'k') [(field 'b', field '6')]]

example : effectiveWrites ['t', 'k'] sampleHistory =
    some [(['a'], ['1']), (['b'], ['2']), (['c'], ['3']), (['b'], ['6'])] := by
  decide

/-- The theorem at this history. -/
theorem refinesMapOfMaps_sample : RefinesMapOfMaps sampleHistory :=
  refinesMapOfMaps (by decide)

end HashtableDB

end YcsbC
