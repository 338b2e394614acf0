import YcsbC.Db.MapOfMaps

/-!
# What a call does to other records

`HashtableDB` looks up the text of the table and of the key, one after the other and
nothing between them.  A call therefore leaves the record of another pair of table and key
alone exactly when the two texts differ (`keepsPair_iff`).  The pairs `a`, `bc` and `ab`,
`c` name one record.
-/

namespace YcsbC

namespace Call

/-- The table and the key that a call names. -/
def pair : Call → Str × Str
  | insert table key _ | update table key _ | delete table key | read _ table key _ _ =>
      (table, key)

/-- `Insert`, `Update` and `Delete`. -/
def changes (call : Call) : Bool := call.isWrite || call.isDelete

theorem index_eq (call : Call) : call.index = call.pair.1 ++ call.pair.2 := by
  cases call <;> rfl

end Call

namespace HashtableDB

/-- In every reachable state the call returns, and `Read` returns the same for this table
and key before and after it. -/
def KeepsPair (call : Call) (table key : Str) : Prop :=
  ∀ db, calls.Reaches empty db → ∃ db', call.apply db = some db' ∧
    ∀ order fields result,
      db'.read order table key fields result = db.read order table key fields result

/-! ## Calls with any strings -/

section Calls

variable {db : HashtableDB} (hdb : db.WellFormed) (call : Call)

include hdb

/-- A call sets the record of its index: an `Insert` or `Update` leaves one and a `Delete`
leaves none. -/
theorem exists_apply : ∃ record db', call.apply db = some db' ∧ Sets db call.index record db' ∧
    (call.isWrite = true → record.isSome) ∧ (call.isDelete = true → record = none) := by
  cases call with
  | insert table key values =>
      obtain ⟨db', hinsert, hsets⟩ := insert_spec hdb table key values
      exact ⟨_, db', by rw [Call.apply, hinsert]; rfl, hsets, by simp, by simp [Call.isDelete]⟩
  | update table key values =>
      obtain ⟨db', hupdate, hsets⟩ := update_spec hdb table key values
      exact ⟨_, db', by rw [Call.apply, hupdate]; rfl, hsets, by simp, by simp [Call.isDelete]⟩
  | delete table key =>
      obtain ⟨status, db', hdelete, hsets⟩ := delete_spec hdb table key
      exact ⟨none, db', by rw [Call.apply, hdelete]; rfl, hsets, by simp [Call.isWrite], by simp⟩
  | read order table key fields result =>
      refine ⟨_, db, ?_, ⟨hdb, rfl, fun _ => rfl, rfl⟩, by simp [Call.isWrite],
        by simp [Call.isDelete]⟩
      rw [Call.apply, read_eq hdb]
      rfl

theorem wellFormed_of_apply {db' : HashtableDB} (happly : call.apply db = some db') :
    db'.WellFormed := by
  obtain ⟨record, db₁, hdb₁, hsets, -⟩ := exists_apply hdb call
  cases happly.symm.trans hdb₁
  exact hsets.wellFormed

end Calls

theorem wellFormed_of_reaches {db : HashtableDB} (hreaches : calls.Reaches empty db) :
    db.WellFormed :=
  hreaches.invariant (I := WellFormed)
    (fun _ call _ hdb happly => wellFormed_of_apply hdb call happly) wellFormed_empty

/-- `Read` shows whether there is a record. -/
theorem isSome_recordTable_of_read {db db' : HashtableDB} (hdb : db.WellFormed)
    (hdb' : db'.WellFormed) {table key : Str}
    (hread : ∀ order fields result,
      db'.read order table key fields result = db.read order table key fields result) :
    (db'.recordTable (table ++ key)).isSome = (db.recordTable (table ++ key)).isSome := by
  have hcode := hread .latestFirst none []
  rw [read_eq hdb', read_eq hdb] at hcode
  cases hrecord' : db'.recordTable (table ++ key) with
  | none =>
      cases hrecord : db.recordTable (table ++ key) with
      | none => rfl
      | some fieldTable => simp [hrecord, hrecord', kErrorNoData, kOK] at hcode
  | some fieldTable' =>
      cases hrecord : db.recordTable (table ++ key) with
      | none => simp [hrecord, hrecord', kErrorNoData, kOK] at hcode
      | some fieldTable => rfl

/-! ## Calls and records -/

/-- A call on another index leaves a record alone. -/
theorem keepsPair_of_index_ne {call : Call} {table key : Str} (hindex : NulFree call.index)
    (hindex' : NulFree (table ++ key)) (hne : table ++ key ≠ call.index) :
    KeepsPair call table key := by
  intro db hreaches
  have hdb := wellFormed_of_reaches hreaches
  obtain ⟨record, db', happly, hsets, -⟩ := exists_apply hdb call
  refine ⟨db', happly, fun order fields result => ?_⟩
  rw [read_eq hsets.wellFormed, read_eq hdb, hsets.other_of_ne hindex hindex' hne]

/-- A call on the same index makes or removes the record in some reachable state. -/
theorem not_keepsPair_of_index_eq {call : Call} {table key : Str}
    (hchanges : call.changes = true) (heq : table ++ key = call.index) :
    ¬ KeepsPair call table key := by
  intro hkeeps
  rcases Bool.or_eq_true_iff.mp hchanges with hwrite | hdelete
  · -- the first write to the index makes its record
    obtain ⟨db', happly, hread⟩ := hkeeps empty (.refl calls empty)
    obtain ⟨record, db₁, hdb₁, hsets, hrecord, -⟩ := exists_apply wellFormed_empty call
    cases happly.symm.trans hdb₁
    have hsame := isSome_recordTable_of_read wellFormed_empty hsets.wellFormed hread
    rw [heq, hsets.self, recordTable_empty, hrecord hwrite] at hsame
    cases hsame
  · -- a delete after an insert removes it
    obtain ⟨record₁, db₁, hinsert, hsets₁, hrecord₁, -⟩ :=
      exists_apply wellFormed_empty (.insert table key [])
    have hstep : calls.step empty (.insert table key []) = some db₁ := hinsert
    obtain ⟨db₂, happly, hread⟩ := hkeeps db₁ (.head hstep (.refl calls db₁))
    obtain ⟨record₂, db₃, hdb₃, hsets₂, -, hrecord₂⟩ := exists_apply hsets₁.wellFormed call
    cases happly.symm.trans hdb₃
    have hsame := isSome_recordTable_of_read hsets₁.wellFormed hsets₂.wellFormed hread
    have hself : db₁.recordTable (table ++ key) = record₁ := hsets₁.self
    rw [hself, hrecord₁ rfl, heq, hsets₂.self, hrecord₂ hdelete] at hsame
    cases hsame

/-- An `Insert`, `Update` or `Delete` leaves what `Read` returns for a table and a key
alone exactly when the text it looks up is another one. -/
theorem keepsPair_iff {call : Call} (hchanges : call.changes = true)
    (htable : NulFree call.pair.1) (hkey : NulFree call.pair.2) {table key : Str}
    (htable' : NulFree table) (hkey' : NulFree key) :
    KeepsPair call table key ↔ call.pair.1 ++ call.pair.2 ≠ table ++ key := by
  rw [← call.index_eq]
  constructor
  · intro hkeeps heq
    exact not_keepsPair_of_index_eq hchanges heq.symm hkeeps
  · intro hne
    refine keepsPair_of_index_ne ?_ (nulFree_append.mpr ⟨htable', hkey'⟩) hne.symm
    rw [call.index_eq]
    exact nulFree_append.mpr ⟨htable, hkey⟩

/-- An insert of the record `bc` of the table `a`. -/
def insertShared : Call :=
  .insert "a".toList "bc".toList [("f".toList, "v".toList)]

/-- The theorem at this insert and the record `c` of the table `ab`. -/
theorem keepsPair_iff_insertShared :
    KeepsPair insertShared "ab".toList "c".toList ↔
      insertShared.pair.1 ++ insertShared.pair.2 ≠ "ab".toList ++ "c".toList :=
  keepsPair_iff rfl (by decide) (by decide) (by decide) (by decide)

/-- The other table has a record after the insert. -/
theorem not_keepsPair_insertShared :
    insertShared.pair ≠ ("ab".toList, "c".toList) ∧
      empty.read .latestFirst "ab".toList "c".toList none [] = some (kErrorNoData, []) ∧
      ((insertShared.apply empty).bind fun db =>
        db.read .latestFirst "ab".toList "c".toList none []) =
          some (kOK, [("f".toList, "v".toList)]) ∧
      ¬ KeepsPair insertShared "ab".toList "c".toList := by
  refine ⟨by decide, rfl, by decide +kernel, ?_⟩
  exact not_keepsPair_of_index_eq rfl rfl

end HashtableDB

end YcsbC
