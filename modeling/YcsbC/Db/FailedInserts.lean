import YcsbC.Db.TableFrames

/-!
# Inserts that conflict

`HashtableDB::Insert` makes the record if there is none, and then adds one pair after the
other until the record holds the name of one already.  It takes nothing back when it
returns the conflict.  The records are as they were only where there was nothing to take
back: the record was there and held the first name of the list
(`keepsOnConflict_iff`).
-/

namespace YcsbC

namespace HashtableDB

/-- Two field tables hold the same values for the same fields. -/
def SameFields (fieldTable fieldTable' : FieldHashtable) : Prop :=
  ∀ field, fieldTable'.get field = fieldTable.get field

/-- The same index strings have a record, with the same fields and values. -/
def SameRecords (db db' : HashtableDB) : Prop :=
  ∀ index, Option.Rel SameFields (db.recordTable index) (db'.recordTable index)

/-- The value of a field of the record of an index. -/
def storedValue (db : HashtableDB) (index field : Str) : Option Str :=
  (db.recordTable index).bind fun fieldTable => fieldTable.get field

/-- If `Insert` returns a conflict, it leaves the records as they were. -/
def KeepsOnConflict (db : HashtableDB) (table key : Str) (values : List KVPair) : Prop :=
  ∀ db', db.insert table key values = some (kErrorConflict, db') → SameRecords db db'

/-- The list repeats no name, and the record, if there is one, holds none of them. -/
def NamesNew (record : Option FieldHashtable) (values : List KVPair) : Prop :=
  values.Pairwise (fun pair pair' => cStr pair.1 ≠ cStr pair'.1) ∧
    ∀ fieldTable ∈ record, ∀ pair ∈ values, fieldTable.get pair.1 = none

/-- There is a record, and it holds the first name of the list. -/
def FirstThere (record : Option FieldHashtable) (values : List KVPair) : Prop :=
  ∃ fieldTable ∈ record, ∃ pair ∈ values.head?, (fieldTable.get pair.1).isSome

/-! ## The loop -/

section Loop

variable {fieldTable : FieldHashtable} {values : List KVPair}

/-- The loop ends well, or with a conflict. -/
theorem insertFields_status (fieldTable : FieldHashtable) (values : List KVPair) :
    (insertFields fieldTable values).1 = kOK ∨
      (insertFields fieldTable values).1 = kErrorConflict := by
  induction values generalizing fieldTable with
  | nil => exact Or.inl rfl
  | cons pair values ih =>
      cases hget : fieldTable.get pair.1 with
      | none =>
          rw [insertFields_cons_of_none hget]
          exact ih _
      | some old =>
          rw [insertFields_cons_of_some hget]
          exact Or.inr rfl

/-- The loop ends well when all names are new to it. -/
theorem insertFields_eq_kOK_iff : (insertFields fieldTable values).1 = kOK ↔
    NamesNew (some fieldTable) values := by
  induction values generalizing fieldTable with
  | nil => simp [insertFields, NamesNew]
  | cons pair values ih =>
      cases hget : fieldTable.get pair.1 with
      | none =>
          rw [insertFields_cons_of_none hget, ih]
          simp only [NamesNew, Option.mem_some_iff, forall_eq', List.pairwise_cons,
            List.forall_mem_cons, StlHashtable.get_insert hget, hget, true_and]
          -- what the insert has added is what the later names must differ from
          constructor
          · rintro ⟨hpairwise, hnone⟩
            refine ⟨⟨fun pair' hmem hname => ?_, hpairwise⟩, fun pair' hmem => ?_⟩
            · have hset := hnone pair' hmem
              rw [if_pos hname.symm] at hset
              cases hset
            · have hset := hnone pair' hmem
              split at hset
              · cases hset
              · exact hset
          · rintro ⟨⟨hname, hpairwise⟩, hnone⟩
            refine ⟨hpairwise, fun pair' hmem => ?_⟩
            rw [if_neg (Ne.symm (hname pair' hmem))]
            exact hnone pair' hmem
      | some old =>
          rw [insertFields_cons_of_some hget]
          have hconflict : kErrorConflict ≠ kOK := by decide
          refine iff_of_false hconflict fun hnew => ?_
          have hnone := hnew.2 fieldTable rfl pair List.mem_cons_self
          rw [hget] at hnone
          cases hnone

/-- The loop keeps the values of the fields that are there. -/
theorem get_insertFields_of_some {field value : Str} (hget : fieldTable.get field = some value) :
    (insertFields fieldTable values).2.get field = some value := by
  induction values generalizing fieldTable with
  | nil => exact hget
  | cons pair values ih =>
      cases hpair : fieldTable.get pair.1 with
      | none =>
          rw [insertFields_cons_of_none hpair]
          refine ih ?_
          rw [StlHashtable.get_insert hpair, if_neg, hget]
          intro hname
          rw [StlHashtable.get_congr hname, hpair] at hget
          cases hget
      | some old =>
          rw [insertFields_cons_of_some hpair]
          exact hget

end Loop

/-! ## The records -/

theorem rel_sameFields_refl (record : Option FieldHashtable) :
    Option.Rel SameFields record record := by
  cases record with
  | none => exact .none
  | some fieldTable => exact .some fun _ => rfl

theorem SameRecords.storedValue {db db' : HashtableDB} (hsame : SameRecords db db')
    (index field : Str) : db'.storedValue index field = db.storedValue index field := by
  have hindex := hsame index
  rw [HashtableDB.storedValue, HashtableDB.storedValue]
  generalize db.recordTable index = record at hindex
  generalize db'.recordTable index = record' at hindex
  cases hindex with
  | none => rfl
  | some hfields => exact hfields field

/-- An operation that leaves the record of its index as it was leaves all records. -/
theorem Sets.sameRecords {db db' : HashtableDB} {index : Str} {record : Option FieldHashtable}
    (hsets : Sets db index record db') (hrecord : Option.Rel SameFields (db.recordTable index) record) :
    SameRecords db db' := by
  intro index'
  by_cases hindex : cStr index' = cStr index
  · rw [recordTable_congr hindex, recordTable_congr hindex, hsets.self]
    exact hrecord
  · rw [hsets.other fun hwrap => hindex (HashString.wrap_eq_wrap_iff.mp hwrap)]
    exact rel_sameFields_refl _

/-- A conflict that leaves the field table as it was is one of the first name. -/
theorem firstThere_of_sameFields {fieldTable : FieldHashtable} {values : List KVPair}
    (hstatus : (insertFields fieldTable values).1 = kErrorConflict)
    (hsame : SameFields fieldTable (insertFields fieldTable values).2) :
    FirstThere (some fieldTable) values := by
  cases values with
  | nil =>
      have hok : kOK ≠ kErrorConflict := by decide
      exact absurd hstatus hok
  | cons pair values =>
      refine ⟨fieldTable, rfl, pair, rfl, ?_⟩
      cases hget : fieldTable.get pair.1 with
      | some old => rfl
      | none =>
          have hset := hsame pair.1
          rw [insertFields_cons_of_none hget,
            get_insertFields_of_some (StlHashtable.get_insert_self hget), hget] at hset
          cases hset

/-- An index without a record is one with an empty record here. -/
theorem namesNew_getD {record : Option FieldHashtable} {values : List KVPair} :
    NamesNew (some (record.getD .empty)) values ↔ NamesNew record values := by
  cases record with
  | none => simp [NamesNew]
  | some fieldTable => rfl

/-- A conflict of the first name changes nothing. -/
theorem insertFields_of_firstThere {record : Option FieldHashtable} {values : List KVPair}
    (hfirst : FirstThere record values) :
    record = some (insertFields (record.getD .empty) values).2 := by
  obtain ⟨fieldTable, hrecord, pair, hpair, hsome⟩ := hfirst
  obtain ⟨old, hget⟩ := Option.isSome_iff_exists.mp hsome
  obtain ⟨rest, rfl⟩ := List.head?_eq_some_iff.mp hpair
  rw [Option.mem_def.mp hrecord, Option.getD_some, insertFields_cons_of_some hget]

/-- In every reachable state, an `Insert` that conflicts leaves the records as they were
exactly when the record was there and held the first name of the list.  It does not conflict
exactly when all names are new. -/
theorem keepsOnConflict_iff {db : HashtableDB} (hreaches : calls.Reaches empty db)
    (table key : Str) (values : List KVPair) :
    KeepsOnConflict db table key values ↔
      NamesNew (db.recordTable (table ++ key)) values ∨
        FirstThere (db.recordTable (table ++ key)) values := by
  have hdb := wellFormed_of_reaches hreaches
  obtain ⟨db', hinsert, hsets⟩ := insert_spec hdb table key values
  generalize hrecord : db.recordTable (table ++ key) = record at hinsert hsets
  constructor
  · intro hkeeps
    rcases insertFields_status (record.getD .empty) values with hok | hconflict
    · left
      exact namesNew_getD.mp (insertFields_eq_kOK_iff.mp hok)
    · right
      rw [hconflict] at hinsert
      have hsame := hkeeps db' hinsert (table ++ key)
      rw [hsets.self, hrecord] at hsame
      cases record with
      | none => cases hsame
      | some fieldTable =>
          cases hsame with
          | some hfields => exact firstThere_of_sameFields hconflict hfields
  · intro hcondition db'' hconflict
    obtain ⟨hstatus, rfl⟩ := Prod.mk.inj (Option.some.inj (hinsert.symm.trans hconflict))
    cases hcondition with
    | inl hnew =>
        have hok := insertFields_eq_kOK_iff.mpr (namesNew_getD.mpr hnew)
        rw [hstatus] at hok
        cases hok
    | inr hfirst =>
        refine hsets.sameRecords ?_
        rw [hrecord, ← insertFields_of_firstThere hfirst]
        exact rel_sameFields_refl _

/-- An insert of the field `a`. -/
def insertA : Call := .insert "t".toList "k".toList [("a".toList, "1".toList)]

/-- The theorem at the record with the field `a` and an insert of `b` and `a`. -/
theorem keepsOnConflict_iff_insertA :
    ∃ db, calls.run empty [insertA] = some db ∧
      (KeepsOnConflict db "t".toList "k".toList
          [("b".toList, "2".toList), ("a".toList, "3".toList)] ↔
        NamesNew (db.recordTable "tk".toList)
            [("b".toList, "2".toList), ("a".toList, "3".toList)] ∨
          FirstThere (db.recordTable "tk".toList)
            [("b".toList, "2".toList), ("a".toList, "3".toList)]) :=
  ⟨_, rfl, keepsOnConflict_iff ⟨[insertA], rfl⟩ "t".toList "k".toList _⟩

/-- The insert of `b` and `a` returns a conflict, and the record has got the field `b`. -/
theorem not_keepsOnConflict_insertA :
    ∃ db db', calls.run empty [insertA] = some db ∧
      db.insert "t".toList "k".toList [("b".toList, "2".toList), ("a".toList, "3".toList)] =
        some (kErrorConflict, db') ∧
      db.read .latestFirst "t".toList "k".toList none [] =
        some (kOK, [("a".toList, "1".toList)]) ∧
      db'.read .latestFirst "t".toList "k".toList none [] =
        some (kOK, [("b".toList, "2".toList), ("a".toList, "1".toList)]) ∧
      ¬ SameRecords db db' := by
  refine ⟨_, _, rfl, rfl, rfl, rfl, fun hsame => ?_⟩
  have hvalue := hsame.storedValue "tk".toList "b".toList
  revert hvalue
  decide +kernel

end HashtableDB

end YcsbC
