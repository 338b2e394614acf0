import YcsbC.Core.Properties

/-!
# The factory of databases

`CreateDB` looks the name up with `operator[]`, which throws when there is none, and for
RocksDB and LevelDB the path as well.
-/

namespace YcsbC

open Utils

/-- What `CreateDB` constructs. -/
inductive CreatedDB where
  /-- `BasicDB`. -/
  | basic
  /-- `RocksDB`. -/
  | rocksdb (dbPath dbConfig : Str)
  /-- `LevelDB`. -/
  | leveldb (dbPath dbConfig : Str)
deriving DecidableEq, Repr

/-- The name it is constructed for. -/
def CreatedDB.name : CreatedDB → Str
  | basic => "basic".toList
  | rocksdb _ _ => "rocksdb".toList
  | leveldb _ _ => "leveldb".toList

/-- `CreateDB`, which constructs nothing for another name. -/
def createDB (props : Utils.Properties) : Except Thrown (Option CreatedDB) := do
  if (← props.get "dbname".toList) = "basic".toList then
    return some .basic
  else if (← props.get "dbname".toList) = "rocksdb".toList then
    return some (.rocksdb (← props.get "dbPath".toList) (props.getProperty "dbConfig".toList []))
  else if (← props.get "dbname".toList) = "leveldb".toList then
    return some (.leveldb (← props.get "dbPath".toList) (props.getProperty "dbConfig".toList []))
  else
    return none

variable {props : Utils.Properties}

theorem get_of_some {key value : Str} (hfind : props.find key = some value) :
    props.get key = .ok value := by
  rw [Properties.get, hfind]

theorem get_of_none {key : Str} (hfind : props.find key = none) :
    props.get key = .error .outOfRange := by
  rw [Properties.get, hfind]

/-- The names of the databases that are kept under a path. -/
def KeptUnderPath (dbname : Str) : Prop := dbname = "rocksdb".toList ∨ dbname = "leveldb".toList

instance (dbname : Str) : Decidable (KeptUnderPath dbname) := inferInstanceAs (Decidable (_ ∨ _))

theorem createDB_unnamed (hname : props.find "dbname".toList = none) :
    createDB props = .error .outOfRange := by
  rw [createDB, get_of_none hname]
  rfl

theorem createDB_pathless {dbname : Str} (hname : props.find "dbname".toList = some dbname)
    (hkept : KeptUnderPath dbname) (hpath : props.find "dbPath".toList = none) :
    createDB props = .error .outOfRange := by
  rw [createDB, get_of_some hname, get_of_none hpath]
  rcases hkept with rfl | rfl <;> rfl

theorem createDB_other {dbname : Str} (hname : props.find "dbname".toList = some dbname)
    (hkept : ¬ KeptUnderPath dbname) :
    createDB props = .ok (if dbname = "basic".toList then some .basic else none) := by
  obtain ⟨hrocksdb, hleveldb⟩ := not_or.mp hkept
  rw [createDB, get_of_some hname]
  by_cases hbasic : dbname = "basic".toList
  · rw [if_pos hbasic]
    exact if_pos hbasic
  · rw [if_neg hbasic]
    exact (if_neg hbasic).trans ((if_neg hrocksdb).trans (if_neg hleveldb))

theorem createDB_kept {dbname dbPath : Str} (hname : props.find "dbname".toList = some dbname)
    (hkept : KeptUnderPath dbname) (hpath : props.find "dbPath".toList = some dbPath) :
    ∃ db, createDB props = .ok (some db) := by
  rw [createDB, get_of_some hname, get_of_some hpath]
  rcases hkept with rfl | rfl
  · exact ⟨_, rfl⟩
  · exact ⟨_, rfl⟩

/-- `CreateDB` throws exactly when the name is missing, or a path that the name asks
for. -/
theorem exists_createDB_iff : (∃ db, createDB props = .ok db) ↔
    ∃ dbname, props.find "dbname".toList = some dbname ∧
      (KeptUnderPath dbname → (props.find "dbPath".toList).isSome) := by
  cases hname : props.find "dbname".toList with
  | none => simp [createDB_unnamed hname]
  | some dbname =>
      by_cases hkept : KeptUnderPath dbname
      · cases hpath : props.find "dbPath".toList with
        | none => simp [createDB_pathless hname hkept hpath, hkept]
        | some dbPath =>
            obtain ⟨db, hdb⟩ := createDB_kept hname hkept hpath
            simp [hdb]
      · rw [createDB_other hname hkept]
        exact ⟨fun _ => ⟨dbname, rfl, fun h => absurd h hkept⟩, fun _ => ⟨_, rfl⟩⟩

/-- What is constructed is what the name says. -/
theorem dbname_of_createDB {db : CreatedDB} (hdb : createDB props = .ok (some db)) :
    props.find "dbname".toList = some db.name := by
  obtain ⟨dbname, hname, hpath⟩ := exists_createDB_iff.mp ⟨_, hdb⟩
  rw [hname]
  by_cases hkept : KeptUnderPath dbname
  · obtain ⟨dbPath, hpath⟩ := Option.isSome_iff_exists.mp (hpath hkept)
    rw [createDB, get_of_some hname, get_of_some hpath] at hdb
    rcases hkept with rfl | rfl
    · cases hdb
      rfl
    · cases hdb
      rfl
  · rw [createDB_other hname hkept] at hdb
    split at hdb
    next hbasic =>
      cases hdb
      rw [hbasic]
      rfl
    next => cases hdb

/-- A name for which nothing is constructed can be looked up. -/
theorem named_of_createDB {db : Option CreatedDB} (hdb : createDB props = .ok db) :
    ∃ dbname, props.get "dbname".toList = .ok dbname := by
  obtain ⟨dbname, hname, -⟩ := exists_createDB_iff.mp ⟨db, hdb⟩
  exact ⟨dbname, get_of_some hname⟩

end YcsbC
