import YcsbC.Db.DBFactory
import YcsbC.Main.ParseCommandLine

/-!
# Errors at the start

`main` reads the command line and has the database constructed.  A property file that
cannot be read makes `Load` throw an exception that the one `catch` clause of
`ParseCommandLine` does not name, and a database name or path that is missing makes
`CreateDB` throw.  All errors are reported exactly when neither comes up
(`errorsReported_iff`).
-/

namespace YcsbC

open Utils

variable (fs : Str → Option Str) (command : Str) (args : List Str)

/-- `main` until it has a database: the name of the property file, the properties, and
the database. -/
def startMain (argv : List Str) : Outcome (Str × Utils.Properties × CreatedDB) := do
  let (fileName, props) ← parseCommandLine fs argv .empty
  match createDB props with
  | .error thrown => .threw thrown
  | .ok (some db) => .returned (fileName, props, db)
  | .ok none =>
      match props.get "dbname".toList with
      | .error thrown => .threw thrown
      | .ok dbname => .exited (printLines ["Unknown database name ".toList ++ dbname])

/-- No exception leaves `main`: `ParseCommandLine` returns or reports, and `CreateDB`
constructs a database of the properties returned, or constructs none and `main`
reports. -/
def ErrorsReported : Prop :=
  ((∃ result, parseCommandLine fs (command :: args) .empty = .returned result) ∨
    (parseCommandLine fs (command :: args) .empty).Reports) ∧
  ∀ fileName props, parseCommandLine fs (command :: args) .empty = .returned (fileName, props) →
    (∃ db, createDB props = .ok (some db)) ∨
      createDB props = .ok none ∧ (startMain fs (command :: args)).Reports

/-- The arguments name what is looked up: each property file that is reached can be read,
and when all arguments have been read and a pattern is set, so is the name of the
database, and the path of one that is kept under a path. -/
structure NamesDB : Prop where
  /-- Property files can be read. -/
  readable : ∀ (items : List Item) (path : Str) (rest : List Str),
    (∀ item ∈ items, item.Readable fs) →
    args = items.flatMap Item.words ++ "-P".toList :: path :: rest → (fs path).isSome
  /-- The name and the path are set. -/
  named : ∀ items : List Item, (∀ item ∈ items, item.Readable fs) →
    args = items.flatMap Item.words →
    (WriteLog.last (items.flatMap (Item.assignments fs)) "pattern".toList).getD [] ≠ [] →
    ∃ dbname, WriteLog.last (items.flatMap (Item.assignments fs)) "dbname".toList = some dbname ∧
      (KeptUnderPath dbname →
        (WriteLog.last (items.flatMap (Item.assignments fs)) "dbPath".toList).isSome)

variable {fs} {command} {args}

theorem find_overlay_empty (log : WriteLog Str Str) (key : Str) :
    (Properties.empty.overlay log).find key = log.last key := by
  rw [Properties.find_overlay, Properties.find_empty, Option.or_none]

/-- Without properties to begin with, a pattern comes from some item. -/
theorem accepted_iff {items : List Item} : Accepted fs args .empty items ↔
    (∀ item ∈ items, item.Readable fs) ∧ args = items.flatMap Item.words ∧
      (WriteLog.last (items.flatMap (Item.assignments fs)) "pattern".toList).getD [] ≠ [] := by
  have hpattern : (Properties.empty.overlay (items.flatMap (Item.assignments fs))).getProperty
      "pattern".toList [] =
      (WriteLog.last (items.flatMap (Item.assignments fs)) "pattern".toList).getD [] := by
    rw [Properties.getProperty, find_overlay_empty]
  constructor
  · rintro ⟨-, hargs, hreadable, hne⟩
    exact ⟨hreadable, hargs, hpattern ▸ hne⟩
  · rintro ⟨hreadable, hargs, hne⟩
    refine ⟨?_, hargs, hreadable, hpattern ▸ hne⟩
    rintro rfl
    exact hne rfl

/-- `ParseCommandLine` throws at a property file that cannot be read. -/
theorem parseCommandLine_unreadable {items : List Item}
    (hreadable : ∀ item ∈ items, item.Readable fs) {path : Str} {rest : List Str}
    (hargs : args = items.flatMap Item.words ++ "-P".toList :: path :: rest)
    (hfile : fs path = none) (props : Utils.Properties) :
    parseCommandLine fs (command :: args) props = .threw (.exception "File not open!".toList) := by
  have hdrop : (command :: args).drop 1 =
      items.flatMap Item.words ++ "-P".toList :: path :: rest := hargs
  have hrest : (command :: args).drop (ParseState.takeAll fs ⟨1, [], props⟩ items).argindex =
      "-P".toList :: path :: rest := drop_takeAll hdrop
  have hindex : (ParseState.takeAll fs ⟨1, [], props⟩ items).argindex < (command :: args).length := by
    have hlength := congrArg List.length hrest
    simp at hlength
    simp
    omega
  rw [parseCommandLine, parseLoop_items (s := ⟨1, [], props⟩) hreadable hdrop,
    parseLoop_of_lt hindex, parseTurn_unreadable hfile hrest]
  rfl

/-- With a database name, `main` goes on or reports. -/
theorem startMain_reports {argv : List Str} {fileName : Str} {props : Utils.Properties}
    (hparse : parseCommandLine fs argv .empty = .returned (fileName, props))
    (hnone : createDB props = .ok none) : (startMain fs argv).Reports := by
  obtain ⟨dbname, hname⟩ := named_of_createDB hnone
  refine ⟨printLines ["Unknown database name ".toList ++ dbname], printLines_cons_ne_nil _ _, ?_⟩
  rw [startMain, hparse, Outcome.returned_bind]
  simp only [hnone, hname]

/-- `CreateDB` does not throw exactly when what it looks up has been assigned. -/
theorem exists_createDB_overlay_iff {log : WriteLog Str Str} :
    (∃ db, createDB (Properties.empty.overlay log) = .ok db) ↔
      ∃ dbname, log.last "dbname".toList = some dbname ∧
        (KeptUnderPath dbname → (log.last "dbPath".toList).isSome) := by
  rw [exists_createDB_iff, find_overlay_empty, find_overlay_empty]

theorem ErrorsReported.namesDB (hreported : ErrorsReported fs command args) :
    NamesDB fs args := by
  obtain ⟨hparse, hcreate⟩ := hreported
  constructor
  · intro items path rest hreadable hargs
    cases hfile : fs path with
    | some text => rfl
    | none =>
        rw [parseCommandLine_unreadable hreadable hargs hfile] at hparse
        rcases hparse with ⟨result, hreturned⟩ | ⟨printed, -, hexit⟩
        · cases hreturned
        · cases hexit
  · intro items hreadable hargs hpattern
    have haccepted := accepted_iff.mpr ⟨hreadable, hargs, hpattern⟩
    apply exists_createDB_overlay_iff.mp
    rcases hcreate _ _ (haccepted.parseCommandLine command) with ⟨db, hdb⟩ | ⟨hnone, -⟩
    · exact ⟨_, hdb⟩
    · exact ⟨_, hnone⟩

theorem NamesDB.errorsReported (hnames : NamesDB fs args) : ErrorsReported fs command args := by
  rcases parseCommandLine_cases fs command args .empty with
    ⟨items, haccepted⟩ | hreports | ⟨items, path, rest, hitems, hfile, hargs, hthrow⟩
  · have hparse := haccepted.parseCommandLine command
    obtain ⟨hitems, hargs, hpattern⟩ := accepted_iff.mp haccepted
    obtain ⟨db, hdb⟩ :=
      exists_createDB_overlay_iff.mpr (hnames.named items hitems hargs hpattern)
    refine ⟨.inl ⟨_, hparse⟩, ?_⟩
    intro fileName props hreturned
    rw [hparse] at hreturned
    cases hreturned
    cases db with
    | some db => exact .inl ⟨db, hdb⟩
    | none => exact .inr ⟨hdb, startMain_reports hparse hdb⟩
  · refine ⟨.inr hreports, ?_⟩
    obtain ⟨printed, -, hexit⟩ := hreports
    intro fileName props hreturned
    rw [hexit] at hreturned
    cases hreturned
  · have hsome := hnames.readable items path rest hitems hargs
    rw [hfile] at hsome
    cases hsome

/-- All errors at the start are reported exactly when the property files that are
reached can be read and the arguments accepted name what is looked up. -/
theorem errorsReported_iff (fs : Str → Option Str) (command : Str) (args : List Str) :
    ErrorsReported fs command args ↔ NamesDB fs args :=
  ⟨ErrorsReported.namesDB, NamesDB.errorsReported⟩

/-- `ycsbc load` throws, whatever files there are. -/
theorem not_errorsReported_load :
    ¬ ErrorsReported (fun _ => none) "ycsbc".toList ["load".toList] := by
  intro hreported
  obtain ⟨dbname, hname, -⟩ :=
    hreported.namesDB.named [.pattern .load] (by simp [Item.Readable]) rfl (by decide)
  cases hname

end YcsbC
