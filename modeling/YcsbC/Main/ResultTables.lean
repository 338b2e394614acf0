import YcsbC.Foundation.GroupedRows
import YcsbC.Foundation.SeparatedWords
import YcsbC.Main.ParseResult
import Mathlib.Data.Char
import Mathlib.Data.List.Dedup
import Mathlib.Data.List.Lex
import Mathlib.Data.List.ReduceOption

/-!
# The tables of results

After its loop `parse_result.py` writes a table for each workload: a column for each
database of the file, a row for each number of threads, and in each cell the median of
the throughputs.  It fails at the first cell without a throughput, so it writes all tables
exactly when every workload was run on every database with every number of threads
(`tables_iff`).  The tables do not depend on the order of the lines, up to the directory,
which is that of the last line (`tables_perm`).

What `numpy` gives for a median and `str` for its text are parameters.
-/

namespace YcsbC

namespace ParseResult

/-! ## The loop by its lines of values -/

/-- A line of values. -/
structure Row where
  /-- `workload`. -/
  workload : Str
  /-- `db_name`. -/
  dbName : Str
  /-- `num_threads`. -/
  numThreads : ℤ
  /-- `throughput`. -/
  throughput : ExtRat
  /-- `dir_name`. -/
  dirName : Str
deriving DecidableEq

/-- The values of a line, if it does not start with `#`. -/
def parseRow (line : List Str) : Except PyError (Option Row) := do
  let c ← index (← index line 0) 0
  if c = '#' then return none
  let dbName ← index line 0
  let (dirName, workload) := pathSplit (← index line 1)
  let workload := (splitext workload).1
  let numThreads ← int (← index line 2)
  let throughput ← float (← index line 3)
  return some ⟨workload, dbName, numThreads, throughput, dirName⟩

/-- All lines of values. -/
def dataRows (text : Str) : Except PyError (List Row) :=
  (((fileLines text).map lineFields).mapM parseRow).map List.reduceOption

/-- What a line of values does to the variables. -/
def LoopState.addRow (s : LoopState) (row : Row) : LoopState where
  results := addThroughput s.results row.workload row.dbName row.numThreads row.throughput
  dbIndex := s.dbIndex.insert row.dbName
  tnIndex := s.tnIndex.insert row.numThreads
  dirName := some row.dirName

theorem loopTurn_eq (s : LoopState) (line : List Str) :
    loopTurn s line = (parseRow line).map fun row => row.elim s s.addRow := by
  change loopTurn s line = (fun row => row.elim s s.addRow) <$> parseRow line
  rw [loopTurn, parseRow, map_bind]
  refine bind_congr fun dbName => ?_
  rw [map_bind]
  refine bind_congr fun c => ?_
  by_cases hcomment : c = '#'
  · rw [if_pos hcomment, if_pos hcomment]
    rfl
  · rw [if_neg hcomment, if_neg hcomment]
    simp only [map_bind]
    rfl

theorem foldlM_loopTurn (s : LoopState) (lines : List (List Str)) :
    lines.foldlM loopTurn s =
      (lines.mapM parseRow).map fun rows => rows.reduceOption.foldl LoopState.addRow s := by
  induction lines generalizing s with
  | nil => rfl
  | cons line lines ih =>
      rw [List.foldlM_cons, List.mapM_cons, loopTurn_eq]
      cases parseRow line with
      | error e => rfl
      | ok row =>
          change lines.foldlM loopTurn (row.elim s s.addRow) = _
          rw [ih]
          cases lines.mapM parseRow with
          | error e => rfl
          | ok rows => cases row with
            | none | some row => rfl

/-- The variables after the loop are those after the lines of values. -/
theorem parseFile_eq (text : Str) :
    parseFile text = (dataRows text).map fun rows => rows.foldl LoopState.addRow {} := by
  rw [parseFile, foldlM_loopTurn, dataRows]
  cases ((fileLines text).map lineFields).mapM parseRow with
  | error e | ok rows => rfl

/-! ## The variables after the loop -/

/-- The throughputs of one workload, database and number of threads. -/
abbrev throughputs (rows : List Row) (workload dbName : Str) (numThreads : ℤ) : List ExtRat :=
  GroupedRows.group Row.workload Row.dbName Row.numThreads Row.throughput rows workload dbName
    numThreads

/-- The variables after the loop, by its lines of values. -/
structure Reads (s : LoopState) (rows : List Row) : Prop where
  results : s.results =
    GroupedRows.ofRows Row.workload Row.dbName Row.numThreads Row.throughput rows
  nodup_dbIndex : s.dbIndex.Nodup
  mem_dbIndex : ∀ dbName, dbName ∈ s.dbIndex ↔ dbName ∈ rows.map Row.dbName
  nodup_tnIndex : s.tnIndex.Nodup
  mem_tnIndex : ∀ numThreads, numThreads ∈ s.tnIndex ↔ numThreads ∈ rows.map Row.numThreads
  dirName : s.dirName = rows.getLast?.map Row.dirName

theorem reads_nil : Reads {} [] where
  results := rfl
  nodup_dbIndex := List.nodup_nil
  mem_dbIndex := by simp
  nodup_tnIndex := List.nodup_nil
  mem_tnIndex := by simp
  dirName := rfl

theorem Reads.addRow {s : LoopState} {rows : List Row} (hs : Reads s rows) (row : Row) :
    Reads (s.addRow row) (rows ++ [row]) where
  results := by
    rw [GroupedRows.ofRows_concat, ← hs.results]
    rfl
  nodup_dbIndex := hs.nodup_dbIndex.insert
  mem_dbIndex := by
    intro dbName
    rw [LoopState.addRow, List.mem_insert_iff, hs.mem_dbIndex]
    simp [or_comm]
  nodup_tnIndex := hs.nodup_tnIndex.insert
  mem_tnIndex := by
    intro numThreads
    rw [LoopState.addRow, List.mem_insert_iff, hs.mem_tnIndex]
    simp [or_comm]
  dirName := by simp [LoopState.addRow]

theorem reads_foldl (rows : List Row) : Reads (rows.foldl LoopState.addRow {}) rows := by
  induction rows using List.reverseRecOn with
  | nil => exact reads_nil
  | append_singleton rows row ih =>
      rw [List.foldl_append]
      exact ih.addRow row

/-! ## The tables -/

/-- What is raised after the loop. -/
inductive TableError where
  /-- `KeyError` in `results[wl][db]`. -/
  | keyErrorDb (dbName : Str)
  /-- `KeyError` in `results[wl][db][tn]`. -/
  | keyErrorThreads (numThreads : ℤ)
  /-- `dir_name` is not set. -/
  | unboundLocalError
deriving DecidableEq, Repr

/-- `os.path.join`. -/
def pathJoin (dirName name : Str) : Str :=
  if name.head? = some '/' then name
  else if dirName = [] ∨ dirName.getLast? = some '/' then dirName ++ name
  else dirName ++ '/' :: name

/-- `sorted`. -/
def sorted {α : Type} [LinearOrder α] (keys : List α) : List α := keys.mergeSort (· ≤ ·)

section Tables

variable (median : List ExtRat → ExtRat) (str : ExtRat → Str)

namespace LoopState

variable (s : LoopState)

/-- `db_index`, when it is sorted. -/
def sortedDbs : List Str := sorted s.dbIndex

/-- `tn_index`, when it is sorted. -/
def sortedThreads : List ℤ := sorted s.tnIndex

/-- `sorted(results.keys())`. -/
def sortedWorkloads : List Str := sorted s.results.keys

/-- The text of a cell. -/
def cell (workload dbName : Str) (numThreads : ℤ) : Except TableError Str :=
  match ((s.results.lookup workload).getD ∅).lookup dbName with
  | none => .error (.keyErrorDb dbName)
  | some byThreads =>
      match byThreads.lookup numThreads with
      | none => .error (.keyErrorThreads numThreads)
      | some data => .ok (str (median data))

/-- The header of a table. -/
def headerLine : Str := s.sortedDbs.foldl (fun line dbName => line ++ '\t' :: dbName) ['#']

/-- The line of a number of threads. -/
def tableLine (workload : Str) (numThreads : ℤ) : Except TableError Str :=
  s.sortedDbs.foldlM (fun line dbName => do
    return line ++ '\t' :: (← s.cell median str workload dbName numThreads))
    (streamInt numThreads)

/-- The lines that are written, up to one that fails. -/
def tableLines (workload : Str) : List ℤ → Str × Option TableError
  | [] => ([], none)
  | numThreads :: rest =>
      match s.tableLine median str workload numThreads with
      | .error e => ([], some e)
      | .ok line =>
          let (text, e) := tableLines workload rest
          (line ++ '\n' :: text, e)

/-- What is written to the file of a workload. -/
def table (workload : Str) : Str × Option TableError :=
  let (text, e) := s.tableLines median str workload s.sortedThreads
  (s.headerLine ++ '\n' :: text, e)

/-- The files of the workloads and their texts, up to a table that fails. -/
def writeTables : List Str → List (Str × Str) × Option TableError
  | [] => ([], none)
  | workload :: rest =>
      match s.dirName with
      | none => ([], some .unboundLocalError)
      | some dirName =>
          let path := pathJoin dirName (workload ++ ".result".toList)
          match s.table median str workload with
          | (text, some e) => ([(path, text)], some e)
          | (text, none) =>
              let (files, e) := writeTables rest
              ((path, text) :: files, e)

end LoopState

/-- `main` on the text of a file: the files it has written, and what it has raised. -/
def main (text : Str) : Except PyError (List (Str × Str) × Option TableError) :=
  (parseFile text).map fun s => s.writeTables median str s.sortedWorkloads

/-! ## What the tables hold -/

/-- The distinct keys in ascending order. -/
def sortedKeys {α : Type} [LinearOrder α] (keys : List α) : List α := sorted keys.dedup

section SortedKeys

variable {α : Type} [LinearOrder α]

theorem sorted_eq_sortedKeys {l keys : List α} (hnodup : l.Nodup)
    (hmem : ∀ a, a ∈ l ↔ a ∈ keys) : sorted l = sortedKeys keys :=
  mergeSort_eq_of_mem_iff hnodup (List.nodup_dedup _) fun a => by rw [hmem, List.mem_dedup]

theorem sortedKeys_perm {keys keys' : List α} (hperm : keys.Perm keys') :
    sortedKeys keys = sortedKeys keys' :=
  mergeSort_eq_of_mem_iff (List.nodup_dedup _) (List.nodup_dedup _) fun a => by
    rw [List.mem_dedup, List.mem_dedup, hperm.mem_iff]

@[simp] theorem mem_sortedKeys {keys : List α} {a : α} : a ∈ sortedKeys keys ↔ a ∈ keys := by
  rw [sortedKeys, sorted, List.mem_mergeSort, List.mem_dedup]

theorem nodup_sortedKeys (keys : List α) : (sortedKeys keys).Nodup :=
  (List.mergeSort_perm _ _).nodup_iff.mpr (List.nodup_dedup _)

end SortedKeys

/-- Every workload was run on every database with every number of threads. -/
def Complete (rows : List Row) : Prop :=
  ∀ workload ∈ rows.map Row.workload, ∀ dbName ∈ rows.map Row.dbName,
    ∀ numThreads ∈ rows.map Row.numThreads, throughputs rows workload dbName numThreads ≠ []

/-- The cells of the table of a workload. -/
def tableCells (rows : List Row) (workload : Str) : List (List Str) :=
  (['#'] :: sortedKeys (rows.map Row.dbName)) ::
    (sortedKeys (rows.map Row.numThreads)).map fun numThreads =>
      streamInt numThreads :: (sortedKeys (rows.map Row.dbName)).map fun dbName =>
        str (median (throughputs rows workload dbName numThreads))

/-- A table by its cells. -/
def readTable (text : Str) : List (List Str) :=
  (text.splitOn '\n').dropLast.map (·.splitOn '\t')

section Reads

variable {s : LoopState} {rows : List Row} (hs : Reads s rows)

include hs

theorem Reads.sortedDbs : s.sortedDbs = sortedKeys (rows.map Row.dbName) :=
  sorted_eq_sortedKeys hs.nodup_dbIndex hs.mem_dbIndex

theorem Reads.sortedThreads : s.sortedThreads = sortedKeys (rows.map Row.numThreads) :=
  sorted_eq_sortedKeys hs.nodup_tnIndex hs.mem_tnIndex

theorem Reads.sortedWorkloads : s.sortedWorkloads = sortedKeys (rows.map Row.workload) := by
  refine sorted_eq_sortedKeys s.results.keys_nodup fun workload => ?_
  rw [← AList.mem_keys, hs.results, GroupedRows.mem_ofRows, List.mem_map]
  simp [eq_comm]

theorem Reads.cell (workload dbName : Str) (numThreads : ℤ) :
    s.cell median str workload dbName numThreads =
      if ∃ row ∈ rows, workload = row.workload ∧ dbName = row.dbName then
        if throughputs rows workload dbName numThreads = [] then .error (.keyErrorThreads numThreads)
        else .ok (str (median (throughputs rows workload dbName numThreads)))
      else .error (.keyErrorDb dbName) := by
  have hsecond := GroupedRows.isSome_lookup₂_ofRows Row.workload Row.dbName Row.numThreads
    Row.throughput rows workload dbName
  have hthird := GroupedRows.lookup₃_ofRows Row.workload Row.dbName Row.numThreads Row.throughput
    rows workload dbName numThreads
  rw [← hs.results] at hsecond hthird
  have hlookup : ((s.results.lookup workload).getD ∅).lookup dbName =
      GroupedRows.lookup₂ s.results workload dbName := by
    rw [GroupedRows.lookup₂]
    cases s.results.lookup workload with
    | none | some byDb => rfl
  rw [LoopState.cell, hlookup]
  rw [GroupedRows.lookup₃] at hthird
  cases hbyThreads : GroupedRows.lookup₂ s.results workload dbName with
  | none =>
      rw [hbyThreads] at hsecond
      rw [if_neg fun hrow => absurd (hsecond.mpr hrow) (by simp)]
  | some byThreads =>
      rw [hbyThreads, Option.bind_some] at hthird
      rw [hbyThreads] at hsecond
      rw [if_pos (hsecond.mp rfl)]
      dsimp only
      rw [hthird]
      by_cases hnil : throughputs rows workload dbName numThreads = []
      · rw [if_pos hnil, if_pos hnil]
      · rw [if_neg hnil, if_neg hnil]

end Reads

/-! ## The order of the lines -/

/-- The tables are made of the sorted keys and the cells. -/
theorem LoopState.writeTables_congr {s s' : LoopState} (hdirName : s.dirName = s'.dirName)
    (hdbs : s.sortedDbs = s'.sortedDbs) (hthreads : s.sortedThreads = s'.sortedThreads)
    (hcell : s.cell median str = s'.cell median str) (workloads : List Str) :
    s.writeTables median str workloads = s'.writeTables median str workloads := by
  have hline : s.tableLine median str = s'.tableLine median str := by
    funext workload numThreads
    rw [tableLine, tableLine, hdbs, hcell]
  have hlines : ∀ workload tns,
      s.tableLines median str workload tns = s'.tableLines median str workload tns := by
    intro workload tns
    induction tns with
    | nil => rfl
    | cons tn tns ih => rw [tableLines, tableLines, hline, ih]
  have htable : s.table median str = s'.table median str := by
    funext workload
    rw [table, table, hthreads, hlines, headerLine, headerLine, hdbs]
  induction workloads with
  | nil => rfl
  | cons workload workloads ih => rw [writeTables, writeTables, hdirName, htable, ih]

variable {median} in
/-- Lines in another order give the same tables and the same error, if the last of them is
in the same directory. -/
theorem tables_perm (hmedian : ∀ l l' : List ExtRat, l.Perm l' → median l = median l')
    {text text' : Str} {rows rows' : List Row} (hrows : dataRows text = .ok rows)
    (hrows' : dataRows text' = .ok rows') (hperm : rows.Perm rows')
    (hdirName : rows.getLast?.map Row.dirName = rows'.getLast?.map Row.dirName) :
    main median str text = main median str text' := by
  have hs := reads_foldl rows
  have hs' := reads_foldl rows'
  have hcell : (rows.foldl LoopState.addRow {}).cell median str =
      (rows'.foldl LoopState.addRow {}).cell median str := by
    funext workload dbName numThreads
    have hgroup : (throughputs rows workload dbName numThreads).Perm
        (throughputs rows' workload dbName numThreads) := GroupedRows.group_perm _ _ _ _ hperm _ _ _
    have hnil : throughputs rows workload dbName numThreads = [] ↔
        throughputs rows' workload dbName numThreads = [] := by
      rw [← List.length_eq_zero_iff, hgroup.length_eq, List.length_eq_zero_iff]
    rw [hs.cell, hs'.cell, hmedian _ _ hgroup]
    simp only [hperm.mem_iff, hnil]
  rw [main, main, parseFile_eq, parseFile_eq, hrows, hrows']
  refine congrArg Except.ok ?_
  dsimp only
  rw [hs.sortedWorkloads, hs'.sortedWorkloads, sortedKeys_perm (hperm.map Row.workload)]
  refine LoopState.writeTables_congr median str (by rw [hs.dirName, hs'.dirName, hdirName]) ?_ ?_
    hcell _
  · rw [hs.sortedDbs, hs'.sortedDbs, sortedKeys_perm (hperm.map Row.dbName)]
  · rw [hs.sortedThreads, hs'.sortedThreads, sortedKeys_perm (hperm.map Row.numThreads)]

end Tables

/-- The middle of one or two throughputs. -/
def middle (data : List ExtRat) : ExtRat :=
  .finite ((data.map fun | .finite x => x | _ => 0).sum / data.length)

/-- Two runs of a workload. -/
def twoRuns : List Row :=
  [⟨"workloada".toList, "leveldb".toList, 2, .finite 4, "workloads".toList⟩,
    ⟨"workloada".toList, "leveldb".toList, 2, .finite 5, "workloads".toList⟩]

/-- Their lines in a file. -/
def twoRunsText : Str :=
  ("leveldb\tworkloads/workloada.spec\t2\t4\n" ++
    "leveldb\tworkloads/workloada.spec\t2\t5\n").toList

theorem dataRows_twoRunsText : dataRows twoRunsText = .ok twoRuns := by decide +kernel

/-- The theorem at two lines and the same in the other order. -/
theorem tables_perm_twoRuns :
    main middle (PrintedNumber.fixed 1) twoRunsText =
      main middle (PrintedNumber.fixed 1)
        ("leveldb\tworkloads/workloada.spec\t2\t5\n" ++
          "leveldb\tworkloads/workloada.spec\t2\t4\n").toList := by
  have hreverse : dataRows ("leveldb\tworkloads/workloada.spec\t2\t5\n" ++
      "leveldb\tworkloads/workloada.spec\t2\t4\n").toList = .ok twoRuns.reverse := by
    decide +kernel
  refine tables_perm (PrintedNumber.fixed 1) (fun l l' hperm => ?_) dataRows_twoRunsText hreverse
    (by decide) (by decide)
  rw [middle, middle, (hperm.map _).sum_eq, hperm.length_eq]

section Tables

variable (median : List ExtRat → ExtRat) (str : ExtRat → Str)

/-! ## Failures -/

/-- What is missing in the lines when a table fails. -/
def Gap (rows : List Row) : TableError → Prop
  | .keyErrorDb dbName => dbName ∈ rows.map Row.dbName ∧
      ∃ row ∈ rows, ∀ row' ∈ rows, ¬ (row.workload = row'.workload ∧ dbName = row'.dbName)
  | .keyErrorThreads numThreads => numThreads ∈ rows.map Row.numThreads ∧
      ∃ row ∈ rows, throughputs rows row.workload row.dbName numThreads = []
  | .unboundLocalError => False

theorem Gap.not_complete {rows : List Row} {e : TableError} (hgap : Gap rows e) :
    ¬ Complete rows := by
  intro hcomplete
  have hmem : ∀ {α : Type} (f : Row → α), ∀ row ∈ rows, f row ∈ rows.map f :=
    fun f row hrow => List.mem_map_of_mem hrow
  cases e with
  | keyErrorDb dbName =>
      obtain ⟨hdb, row, hrow, hnone⟩ := hgap
      obtain ⟨row', hrow', hwl, hdb', -⟩ := (GroupedRows.group_ne_nil _ _ _ _).mp
        (hcomplete _ (hmem _ row hrow) _ hdb _ (hmem _ row hrow))
      exact hnone row' hrow' ⟨hwl, hdb'⟩
  | keyErrorThreads numThreads =>
      obtain ⟨htn, row, hrow, hnil⟩ := hgap
      exact hcomplete _ (hmem _ row hrow) _ (hmem _ row hrow) _ htn hnil
  | unboundLocalError => exact hgap

/-- A line is that of its cells, or fails at one of them. -/
theorem LoopState.tableLine_cases (s : LoopState) (workload : Str) (numThreads : ℤ) :
    (∃ texts : List Str, s.tableLine median str workload numThreads =
        .ok (joined '\t' (streamInt numThreads) texts) ∧
      List.Forall₂ (fun dbName text => s.cell median str workload dbName numThreads = .ok text)
        s.sortedDbs texts) ∨
    ∃ e, s.tableLine median str workload numThreads = .error e ∧
      ∃ dbName ∈ s.sortedDbs, s.cell median str workload dbName numThreads = .error e := by
  rw [tableLine]
  generalize streamInt numThreads = line
  induction s.sortedDbs generalizing line with
  | nil => exact Or.inl ⟨[], rfl, .nil⟩
  | cons dbName dbNames ih =>
      rw [List.foldlM_cons]
      cases hcell : s.cell median str workload dbName numThreads with
      | error e => exact Or.inr ⟨e, rfl, dbName, List.mem_cons_self, hcell⟩
      | ok text =>
          rcases ih (line ++ '\t' :: text) with ⟨texts, htexts, hcells⟩ | ⟨e, he, db, hdb, hfail⟩
          · exact Or.inl ⟨text :: texts, htexts, .cons hcell hcells⟩
          · exact Or.inr ⟨e, he, db, List.mem_cons_of_mem _ hdb, hfail⟩

/-- The lines of a table are those of its numbers of threads, or fail at one of them. -/
theorem LoopState.tableLines_cases (s : LoopState) (workload : Str) (tns : List ℤ) :
    (∃ lines, s.tableLines median str workload tns = (separated '\n' lines, none) ∧
      List.Forall₂ (fun tn line => s.tableLine median str workload tn = .ok line) tns lines) ∨
    ∃ text e, s.tableLines median str workload tns = (text, some e) ∧
      ∃ tn ∈ tns, s.tableLine median str workload tn = .error e := by
  induction tns with
  | nil => exact Or.inl ⟨[], rfl, .nil⟩
  | cons tn tns ih =>
      rw [tableLines]
      cases hline : s.tableLine median str workload tn with
      | error e => exact Or.inr ⟨[], e, rfl, tn, List.mem_cons_self, hline⟩
      | ok line =>
          rcases ih with ⟨lines, hlines, hall⟩ | ⟨text, e, hlines, tn', htn, hfail⟩
          · refine Or.inl ⟨line :: lines, ?_, .cons hline hall⟩
            rw [hlines, separated_cons]
          · refine Or.inr ⟨line ++ '\n' :: text, e, ?_, tn', List.mem_cons_of_mem _ htn, hfail⟩
            rw [hlines]

/-- The files are those of the workloads, or the table of one of them fails. -/
theorem LoopState.writeTables_cases {s : LoopState} {dirName : Str}
    (hdirName : s.dirName = some dirName) (workloads : List Str) :
    (∃ texts, s.writeTables median str workloads =
        ((workloads.map fun workload => pathJoin dirName (workload ++ ".result".toList)).zip texts,
          none) ∧
      List.Forall₂ (fun workload text => s.table median str workload = (text, none))
        workloads texts) ∨
    ∃ files e, s.writeTables median str workloads = (files, some e) ∧
      ∃ workload ∈ workloads, (s.table median str workload).2 = some e := by
  induction workloads with
  | nil => exact Or.inl ⟨[], rfl, .nil⟩
  | cons workload workloads ih =>
      rw [writeTables, hdirName]
      cases htable : s.table median str workload with
      | mk text error =>
          cases error with
          | some e =>
              exact Or.inr ⟨_, e, rfl, workload, List.mem_cons_self, by rw [htable]⟩
          | none =>
              rcases ih with ⟨texts, hfiles, hall⟩ | ⟨files, e, hfiles, wl, hwl, hfail⟩
              · refine Or.inl ⟨text :: texts, ?_, .cons htable hall⟩
                dsimp only
                rw [hfiles]
                rfl
              · refine Or.inr ⟨(pathJoin dirName (workload ++ ".result".toList), text) :: files, e,
                  ?_, wl, List.mem_cons_of_mem _ hwl, hfail⟩
                dsimp only
                rw [hfiles]

/-- A list related to another by a function and a condition. -/
theorem eq_map_of_forall₂ {α β : Type} {R : α → β → Prop} {P : α → Prop} {f : α → β}
    {l : List α} {l' : List β} (hl : List.Forall₂ R l l') (hR : ∀ a b, R a b → P a ∧ b = f a) :
    (∀ a ∈ l, P a) ∧ l' = l.map f := by
  induction hl with
  | nil => exact ⟨nofun, rfl⟩
  | cons hab _ ih =>
      obtain ⟨ha, rfl⟩ := hR _ _ hab
      obtain ⟨hrest, rfl⟩ := ih
      exact ⟨List.forall_mem_cons.mpr ⟨ha, hrest⟩, rfl⟩

/-- The text of a table. -/
def tableText (cells : List (List Str)) : Str :=
  separated '\n' (cells.map fun line => joined '\t' (line.headD []) line.tail)

section Reads

variable {s : LoopState} {rows : List Row} (hs : Reads s rows) {workload : Str}

include hs

theorem Reads.cell_eq_ok {dbName : Str} {numThreads : ℤ} {text : Str}
    (hcell : s.cell median str workload dbName numThreads = .ok text) :
    throughputs rows workload dbName numThreads ≠ [] ∧
      text = str (median (throughputs rows workload dbName numThreads)) := by
  rw [hs.cell] at hcell
  split at hcell
  · split at hcell
    · cases hcell
    · rename_i hne
      exact ⟨hne, (Except.ok.inj hcell).symm⟩
  · cases hcell

theorem Reads.gap_of_cell {dbName : Str} {numThreads : ℤ} {e : TableError}
    (hworkload : workload ∈ rows.map Row.workload) (hdb : dbName ∈ rows.map Row.dbName)
    (htn : numThreads ∈ rows.map Row.numThreads)
    (hcell : s.cell median str workload dbName numThreads = .error e) : Gap rows e := by
  rw [hs.cell] at hcell
  split at hcell
  · rename_i hrow
    obtain ⟨row, hrow, rfl, rfl⟩ := hrow
    split at hcell
    · rename_i hnil
      cases hcell
      exact ⟨htn, row, hrow, hnil⟩
    · cases hcell
  · rename_i hnone
    cases hcell
    obtain ⟨row, hrow, rfl⟩ := List.mem_map.mp hworkload
    exact ⟨hdb, row, hrow, fun row' hrow' heq => hnone ⟨row', hrow', heq⟩⟩

theorem Reads.tableLine_eq_ok {numThreads : ℤ} {line : Str}
    (hline : s.tableLine median str workload numThreads = .ok line) :
    (∀ dbName ∈ rows.map Row.dbName, throughputs rows workload dbName numThreads ≠ []) ∧
      line = joined '\t' (streamInt numThreads) ((sortedKeys (rows.map Row.dbName)).map fun dbName =>
        str (median (throughputs rows workload dbName numThreads))) := by
  rcases s.tableLine_cases median str workload numThreads with ⟨texts, htexts, hcells⟩ | ⟨e, he, -⟩
  · obtain ⟨hne, rfl⟩ := eq_map_of_forall₂ hcells fun _ _ => hs.cell_eq_ok median str
    rw [hs.sortedDbs] at hne htexts
    refine ⟨fun dbName hdb => hne dbName (mem_sortedKeys.mpr hdb), ?_⟩
    exact Except.ok.inj (hline.symm.trans htexts)
  · cases hline.symm.trans he

theorem Reads.table_eq_ok {text : Str} (htable : s.table median str workload = (text, none)) :
    (∀ numThreads ∈ rows.map Row.numThreads, ∀ dbName ∈ rows.map Row.dbName,
        throughputs rows workload dbName numThreads ≠ []) ∧
      text = tableText (tableCells median str rows workload) := by
  rcases s.tableLines_cases median str workload s.sortedThreads with
    ⟨lines, hlines, hall⟩ | ⟨text', e, hlines, -⟩
  · obtain ⟨hne, rfl⟩ := eq_map_of_forall₂ hall fun _ _ => hs.tableLine_eq_ok median str
    rw [hs.sortedThreads] at hne hlines
    refine ⟨fun tn htn => hne tn (mem_sortedKeys.mpr htn), ?_⟩
    rw [LoopState.table, hs.sortedThreads, hlines] at htable
    rw [← (Prod.mk.inj htable).1, LoopState.headerLine, hs.sortedDbs, tableText, tableCells,
      List.map_cons, separated_cons, List.map_map]
    rfl
  · rw [LoopState.table, hlines] at htable
    cases (Prod.mk.inj htable).2

theorem Reads.gap_of_table {e : TableError} (hworkload : workload ∈ rows.map Row.workload)
    (htable : (s.table median str workload).2 = some e) : Gap rows e := by
  rcases s.tableLines_cases median str workload s.sortedThreads with
    ⟨lines, hlines, -⟩ | ⟨text', e', hlines, tn, htn, hfail⟩
  · rw [LoopState.table, hlines] at htable
    cases htable
  · rw [LoopState.table, hlines] at htable
    cases htable
    rcases s.tableLine_cases median str workload tn with ⟨texts, htexts, -⟩ | ⟨e', he, db, hdb, hcell⟩
    · cases hfail.symm.trans htexts
    · cases hfail.symm.trans he
      rw [hs.sortedThreads, mem_sortedKeys] at htn
      rw [hs.sortedDbs, mem_sortedKeys] at hdb
      exact hs.gap_of_cell median str hworkload hdb htn hcell

end Reads

/-- The files of a complete file of results, or what it lacks. -/
theorem Reads.writeTables_cases {s : LoopState} {rows : List Row} (hs : Reads s rows)
    {dirName : Str} (hdirName : s.dirName = some dirName) :
    (Complete rows ∧ s.writeTables median str s.sortedWorkloads =
      ((sortedKeys (rows.map Row.workload)).map fun workload =>
        (pathJoin dirName (workload ++ ".result".toList),
          tableText (tableCells median str rows workload)), none)) ∨
    ∃ files e, s.writeTables median str s.sortedWorkloads = (files, some e) ∧ Gap rows e := by
  rcases LoopState.writeTables_cases median str hdirName s.sortedWorkloads with
    ⟨texts, hfiles, hall⟩ | ⟨files, e, hfiles, workload, hworkload, hfail⟩
  · obtain ⟨hne, rfl⟩ := eq_map_of_forall₂ hall fun _ _ => hs.table_eq_ok median str
    rw [hs.sortedWorkloads] at hne hfiles
    refine Or.inl ⟨fun workload hwl dbName hdb tn htn =>
      hne workload (mem_sortedKeys.mpr hwl) tn htn dbName hdb, ?_⟩
    rw [hs.sortedWorkloads, hfiles, List.zip_map']
  · rw [hs.sortedWorkloads, mem_sortedKeys] at hworkload
    exact Or.inr ⟨files, e, hfiles, hs.gap_of_table median str hworkload hfail⟩

end Tables

/-! ## Reading a table -/

/-- Cells without tabs and line breaks are read back. -/
theorem readTable_tableText {cells : List (List Str)}
    (hcells : ∀ line ∈ cells, line ≠ [] ∧ ∀ cell ∈ line, '\t' ∉ cell ∧ '\n' ∉ cell) :
    readTable (tableText cells) = cells := by
  have hsplit : (tableText cells ++ []).splitOn '\n' =
      (cells.map fun line => joined '\t' (line.headD []) line.tail) ++ [[]] :=
    splitOn_separated ?_ List.not_mem_nil
  · rw [List.append_nil] at hsplit
    rw [readTable, hsplit, List.dropLast_concat, List.map_map]
    refine (List.map_congr_left fun line hline => ?_).trans (List.map_id cells)
    obtain ⟨hne, hline⟩ := hcells line hline
    cases line with
    | nil => exact absurd rfl hne
    | cons cell line =>
        rw [List.forall_mem_cons] at hline
        exact splitOn_joined hline.1.1 fun cell hcell => (hline.2 cell hcell).1
  · intro text htext
    obtain ⟨line, hline, rfl⟩ := List.mem_map.mp htext
    obtain ⟨hne, hline⟩ := hcells line hline
    cases line with
    | nil => exact absurd rfl hne
    | cons cell line =>
        rw [List.forall_mem_cons] at hline
        exact notMem_joined (by decide) hline.1.2 fun cell hcell => (hline.2 cell hcell).2

/-- A line of values that has been read from a file. -/
structure Row.OfFile (row : Row) : Prop where
  workload : '/' ∉ row.workload
  dbName : '\t' ∉ row.dbName ∧ '\n' ∉ row.dbName

theorem splitext_subset (p : Str) : (splitext p).1 ⊆ p := by
  rw [splitext]
  split
  · exact List.Subset.refl p
  · exact fun c hc => (List.rdropWhile_prefix _ _).subset ((List.dropLast_prefix _).subset hc)

theorem slash_notMem_splitext (p : Str) : '/' ∉ (splitext (pathSplit p).2).1 := fun hmem =>
  absurd (List.mem_rtakeWhile_imp (splitext_subset _ hmem)) (by decide)

theorem strip_subset (line : Str) : strip line ⊆ line := fun _ hc =>
  (List.dropWhile_suffix _).subset ((List.rdropWhile_prefix _ _).subset hc)

/-- The fields of a line of a file. -/
theorem notMem_of_mem_lineFields {text line field : Str} (hline : line ∈ fileLines text)
    (hfield : field ∈ lineFields line) : '\t' ∉ field ∧ '\n' ∉ field := by
  have hsplit : line ∈ text.splitOn '\n' := by
    rw [fileLines] at hline
    split at hline
    · exact (List.dropLast_prefix _).subset hline
    · exact hline
  obtain ⟨htab, hsub⟩ := mem_splitOn hfield
  exact ⟨htab, fun hmem => (mem_splitOn hsplit).1 (strip_subset _ (hsub _ hmem))⟩

theorem index_mem {α : Type} {xs : List α} {i : ℕ} {x : α} (hindex : index xs i = .ok x) :
    x ∈ xs := by
  rw [index] at hindex
  split at hindex
  · cases hindex
  · rename_i hget
    cases hindex
    exact List.mem_of_getElem? hget

theorem bind_eq_ok {α β : Type} {x : Except PyError α} {f : α → Except PyError β} {b : β}
    (hbind : (x >>= f) = .ok b) : ∃ a, x = .ok a ∧ f a = .ok b := by
  cases x with
  | error e => cases hbind
  | ok a => exact ⟨a, rfl, hbind⟩

theorem parseRow_eq_ok {line : List Str} {row : Row} (hrow : parseRow line = .ok (some row)) :
    row.dbName ∈ line ∧ ∃ path, row.workload = (splitext (pathSplit path).2).1 := by
  obtain ⟨_, -, hrow⟩ := bind_eq_ok hrow
  obtain ⟨c, -, hrow⟩ := bind_eq_ok hrow
  by_cases hcomment : c = '#'
  · rw [if_pos hcomment] at hrow
    cases hrow
  · rw [if_neg hcomment] at hrow
    obtain ⟨dbName, hdbName, hrow⟩ := bind_eq_ok hrow
    obtain ⟨path, -, hrow⟩ := bind_eq_ok hrow
    obtain ⟨_, -, hrow⟩ := bind_eq_ok hrow
    obtain ⟨_, -, hrow⟩ := bind_eq_ok hrow
    obtain ⟨_, -, hrow⟩ := bind_eq_ok hrow
    obtain ⟨_, -, hrow⟩ := bind_eq_ok hrow
    cases hrow
    exact ⟨index_mem hdbName, path, rfl⟩

/-- A line of values is that of a line of the file. -/
theorem exists_line_of_mem {lines : List (List Str)} {rows : List (Option Row)}
    (hrows : lines.mapM parseRow = .ok rows) {row : Option Row} (hrow : row ∈ rows) :
    ∃ line ∈ lines, parseRow line = .ok row := by
  induction lines generalizing rows with
  | nil =>
      cases hrows
      cases hrow
  | cons line lines ih =>
      rw [List.mapM_cons] at hrows
      obtain ⟨first, hfirst, hrows⟩ := bind_eq_ok hrows
      obtain ⟨rest, hrest, hrows⟩ := bind_eq_ok hrows
      cases hrows
      rcases List.mem_cons.mp hrow with rfl | hrow
      · exact ⟨line, List.mem_cons_self, hfirst⟩
      · obtain ⟨line', hline', hparse⟩ := ih hrest hrow
        exact ⟨line', List.mem_cons_of_mem _ hline', hparse⟩

theorem ofFile_of_mem {text : Str} {rows : List Row} (hrows : dataRows text = .ok rows)
    {row : Row} (hrow : row ∈ rows) : row.OfFile := by
  obtain ⟨parsed, hparsed, rfl⟩ : ∃ parsed,
      ((fileLines text).map lineFields).mapM parseRow = .ok parsed ∧
        parsed.reduceOption = rows := by
    rw [dataRows] at hrows
    cases hparsed : ((fileLines text).map lineFields).mapM parseRow with
    | error e =>
        rw [hparsed] at hrows
        cases hrows
    | ok parsed =>
        rw [hparsed] at hrows
        exact ⟨parsed, rfl, Except.ok.inj hrows⟩
  obtain ⟨fields, hfields, hparse⟩ :=
    exists_line_of_mem hparsed (List.reduceOption_mem_iff.mp hrow)
  obtain ⟨line, hline, rfl⟩ := List.mem_map.mp hfields
  obtain ⟨hdbName, path, hworkload⟩ := parseRow_eq_ok hparse
  refine ⟨?_, notMem_of_mem_lineFields hline hdbName⟩
  rw [hworkload]
  exact slash_notMem_splitext path

/-- The names of the tables of different workloads differ. -/
theorem pathJoin_injOn {dirName : Str} {workload workload' : Str} (hslash : '/' ∉ workload)
    (hslash' : '/' ∉ workload') (heq : pathJoin dirName (workload ++ ".result".toList) =
      pathJoin dirName (workload' ++ ".result".toList)) : workload = workload' := by
  have hhead : ∀ {wl : Str}, '/' ∉ wl → (wl ++ ".result".toList).head? ≠ some '/' := by
    intro wl hwl hhead
    cases wl with
    | nil => exact absurd (Option.some.inj hhead) (by decide)
    | cons c wl => exact hwl (Option.some.inj hhead ▸ List.mem_cons_self)
  rw [pathJoin, pathJoin, if_neg (hhead hslash), if_neg (hhead hslash')] at heq
  split at heq
  · exact List.append_cancel_right (List.append_cancel_left heq)
  · exact List.append_cancel_right (List.cons.inj (List.append_cancel_left heq)).2

/-- An integer has no tabs and line breaks. -/
theorem notMem_streamInt (n : ℤ) : '\t' ∉ streamInt n ∧ '\n' ∉ streamInt n := by
  have hdigit : ∀ c ∈ streamInt n, c = '-' ∨ c.isDigit := by
    intro c hc
    rcases List.mem_append.mp hc with hc | hc
    · rw [PrintedNumber.sign] at hc
      split at hc
      · exact Or.inl (List.mem_singleton.mp hc)
      · cases hc
    · exact Or.inr (Nat.isDigit_of_mem_toDigits (by decide) (by decide) hc)
  exact ⟨fun hmem => absurd (hdigit _ hmem) (by decide),
    fun hmem => absurd (hdigit _ hmem) (by decide)⟩

/-- The cells of a table have no tabs and line breaks. -/
theorem tableCells_notMem (median : List ExtRat → ExtRat) {str : ExtRat → Str}
    (hstr : ∀ x, '\t' ∉ str x ∧ '\n' ∉ str x) {rows : List Row} (hrows : ∀ row ∈ rows, row.OfFile)
    (workload : Str) :
    ∀ line ∈ tableCells median str rows workload,
      line ≠ [] ∧ ∀ cell ∈ line, '\t' ∉ cell ∧ '\n' ∉ cell := by
  rw [tableCells, List.forall_mem_cons]
  refine ⟨⟨List.cons_ne_nil _ _, List.forall_mem_cons.mpr ⟨by decide, ?_⟩⟩, ?_⟩
  · intro dbName hdb
    obtain ⟨row, hrow, rfl⟩ := List.mem_map.mp (mem_sortedKeys.mp hdb)
    exact (hrows row hrow).dbName
  · intro line hline
    obtain ⟨numThreads, -, rfl⟩ := List.mem_map.mp hline
    refine ⟨List.cons_ne_nil _ _, List.forall_mem_cons.mpr ⟨notMem_streamInt numThreads, ?_⟩⟩
    intro cell hcell
    obtain ⟨dbName, -, rfl⟩ := List.mem_map.mp hcell
    exact hstr _

/-- If every workload was run on every database with every number of threads, each has a
table of its own in the directory of the last line, whose cells are the medians.  If not,
an error names what is missing. -/
theorem tables_iff (median : List ExtRat → ExtRat) {str : ExtRat → Str}
    (hstr : ∀ x, '\t' ∉ str x ∧ '\n' ∉ str x) {text : Str} {rows : List Row}
    (hrows : dataRows text = .ok rows) :
    ∃ files error, main median str text = .ok (files, error) ∧
      (error = none ↔ Complete rows) ∧ (∀ e ∈ error, Gap rows e) ∧
      (Complete rows → (files.map Prod.fst).Nodup ∧
        files.map (fun (path, text) => (path, readTable text)) =
          (sortedKeys (rows.map Row.workload)).map fun workload =>
            (pathJoin ((rows.getLast?.map Row.dirName).getD []) (workload ++ ".result".toList),
              tableCells median str rows workload)) := by
  have hs := reads_foldl rows
  have hfile : ∀ row ∈ rows, row.OfFile := fun row => ofFile_of_mem hrows
  have hmain : main median str text = .ok ((rows.foldl LoopState.addRow {}).writeTables median str
      (rows.foldl LoopState.addRow {}).sortedWorkloads) := by
    rw [main, parseFile_eq, hrows]
    rfl
  cases hlast : rows.getLast? with
  | none =>
      obtain rfl := List.getLast?_eq_none_iff.mp hlast
      have hworkloads : sortedKeys (([] : List Row).map Row.workload) = [] :=
        List.eq_nil_iff_forall_not_mem.mpr fun wl => by simp
      rw [hs.sortedWorkloads, hworkloads] at hmain
      rw [hworkloads]
      exact ⟨[], none, hmain, by simp [Complete], nofun, fun _ => ⟨List.nodup_nil, rfl⟩⟩
  | some last =>
      have hdirName := hs.dirName
      rw [hlast, Option.map_some] at hdirName
      rcases hs.writeTables_cases median str hdirName with
        ⟨hcomplete, hfiles⟩ | ⟨files, e, hfiles, hgap⟩
      · refine ⟨_, none, hmain.trans (congrArg Except.ok hfiles), by simpa using hcomplete, nofun,
          fun _ => ⟨?_, ?_⟩⟩
        · rw [List.map_map]
          refine (nodup_sortedKeys _).map_on fun wl hwl wl' hwl' heq => ?_
          rw [mem_sortedKeys] at hwl hwl'
          obtain ⟨row, hrow, rfl⟩ := List.mem_map.mp hwl
          obtain ⟨row', hrow', rfl⟩ := List.mem_map.mp hwl'
          exact pathJoin_injOn (hfile row hrow).workload (hfile row' hrow').workload heq
        · rw [List.map_map]
          refine List.map_congr_left fun workload _ => ?_
          exact congrArg (Prod.mk _) (readTable_tableText (tableCells_notMem median hstr hfile workload))
      · refine ⟨files, some e, hmain.trans (congrArg Except.ok hfiles), ?_, ?_, fun hcomplete =>
          absurd hcomplete hgap.not_complete⟩
        · simpa using hgap.not_complete
        · rintro _ ⟨⟩
          exact hgap

/-- Two workloads on two databases with two numbers of threads. -/
def grid : List Row :=
  ["workloada".toList, "workloadb".toList].flatMap fun workload =>
    ["rocksdb".toList, "leveldb".toList].flatMap fun dbName =>
      [2, 1].map fun numThreads => ⟨workload, dbName, numThreads, .finite 4, "workloads".toList⟩

/-- Their lines in a file. -/
def gridText : Str :=
  ["workloada", "workloadb"].flatMap fun workload =>
    ["rocksdb", "leveldb"].flatMap fun dbName =>
      ["2", "1"].flatMap fun numThreads =>
        (dbName ++ "\tworkloads/" ++ workload ++ ".spec\t" ++ numThreads ++ "\t4\n").toList

theorem dataRows_gridText : dataRows gridText = .ok grid := by decide +kernel

/-- The theorem at these lines. -/
theorem tables_iff_grid :
    ∃ files error, main middle (PrintedNumber.fixed 1) gridText = .ok (files, error) ∧
      (error = none ↔ Complete grid) ∧ (∀ e ∈ error, Gap grid e) ∧
      (Complete grid → (files.map Prod.fst).Nodup ∧
        files.map (fun (path, text) => (path, readTable text)) =
          (sortedKeys (grid.map Row.workload)).map fun workload =>
            (pathJoin ((grid.getLast?.map Row.dirName).getD [])
              (workload ++ ".result".toList),
              tableCells middle (PrintedNumber.fixed 1) grid workload)) := by
  refine tables_iff middle (fun x => ⟨fun hmem => ?_, fun hmem => ?_⟩) dataRows_gridText
  · exact absurd (PrintedNumber.isNumeral_of_mem_fixed hmem) (by decide)
  · exact absurd (PrintedNumber.isNumeral_of_mem_fixed hmem) (by decide)

end ParseResult

end YcsbC
