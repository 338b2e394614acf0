import YcsbC.Core.KeyName
import YcsbC.Core.Properties
import YcsbC.Utils.HistogramReport
import Mathlib.Data.Int.Notation

/-!
# The reports and their parser

At the end of a phase `main` writes a line that starts with `#`, a line of four values
between tabs, and the text of the histogram.  `parse_result.py` takes every line that does
not start with `#` for a line of values.  So it fails at the first line of the histogram at
the latest, whatever the report is (`not_readsBack`).
-/

namespace YcsbC

/-! ## What `main` writes -/

/-- The phase of a report. -/
inductive ReportKind where
  /-- The load phase, with the `sum` of the records loaded. -/
  | load (sum : Int32)
  /-- The run phase. -/
  | run
deriving DecidableEq, Repr

/-- The values of a report. -/
structure Report where
  /-- The phase. -/
  kind : ReportKind
  /-- `props["dbname"]`. -/
  dbname : Str
  /-- `file_name`. -/
  fileName : Str
  /-- `num_threads`. -/
  numThreads : Int32
  /-- `total_ops / duration`. -/
  throughput : ExtRat
  /-- `histograms[0]`. -/
  histogram : Histogram

/-- An `int` as `<<` writes it. -/
def streamInt (n : ℤ) : Str := PrintedNumber.sign (n < 0) ++ toStr n.natAbs

namespace Report

variable (r : Report)

/-- The line that starts with `#`. -/
def header : Str :=
  match r.kind with
  | .load sum => "# Loading records:\t".toList ++ streamInt sum.toInt
  | .run => "# Transaction throughput ".toList

/-- The line of values. -/
def resultLine : Str :=
  r.dbname ++ '\t' :: r.fileName ++ '\t' :: streamInt r.numThreads.toInt ++
    '\t' :: PrintedNumber.streamed r.throughput ++ " OPS".toList

/-- What `main` writes to `cerr`. -/
def text : Str :=
  r.header ++ '\n' :: (r.resultLine ++ '\n' :: (r.histogram.toString ++ ['\n']))

end Report

/-! ## The parser -/

namespace ParseResult

/-- What is raised. -/
inductive PyError where
  | indexError
  | valueError
deriving DecidableEq, Repr

/-- The lines that `open(path)` goes through. -/
def fileLines (text : Str) : List Str :=
  let lines := text.splitOn '\n'
  if lines.getLast? = some [] then lines.dropLast else lines

/-- `strip`, for which white space is what it is for `isspace`. -/
def strip (line : Str) : Str := Utils.trim line

/-- `xs[i]`. -/
def index {α : Type} (xs : List α) (i : ℕ) : Except PyError α :=
  match xs[i]? with
  | none => .error .indexError
  | some x => .ok x

/-- `os.path.split`. -/
def pathSplit (p : Str) : Str × Str :=
  let head := p.rdropWhile (· != '/')
  (if head.all (· == '/') then head else head.rdropWhile (· == '/'), p.rtakeWhile (· != '/'))

/-- `os.path.splitext` of a name without `/`.  Dots at the start are part of the root. -/
def splitext (p : Str) : Str × Str :=
  let root := (p.rdropWhile (· != '.')).dropLast
  if root.all (· == '.') then (p, []) else (root, p.drop root.length)

/-- The digits at the start of a text as a number, and what follows them. -/
def takeDigits (text : Str) : Option ℕ × Str :=
  let digits := text.takeWhile Char.isDigit
  (if digits.isEmpty then none else some (Nat.ofDigitChars 10 digits 0), text.dropWhile Char.isDigit)

/-- A sign at the start of a text, if there is one, and what follows it. -/
def takeSign : Str → Bool × Str
  | '-' :: text => (true, text)
  | '+' :: text => (false, text)
  | text => (false, text)

/-- `int`. -/
def int (text : Str) : Except PyError ℤ :=
  let (negative, rest) := takeSign (strip text)
  match takeDigits rest with
  | (some n, []) => .ok (if negative then -n else n)
  | _ => .error .valueError

/-- The exponent of a number. -/
def takeExponent : Str → Option ℤ
  | [] => some 0
  | e :: text =>
      if e = 'e' ∨ e = 'E' then
        let (negative, rest) := takeSign text
        match takeDigits rest with
        | (some n, []) => some (if negative then -n else n)
        | _ => none
      else none

/-- A decimal number without its sign. -/
def decimal (text : Str) : Option ℚ :=
  let (whole, rest) := takeDigits text
  let (part, digits, rest) : Option ℕ × ℕ × Str :=
    match rest with
    | '.' :: rest => ((takeDigits rest).1, (rest.takeWhile Char.isDigit).length, (takeDigits rest).2)
    | rest => (none, 0, rest)
  if whole.isNone ∧ part.isNone then none
  else
    (takeExponent rest).map fun exponent =>
      (whole.getD 0 + part.getD 0 / 10 ^ digits : ℚ) * 10 ^ exponent

/-- `float`. -/
def float (text : Str) : Except PyError ExtRat :=
  let (negative, rest) := takeSign (strip text)
  let word := rest.map Char.toLower
  if word = "inf".toList ∨ word = "infinity".toList then .ok (.inf negative)
  else if word = "nan".toList then .ok (.nan negative)
  else
    match decimal rest with
    | none => .error .valueError
    | some x => .ok (.finite (if negative then -x else x))

/-- `results[workload][db_name]`, by the number of threads. -/
abbrev ThreadResults := AList fun _ : ℤ => List ExtRat

/-- `results[workload]`, by the database. -/
abbrev DbResults := AList fun _ : Str => ThreadResults

/-- `results`, by the workload. -/
abbrev Results := AList fun _ : Str => DbResults

/-- The variables of the loop. -/
structure LoopState where
  /-- `results`. -/
  results : Results := ∅
  /-- `db_index`. -/
  dbIndex : List Str := []
  /-- `tn_index`. -/
  tnIndex : List ℤ := []
  /-- `dir_name`, once it is set. -/
  dirName : Option Str := none

/-- The statements that append a throughput, after those that add what is missing. -/
def addThroughput (results : Results) (workload dbName : Str) (numThreads : ℤ)
    (throughput : ExtRat) : Results :=
  let byDb : DbResults := (results.lookup workload).getD ∅
  let byThreads : ThreadResults := (byDb.lookup dbName).getD ∅
  let throughputs := (byThreads.lookup numThreads).getD []
  results.insert workload
    (byDb.insert dbName (byThreads.insert numThreads (throughputs ++ [throughput])))

/-- A turn of the loop. -/
def loopTurn (s : LoopState) (line : List Str) : Except PyError LoopState := do
  let c ← index (← index line 0) 0
  if c = '#' then return s
  let dbName ← index line 0
  let (dirName, workload) := pathSplit (← index line 1)
  let workload := (splitext workload).1
  let numThreads ← int (← index line 2)
  let throughput ← float (← index line 3)
  return {
    results := addThroughput s.results workload dbName numThreads throughput
    dbIndex := s.dbIndex.insert dbName
    tnIndex := s.tnIndex.insert numThreads
    dirName := some dirName }

/-- The fields of a line. -/
def lineFields (line : Str) : List Str := (strip line).splitOn '\t'

/-- The loop on the lines of a file. -/
def parseFile (text : Str) : Except PyError LoopState :=
  ((fileLines text).map lineFields).foldlM loopTurn {}

/-- The parser raises no error and has the throughput under the name of the workload, the
database and the number of threads. -/
def ReadsBack (r : Report) : Prop :=
  ∃ s, parseFile r.text = .ok s ∧
    s.results = addThroughput ∅ (splitext (pathSplit r.fileName).2).1 r.dbname r.numThreads.toInt
      r.throughput

/-! ## The first line of the histogram -/

/-- The loop fails if it fails at some line whatever it has read before. -/
theorem exists_foldlM_error {σ α ε : Type} {f : σ → α → Except ε σ} {l : List α} {a : α}
    (hmem : a ∈ l) (hfails : ∀ s, ∃ e, f s a = .error e) (s : σ) :
    ∃ e, l.foldlM f s = .error e := by
  induction l generalizing s with
  | nil => cases hmem
  | cons b l ih =>
      rw [List.foldlM_cons]
      cases hb : f s b with
      | error e => exact ⟨e, rfl⟩
      | ok s' =>
          rcases List.mem_cons.mp hmem with rfl | hmem
          · obtain ⟨e, he⟩ := hfails s
            cases hb.symm.trans he
          · exact ih hmem s'

/-- Only an empty line at the end is left out. -/
theorem mem_fileLines {text line : Str} (hline : line ∈ text.splitOn '\n') (hne : line ≠ []) :
    line ∈ fileLines text := by
  rw [fileLines]
  split
  next hlast =>
    have hsplit := List.dropLast_append_getLast? _ hlast
    rw [← hsplit, List.mem_append] at hline
    rcases hline with hline | hline
    · exact hline
    · exact absurd (List.mem_singleton.mp hline) hne
  next => exact hline

/-- The file has a line that starts with `C` and has no tabs. -/
theorem exists_countLine (r : Report) :
    ∃ rest, 'C' :: rest ∈ fileLines r.text ∧ '\t' ∉ 'C' :: rest := by
  obtain ⟨text, htext⟩ := r.histogram.exists_toString_eq_cons
  have htab : '\t' ∉ r.histogram.toString ++ ['\n'] := by simp [r.histogram.tab_notMem_toString]
  obtain ⟨line, after, hcut, hbreak⟩ : ∃ line after,
      r.histogram.toString ++ ['\n'] = line ++ '\n' :: after ∧ '\n' ∉ line :=
    List.eq_append_cons_of_mem (by simp)
  have hline : line ∈ r.text.splitOn '\n' := by
    rw [Report.text, hcut, List.splitOn_append_cons_self, List.splitOn_append_cons_self,
      List.splitOn_append_cons_self_of_not_mem hbreak]
    simp
  rw [hcut] at htab
  rw [htext] at hcut
  cases line with
  | nil => cases hcut
  | cons c rest =>
      obtain rfl : 'C' = c := (List.cons.inj hcut).1
      exact ⟨rest, mem_fileLines hline (List.cons_ne_nil _ _),
        fun hc => htab (List.mem_append_left _ hc)⟩

/-- Stripping does not reach a character that is not white space. -/
theorem exists_strip_cons {c : Char} (hc : ¬ Utils.isSpace c) (line : Str) :
    ∃ rest, strip (c :: line) = c :: rest ∧ rest <+: line := by
  have hprefix : strip (c :: line) <+: c :: line := by
    rw [strip, Utils.trim, List.dropWhile_cons_of_neg hc]
    exact List.rdropWhile_prefix _ _
  cases hstrip : strip (c :: line) with
  | nil =>
      rw [strip, Utils.trim, List.dropWhile_cons_of_neg hc, List.rdropWhile_eq_nil_iff] at hstrip
      exact absurd (hstrip c List.mem_cons_self) hc
  | cons d rest =>
      rw [hstrip] at hprefix
      obtain ⟨rfl, hrest⟩ := List.cons_prefix_cons.mp hprefix
      exact ⟨rest, rfl, hrest⟩

/-- The parser takes that line for one of values. -/
theorem parseFile_text (r : Report) : ∃ e, parseFile r.text = .error e := by
  obtain ⟨line, hmem, htab⟩ := exists_countLine r
  obtain ⟨rest, hstrip, hprefix⟩ := exists_strip_cons (c := 'C') (by decide) line
  have hrest : '\t' ∉ 'C' :: rest :=
    fun hc => htab (((List.prefix_cons_inj 'C').mpr hprefix).subset hc)
  have hfields : lineFields ('C' :: line) = ['C' :: rest] := by
    rw [lineFields, hstrip, List.splitOn_eq_singleton hrest]
  have hmem' : lineFields ('C' :: line) ∈ (fileLines r.text).map lineFields :=
    List.mem_map_of_mem hmem
  rw [hfields] at hmem'
  have hfails : ∀ s, ∃ e, loopTurn s ['C' :: rest] = .error e := fun s => ⟨.indexError, rfl⟩
  exact exists_foldlM_error hmem' hfails {}

/-- No report is read back. -/
theorem not_readsBack (r : Report) : ¬ ReadsBack r := by
  rintro ⟨s, hparse, -⟩
  obtain ⟨e, herror⟩ := parseFile_text r
  cases hparse.symm.trans herror

/-- A run on LevelDB whose one operation took five microseconds. -/
def leveldbReport : Report where
  kind := .run
  dbname := "leveldb".toList
  fileName := "workloads/workloada.spec".toList
  numThreads := 1
  throughput := .finite 200000
  histogram := Histogram.clear.addFast 5

/-- The parser raises an error on its report. -/
theorem not_readsBack_leveldbReport :
    (∃ e, parseFile leveldbReport.text = .error e) ∧ ¬ ReadsBack leveldbReport := by
  obtain ⟨e, herror⟩ := parseFile_text leveldbReport
  refine ⟨⟨e, herror⟩, ?_⟩
  rintro ⟨s, hparse, -⟩
  cases hparse.symm.trans herror

end ParseResult

end YcsbC
