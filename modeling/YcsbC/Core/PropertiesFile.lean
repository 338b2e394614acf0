import YcsbC.Core.Properties
import YcsbC.Foundation.AssocList

/-!
# Property files

A property file as it is written: lines `key=value` with blanks and tabs around the key
and the value, comments, and other lines without `=`, with or without a line break at
the end.

`Load` reads back what was written.  Loading files in turn sets each key to the last
value written for it, and when the lines write each entry of a map once, each key of the
map to its value (`load_fileText`).
-/

theorem List.dropWhile_append_eq_right {α : Type*} {p : α → Bool} {l l' : List α}
    (hl : ∀ a ∈ l, p a) (hl' : ∀ a ∈ l'.head?, ¬ p a) : (l ++ l').dropWhile p = l' := by
  rw [dropWhile_append_of_pos hl]
  cases l' with
  | nil => rfl
  | cons a l' => exact dropWhile_cons_of_neg (hl' a rfl)

namespace YcsbC

namespace Utils

/-! ## Text without white space at its ends -/

/-- There is no white space at either end. -/
def Trimmed (text : Str) : Prop :=
  (∀ c ∈ text.head?, ¬ isSpace c) ∧ ∀ c ∈ text.getLast?, ¬ isSpace c

/-- `Trim` takes away the white space around a text and nothing else. -/
theorem trim_padded {before text after : Str} (hbefore : ∀ c ∈ before, isSpace c)
    (htext : Trimmed text) (hafter : ∀ c ∈ after, isSpace c) :
    trim (before ++ text ++ after) = text := by
  have hreverse : ∀ c ∈ after.reverse, isSpace c := by simpa using hafter
  have hfront : (text ++ after).dropWhile isSpace = text ++ after ∨ text = [] := by
    cases text with
    | nil => exact .inr rfl
    | cons c text => exact .inl (List.dropWhile_cons_of_neg (htext.1 c rfl))
  have hback : (text ++ after).rdropWhile isSpace = text := by
    rw [List.rdropWhile, List.reverse_append, List.dropWhile_append_eq_right hreverse,
      List.reverse_reverse]
    simpa using htext.2
  rw [trim, List.append_assoc, List.dropWhile_append_of_pos hbefore]
  rcases hfront with hfront | rfl
  · rw [hfront, hback]
  · rw [List.nil_append, ← List.append_nil after, List.dropWhile_append_eq_right hafter (by simp)]
    rfl

/-! ## Lines -/

/-- Blanks and tabs. -/
def IsPadding (text : Str) : Prop := ∀ c ∈ text, c = ' ' ∨ c = '\t'

theorem IsPadding.isSpace {text : Str} (htext : IsPadding text) : ∀ c ∈ text, isSpace c := by
  intro c hc
  rcases htext c hc with rfl | rfl <;> rfl

theorem IsPadding.notMem {text : Str} (htext : IsPadding text) {c : Char} (hblank : c ≠ ' ')
    (htab : c ≠ '\t') : c ∉ text := by
  intro hc
  rcases htext c hc with rfl | rfl
  · exact hblank rfl
  · exact htab rfl

/-- A line that sets a key. -/
structure PropertyLine where
  /-- The key. -/
  key : Str
  /-- The value. -/
  value : Str
  /-- What stands before the key. -/
  keyBefore : Str
  /-- What stands after the key. -/
  keyAfter : Str
  /-- What stands before the value. -/
  valueBefore : Str
  /-- What stands after the value. -/
  valueAfter : Str
  /-- The key has no white space at its ends. -/
  key_trimmed : Trimmed key
  /-- The value has no white space at its ends. -/
  value_trimmed : Trimmed value
  /-- The key is on one line. -/
  key_break : '\n' ∉ key
  /-- The value is on one line. -/
  value_break : '\n' ∉ value
  /-- The key ends at the first `=`. -/
  key_equals : '=' ∉ key
  /-- The key does not make the line a comment. -/
  key_hash : key.head? ≠ some '#'
  /-- Padding before the key. -/
  keyBefore_padding : IsPadding keyBefore
  /-- Padding after the key. -/
  keyAfter_padding : IsPadding keyAfter
  /-- Padding before the value. -/
  valueBefore_padding : IsPadding valueBefore
  /-- Padding after the value. -/
  valueAfter_padding : IsPadding valueAfter

namespace PropertyLine

variable (line : PropertyLine)

/-- The text before the `=`. -/
def keyText : Str := line.keyBefore ++ line.key ++ line.keyAfter

/-- The text after the `=`. -/
def valueText : Str := line.valueBefore ++ line.value ++ line.valueAfter

/-- The text of the line. -/
def text : Str := line.keyText ++ '=' :: line.valueText

theorem equals_notMem_keyText : '=' ∉ line.keyText := by
  simp [keyText, line.key_equals, line.keyBefore_padding.notMem, line.keyAfter_padding.notMem]

theorem break_notMem_text : '\n' ∉ line.text := by
  simp [text, keyText, valueText, line.key_break, line.value_break,
    line.keyBefore_padding.notMem, line.keyAfter_padding.notMem,
    line.valueBefore_padding.notMem, line.valueAfter_padding.notMem]

/-- The line is no comment, whatever is empty of the key and the padding. -/
theorem head?_text : line.text.head? ≠ some '#' := by
  have hor : ∀ {first second : Option Char}, first ≠ some '#' → second ≠ some '#' →
      first.or second ≠ some '#' := by
    intro first second hfirst hsecond
    cases first with
    | none => exact hsecond
    | some c => exact hfirst
  have hpadding : ∀ {padding : Str}, IsPadding padding → padding.head? ≠ some '#' := by
    intro padding hpadding hhead
    exact hpadding.notMem (by simp) (by simp) (List.mem_of_mem_head? hhead)
  rw [text, keyText, List.head?_append, List.head?_append, List.head?_append]
  refine hor (hor (hor ?_ ?_) ?_) ?_
  · exact hpadding line.keyBefore_padding
  · exact line.key_hash
  · exact hpadding line.keyAfter_padding
  · simp

/-- The line sets its key to its value. -/
theorem lineAssignment_text : Properties.lineAssignment line.text = some (line.key, line.value) := by
  have hbefore : ∀ c ∈ line.keyText, (c != '=') = true := by
    intro c hc
    have hne : c ≠ '=' := by
      rintro rfl
      exact line.equals_notMem_keyText hc
    simpa using hne
  have hkey : trim line.keyText = line.key :=
    trim_padded line.keyBefore_padding.isSpace line.key_trimmed line.keyAfter_padding.isSpace
  have hvalue : trim line.valueText = line.value :=
    trim_padded line.valueBefore_padding.isSpace line.value_trimmed line.valueAfter_padding.isSpace
  rw [Properties.lineAssignment, if_neg line.head?_text, text,
    List.dropWhile_append_of_pos hbefore, List.takeWhile_append_of_pos hbefore]
  simp [hkey, hvalue]

end PropertyLine

/-- A line of a property file. -/
inductive FileLine where
  /-- A line that sets a key. -/
  | property (line : PropertyLine)
  /-- A line that starts with `#`. -/
  | comment (rest : Str) (hbreak : '\n' ∉ rest)
  /-- A line without `=`, such as a blank one. -/
  | plain (text : Str) (hbreak : '\n' ∉ text) (hequals : '=' ∉ text)

namespace FileLine

/-- The text of a line. -/
def text : FileLine → Str
  | property line => line.text
  | comment rest _ => '#' :: rest
  | plain text _ _ => text

/-- What a line sets. -/
def assignment : FileLine → Option (Str × Str)
  | property line => some (line.key, line.value)
  | comment _ _ => none
  | plain _ _ _ => none

theorem break_notMem_text (line : FileLine) : '\n' ∉ line.text := by
  cases line with
  | property line => exact line.break_notMem_text
  | comment rest hbreak => simpa [text] using hbreak
  | plain text hbreak _ => exact hbreak

/-- `Load` takes a line as it was meant. -/
theorem lineAssignment_text (line : FileLine) :
    Properties.lineAssignment line.text = line.assignment := by
  cases line with
  | property line => exact line.lineAssignment_text
  | comment rest hbreak => rfl
  | plain text hbreak hequals =>
      have hnone : text.dropWhile (· != '=') = [] := by
        rw [List.dropWhile_eq_nil_iff]
        intro c hc
        simpa using ne_of_mem_of_not_mem hc hequals
      rw [FileLine.text, Properties.lineAssignment, hnone, ite_self]
      rfl

end FileLine

/-! ## Files -/

/-- A property file: its lines, and whether a line break stands at its end. -/
structure PropertyFile where
  /-- The lines. -/
  lines : List FileLine
  /-- Whether the last line ends with a line break. -/
  finalBreak : Bool

namespace PropertyFile

/-- The text of a file. -/
def text (file : PropertyFile) : Str :=
  ['\n'].intercalate (file.lines.map FileLine.text) ++ if file.finalBreak then ['\n'] else []

/-- What a file sets, in order. -/
def assignments (file : PropertyFile) : WriteLog Str Str := file.lines.filterMap FileLine.assignment

/-- The file writes each entry of a map once, in any order. -/
def Writes (file : PropertyFile) (m : AList fun _ : Str => Str) : Prop :=
  (file.assignments.map fun assignment => (⟨assignment.1, assignment.2⟩ : Σ _ : Str, Str)).Perm
    m.entries

/-- `Load` of one file after the other. -/
def loadAll (p : Properties) (files : List PropertyFile) : Except Thrown Properties :=
  files.foldlM (fun p file => p.load (some file.text)) p

/-- What `Load` sets is what the lines of the file were meant to set. -/
theorem fileAssignments_text (file : PropertyFile) :
    Properties.fileAssignments file.text = file.assignments := by
  have hlines : Properties.fileAssignments (['\n'].intercalate (file.lines.map FileLine.text)) =
      file.assignments := by
    cases hnil : file.lines with
    | nil => simp [assignments, hnil, Properties.fileAssignments, Properties.lineAssignment]
    | cons line lines =>
        have hbreak : ∀ text ∈ file.lines.map FileLine.text, '\n' ∉ text := by
          simp only [List.mem_map, forall_exists_index, and_imp, forall_apply_eq_imp_iff₂]
          intro line _
          exact line.break_notMem_text
        rw [← hnil, Properties.fileAssignments,
          List.splitOn_intercalate '\n' hbreak (by simp [hnil]), List.filterMap_map, assignments]
        exact List.filterMap_congr fun line _ => line.lineAssignment_text
  rw [text]
  split
  next =>
    rw [Properties.fileAssignments_append, hlines]
    simp [Properties.fileAssignments, Properties.lineAssignment]
  next => rw [List.append_nil, hlines]

theorem load_text (file : PropertyFile) (p : Properties) :
    p.load (some file.text) = .ok (p.overlay file.assignments) := by
  rw [Properties.load_eq, fileAssignments_text]

theorem loadAll_eq (p : Properties) (files : List PropertyFile) :
    loadAll p files = .ok (p.overlay (files.flatMap assignments)) := by
  induction files generalizing p with
  | nil => rfl
  | cons file files ih =>
      rw [loadAll, List.foldlM_cons, load_text, List.flatMap_cons, Properties.overlay_append]
      exact ih _

theorem Writes.mem_assignments {file : PropertyFile} {m : AList fun _ : Str => Str}
    (hwrites : file.Writes m) {key value : Str} :
    (key, value) ∈ file.assignments ↔ m.lookup key = some value := by
  rw [← AList.mem_perm_entries hwrites]
  simp

/-- The last assignment to a key in a file that writes a map is its only one. -/
theorem Writes.last_assignments {file : PropertyFile} {m : AList fun _ : Str => Str}
    (hwrites : file.Writes m) (key : Str) : file.assignments.last key = m.lookup key := by
  have hlast : ∀ {value}, file.assignments.last key = some value → m.lookup key = some value :=
    fun hlast => hwrites.mem_assignments.mp (WriteLog.mem_of_last_eq_some hlast)
  cases hassigned : file.assignments.last key with
  | some value => exact (hlast hassigned).symm
  | none =>
      cases hlookup : m.lookup key with
      | none => rfl
      | some value =>
          have hmem : key ∈ file.assignments.map Prod.fst :=
            List.mem_map_of_mem (hwrites.mem_assignments.mpr hlookup)
          rw [← WriteLog.isSome_last, hassigned] at hmem
          cases hmem

/-- Files loaded in turn set each key to the last value written for it and leave the
others as they are, and a file that writes the entries of a map sets each key of the map
to its value. -/
theorem load_files (p : Properties) :
    (∀ files : List PropertyFile, ∃ q, loadAll p files = .ok q ∧ ∀ key,
      q.find key = (WriteLog.last (files.flatMap assignments) key).or (p.find key)) ∧
    ∀ (m : AList fun _ : Str => Str) (file : PropertyFile), file.Writes m →
      ∃ q, p.load (some file.text) = .ok q ∧ ∀ key, q.find key = (m.lookup key).or (p.find key) := by
  constructor
  · intro files
    exact ⟨_, loadAll_eq p files, p.find_overlay _⟩
  · intro m file hwrites
    refine ⟨_, file.load_text p, ?_⟩
    intro key
    rw [p.find_overlay, hwrites.last_assignments]

/-- The file `# run`, `<tab>k = v`, without a line break at its end. -/
def commentedFile : PropertyFile where
  lines := [
    .comment " run".toList (by simp),
    .property
      { key := "k".toList
        value := "v".toList
        keyBefore := "\t".toList
        keyAfter := " ".toList
        valueBefore := " ".toList
        valueAfter := []
        key_trimmed := by simp [Trimmed, isSpace]
        value_trimmed := by simp [Trimmed, isSpace]
        key_break := by simp
        value_break := by simp
        key_equals := by simp
        key_hash := by simp
        keyBefore_padding := by simp [IsPadding]
        keyAfter_padding := by simp [IsPadding]
        valueBefore_padding := by simp [IsPadding]
        valueAfter_padding := by simp [IsPadding] }]
  finalBreak := false

theorem load_files_commentedFile :
    ∃ q, Properties.empty.load (some "# run\n\tk = v".toList) = .ok q ∧
      q.find "k".toList = some "v".toList := by
  have htext : commentedFile.text = "# run\n\tk = v".toList := by decide
  have hwrites : commentedFile.Writes (AList.singleton "k".toList "v".toList) := .refl _
  obtain ⟨q, hload, hfind⟩ := (load_files .empty).2 _ _ hwrites
  refine ⟨q, htext ▸ hload, ?_⟩
  rw [hfind]
  rfl

end PropertyFile

end Utils

end YcsbC
