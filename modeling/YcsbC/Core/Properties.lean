import YcsbC.Core.Utils
import YcsbC.Foundation.WriteLog
import Mathlib.Data.List.AList
import Mathlib.Data.List.DropRight

/-!
# Properties

`utils::Properties` maps keys to values.  `Load` reads a file line by line: a line that
starts with `#` or has no `=` is skipped, and any other sets the text before its first
`=` to the text after it, both without the white space around them.

`Load` is the same as setting in turn what the lines of the file say (`load_eq`).  A
byte is taken for white space as in the C locale, for ASCII text.
-/

namespace YcsbC

namespace Utils

/-- `isspace`. -/
def isSpace (c : Char) : Bool := c ∈ [' ', '\t', '\n', '\x0b', '\x0c', '\r']

/-- `Trim`. -/
def trim (str : Str) : Str := (str.dropWhile isSpace).rdropWhile isSpace

/-- What is thrown. -/
inductive Thrown where
  /-- `utils::Exception`. -/
  | exception (message : Str)
  /-- `std::out_of_range`. -/
  | outOfRange
  /-- A `std::string`. -/
  | string (message : Str)
deriving DecidableEq, Repr

/-- `Properties`. -/
structure Properties where
  /-- `properties_`. -/
  properties : AList fun _ : Str => Str

namespace Properties

/-- No properties. -/
def empty : Properties := ⟨∅⟩

/-- What is found under a key. -/
def find (p : Properties) (key : Str) : Option Str := p.properties.lookup key

/-- `GetProperty`. -/
def getProperty (p : Properties) (key : Str) (defaultValue : Str) : Str :=
  (p.find key).getD defaultValue

/-- `operator[]`, which is `at` of the map. -/
def get (p : Properties) (key : Str) : Except Thrown Str :=
  match p.find key with
  | none => .error .outOfRange
  | some value => .ok value

/-- `SetProperty`. -/
def setProperty (p : Properties) (key value : Str) : Properties :=
  ⟨p.properties.insert key value⟩

/-- What a line sets, if it is not skipped. -/
def lineAssignment (line : Str) : Option (Str × Str) :=
  -- the character after the end of an empty line is NUL
  if line.head? = some '#' then none
  else
    match line.dropWhile (· != '=') with
    | [] => none
    | _ :: value => some (trim (line.takeWhile (· != '=')), trim value)

/-- The turn of the loop of `Load` on a line. -/
def loadLine (p : Properties) (line : Str) : Properties :=
  match lineAssignment line with
  | none => p
  | some (key, value) => p.setProperty key value

/-- The loop of `Load`, which has read some of a line and has the rest of the file ahead.
It makes a turn at the end of the file as well. -/
def loadFrom (p : Properties) (line : Str) : Str → Properties
  | [] => p.loadLine line
  | c :: input =>
      if c = '\n' then loadFrom (p.loadLine line) [] input else loadFrom p (line ++ [c]) input

/-- `Load` of a file, if it could be opened. -/
def load (p : Properties) (input : Option Str) : Except Thrown Properties :=
  match input with
  | none => .error (.exception "File not open!".toList)
  | some text => .ok (p.loadFrom [] text)

/-! ## What is found -/

@[simp] theorem find_empty (key : Str) : empty.find key = none := rfl

@[simp] theorem find_setProperty_self (p : Properties) (key value : Str) :
    (p.setProperty key value).find key = some value :=
  AList.lookup_insert _

theorem find_setProperty_ne (p : Properties) {key key' : Str} (value : Str) (hne : key ≠ key') :
    (p.setProperty key' value).find key = p.find key :=
  AList.lookup_insert_ne hne

/-- The properties after some assignments. -/
def overlay (p : Properties) (assignments : List (Str × Str)) : Properties :=
  assignments.foldl (fun p assignment => p.setProperty assignment.1 assignment.2) p

@[simp] theorem overlay_nil (p : Properties) : p.overlay [] = p := rfl

@[simp] theorem overlay_cons (p : Properties) (assignment : Str × Str)
    (assignments : List (Str × Str)) : p.overlay (assignment :: assignments) =
      (p.setProperty assignment.1 assignment.2).overlay assignments := rfl

@[simp] theorem overlay_append (p : Properties) (assignments later : List (Str × Str)) :
    p.overlay (assignments ++ later) = (p.overlay assignments).overlay later := by
  simp [overlay]

/-- The last assignment to a key counts, and a key that is not assigned keeps its value. -/
theorem find_overlay (p : Properties) (assignments : WriteLog Str Str) (key : Str) :
    (p.overlay assignments).find key = (assignments.last key).or (p.find key) := by
  induction assignments using List.reverseRecOn with
  | nil => simp
  | append_singleton assignments assignment ih =>
      obtain ⟨key', value⟩ := assignment
      rw [overlay_append, overlay_cons, overlay_nil]
      by_cases hkey : key = key'
      · rw [hkey, find_setProperty_self, WriteLog.last_append_singleton_self, Option.some_or]
      · rw [find_setProperty_ne _ _ hkey, WriteLog.last_append_singleton_ne _ _ (Ne.symm hkey), ih]

/-! ## What a file sets -/

/-- What the lines of a file set, in order. -/
def fileAssignments (text : Str) : List (Str × Str) :=
  (text.splitOn '\n').filterMap lineAssignment

theorem loadLine_eq (p : Properties) (line : Str) :
    p.loadLine line = p.overlay (lineAssignment line).toList := by
  rw [loadLine]
  cases lineAssignment line <;> rfl

/-- The text before a line break and that after it are read one after the other. -/
theorem fileAssignments_append (text rest : Str) :
    fileAssignments (text ++ '\n' :: rest) = fileAssignments text ++ fileAssignments rest := by
  simp [fileAssignments, List.splitOn, List.splitOnP_append_cons]

/-- A text without line breaks is one line. -/
theorem fileAssignments_line {line : Str} (hline : '\n' ∉ line) :
    fileAssignments line = (lineAssignment line).toList := by
  rw [fileAssignments, List.splitOn_eq_singleton hline]
  cases h : lineAssignment line with
  | none => simp [h]
  | some assignment => simp [h]

/-- The loop does what the lines of the file say. -/
theorem loadFrom_eq (p : Properties) {line : Str} (hline : '\n' ∉ line) (input : Str) :
    p.loadFrom line input = p.overlay (fileAssignments (line ++ input)) := by
  induction input generalizing p line with
  | nil => rw [loadFrom, List.append_nil, fileAssignments_line hline, loadLine_eq]
  | cons c input ih =>
      rw [loadFrom]
      split
      next hbreak =>
        rw [hbreak, fileAssignments_append, fileAssignments_line hline, overlay_append,
          ← loadLine_eq, ih _ List.not_mem_nil, List.nil_append]
      next hchar =>
        have hmore : '\n' ∉ line ++ [c] := by simp [hline, Ne.symm hchar]
        rw [ih p hmore, List.append_assoc, List.singleton_append]

/-- `Load` of a file that could be opened. -/
theorem load_eq (p : Properties) (text : Str) :
    p.load (some text) = .ok (p.overlay (fileAssignments text)) := by
  rw [load, loadFrom_eq p List.not_mem_nil, List.nil_append]

end Properties

end Utils

end YcsbC
