import YcsbC.Core.DiscreteGenerator
import YcsbC.Core.LengthGenerators
import YcsbC.Core.Properties

/-!
# The settings that `Init` reads

The values of properties are texts.  `Init` reads numbers in them with `std::stoi` and
`std::stod`, and flags with `StrToBool`, each of which throws for a text that it cannot read.
What `std::stod` reads is a parameter here.

`Init` makes the generator of field lengths before it reads the rest of its settings, so
they are read in two parts.  With a number of records and no other property, every other
setting has its default (`read_recordsOnly`).
-/

namespace YcsbC

/-- Why `Init` does not return. -/
inductive InitStop where
  /-- `std::invalid_argument`. -/
  | invalidArgument
  /-- `std::out_of_range`. -/
  | outOfRange
  /-- `utils::Exception`. -/
  | exception (message : Str)
  /-- A failed `assert`. -/
  | assertion
deriving DecidableEq, Repr

/-- A sign at the start of a text, if there is one, and what follows it. -/
def signOf : Str → Bool × Str
  | '-' :: rest => (true, rest)
  | '+' :: rest => (false, rest)
  | rest => (false, rest)

/-- `std::stoi`, which ignores what follows the number. -/
def stoi (str : Str) : Except InitStop Int32 :=
  let (negative, rest) := signOf (str.dropWhile Utils.isSpace)
  let digits := rest.takeWhile Char.isDigit
  let magnitude := Nat.ofDigitChars 10 digits 0
  let n : ℤ := if negative then -magnitude else magnitude
  if digits.isEmpty then .error .invalidArgument
  else if -2 ^ 31 ≤ n ∧ n < 2 ^ 31 then .ok (Int32.ofInt n)
  else .error .outOfRange

/-- `StrToBool`. -/
def Utils.strToBool (str : Str) : Except InitStop Bool :=
  let str := str.map Char.toLower
  if str = "true".toList ∨ str = "1".toList then .ok true
  else if str = "false".toList ∨ str = "0".toList then .ok false
  else .error (.exception ("Invalid bool string: ".toList ++ str))

/-- The settings that are read before the generator of field lengths is made. -/
structure FieldSettings where
  /-- `fieldcount`. -/
  fieldCount : Int32
  /-- `field_len_dist`. -/
  fieldLenDist : Str
  /-- `fieldlength`. -/
  fieldLength : Int32
deriving DecidableEq, Repr

/-- The first statements of `Init` and of `GetFieldLenGenerator`. -/
def FieldSettings.read (p : Utils.Properties) : Except InitStop FieldSettings := do
  let fieldCount ← stoi (p.getProperty "fieldcount".toList "10".toList)
  let fieldLenDist := p.getProperty "field_len_dist".toList "constant".toList
  let fieldLength ← stoi (p.getProperty "fieldlength".toList "100".toList)
  return { fieldCount, fieldLenDist, fieldLength }

/-- The settings of a workload. -/
structure Settings where
  /-- Those of keys, records and transactions. -/
  workload : Properties
  /-- Those of lengths. -/
  lengths : LengthProperties
  /-- Those of operations. -/
  proportions : Proportions Binary64

namespace Settings

/-- The settings that are read first. -/
def fields (s : Settings) : FieldSettings where
  fieldCount := s.workload.fieldCount
  fieldLenDist := s.lengths.fieldLenDist
  fieldLength := s.lengths.fieldLength

/-- `op_count`, which only the branch of the zipfian request distribution reads. -/
def readOperationCount (p : Utils.Properties) (requestDistribution : Str) :
    Except InitStop Int32 :=
  if requestDistribution = "zipfian".toList then stoi (p.getProperty "operationcount".toList [])
  else .ok 0

variable (stod : Str → Except InitStop Binary64) (p : Utils.Properties)

/-- What `Init` reads after it has made the generator of field lengths. -/
def readAfter (fields : FieldSettings) : Except InitStop Settings := do
  let read ← stod (p.getProperty "readproportion".toList "0.95".toList)
  let update ← stod (p.getProperty "updateproportion".toList "0.05".toList)
  let insert ← stod (p.getProperty "insertproportion".toList "0.0".toList)
  let scan ← stod (p.getProperty "scanproportion".toList "0.0".toList)
  let readModifyWrite ← stod (p.getProperty "readmodifywriteproportion".toList "0.0".toList)
  -- without a default `GetProperty` gives the empty text, in which there is no number
  let recordCount ← stoi (p.getProperty "recordcount".toList [])
  let requestDistribution := p.getProperty "requestdistribution".toList "uniform".toList
  let zeroPadding ← stoi (p.getProperty "zeropadding".toList "1".toList)
  let maxScanLength ← stoi (p.getProperty "maxscanlength".toList "1000".toList)
  let scanLengthDistribution := p.getProperty "scanlengthdistribution".toList "uniform".toList
  let insertStart ← stoi (p.getProperty "insertstart".toList "0".toList)
  let readAllFields ← Utils.strToBool (p.getProperty "readallfields".toList "true".toList)
  let writeAllFields ← Utils.strToBool (p.getProperty "writeallfields".toList "false".toList)
  let operationCount ← readOperationCount p requestDistribution
  return {
    workload := {
      dbname := p.getProperty "dbname".toList []
      table := p.getProperty "table".toList "usertable".toList
      fieldCount := fields.fieldCount
      readAllFields
      writeAllFields
      zeroPadding
      insertOrder := p.getProperty "insertorder".toList "hashed".toList
      insertStart
      recordCount
      operationCount
      requestDistribution
      insertProportion := insert }
    lengths := {
      fieldLenDist := fields.fieldLenDist
      fieldLength := fields.fieldLength
      maxScanLength
      scanLengthDistribution }
    proportions := { read, update, insert, scan, readModifyWrite } }

/-- The settings in the texts of the properties. -/
def read : Except InitStop Settings := do
  let fields ← FieldSettings.read p
  readAfter stod p fields

end Settings

/-! ## What is read -/

/-- A computation returns exactly when each of its two parts does. -/
theorem InitStop.bind_eq_ok {α β : Type} {x : Except InitStop α} {f : α → Except InitStop β}
    {b : β} : (x >>= f) = .ok b ↔ ∃ a, x = .ok a ∧ f a = .ok b := by
  constructor
  · intro hbind
    cases x with
    | error stop => cases hbind
    | ok a => exact ⟨a, rfl, hbind⟩
  · rintro ⟨a, rfl, hrest⟩
    exact hrest

theorem InitStop.map_eq_ok {α β : Type} {x : Except InitStop α} {f : α → β} {b : β}
    (hmap : x.map f = .ok b) : ∃ a, x = .ok a ∧ f a = b := by
  cases x with
  | error stop => cases hmap
  | ok a =>
      cases hmap
      exact ⟨a, rfl, rfl⟩

theorem Utils.isSpace_of_isDigit {c : Char} (hc : c.isDigit = true) : isSpace c = false := by
  rw [isSpace, decide_eq_false_iff_not]
  intro hmem
  simp only [List.mem_cons, List.not_mem_nil, or_false] at hmem
  rcases hmem with rfl | rfl | rfl | rfl | rfl | rfl <;> cases hc

theorem signOf_of_isDigit {c : Char} (hc : c.isDigit = true) (rest : Str) :
    signOf (c :: rest) = (false, c :: rest) := by
  unfold signOf
  split
  · rename_i heq
    cases heq
    cases hc
  · rename_i heq
    cases heq
    cases hc
  · rfl

/-- `stoi` reads the number that `to_string` prints. -/
theorem stoi_toStr {n : ℕ} (hn : n < 2 ^ 31) : stoi (toStr n) = .ok (Int32.ofInt n) := by
  have hdigits : ∀ c ∈ toStr n, c.isDigit = true := fun c hc =>
    Nat.isDigit_of_mem_toDigits (by decide) (by decide) hc
  obtain ⟨c, rest, htext⟩ : ∃ c rest, toStr n = c :: rest :=
    List.exists_cons_of_ne_nil Nat.toDigits_ne_nil
  have hvalue : Nat.ofDigitChars 10 (toStr n) 0 = n := Nat.ofDigitChars_ten_toDigits
  rw [htext] at hdigits hvalue ⊢
  have hc : c.isDigit = true := hdigits c List.mem_cons_self
  have hspace : (c :: rest).dropWhile Utils.isSpace = c :: rest :=
    List.dropWhile_cons_of_neg (by simp [Utils.isSpace_of_isDigit hc])
  have htake : (c :: rest).takeWhile Char.isDigit = c :: rest :=
    List.takeWhile_eq_self_iff.mpr hdigits
  rw [stoi, hspace, signOf_of_isDigit hc]
  simp only [htake, hvalue]
  rw [if_neg (by simp), if_pos (by simp; omega)]
  rfl

namespace Settings

/-- The settings that were read first are kept. -/
theorem fields_of_readAfter {stod : Str → Except InitStop Binary64} {p : Utils.Properties}
    {fields : FieldSettings} {s : Settings} (hread : readAfter stod p fields = .ok s) :
    s.fields = fields := by
  unfold readAfter at hread
  repeat obtain ⟨_, -, hread⟩ := InitStop.bind_eq_ok.mp hread
  cases hread
  rfl

/-! ## The defaults -/

/-- What `std::stod` reads in digits with a point between them, as in the defaults of the
proportions: the number that is nearest to the decimal. -/
def stodOfDecimal (text : Str) : Except InitStop Binary64 :=
  let whole := text.takeWhile Char.isDigit
  let fraction := (text.drop (whole.length + 1)).takeWhile Char.isDigit
  if whole.isEmpty then .error .invalidArgument
  else .ok (.ofRat (Nat.ofDigitChars 10 (whole ++ fraction) 0 / 10 ^ fraction.length))

/-- The properties with a number of records and no others. -/
def recordsOnly (recordCount : Str) : Utils.Properties :=
  Utils.Properties.empty.setProperty "recordcount".toList recordCount

theorem getProperty_recordsOnly (recordCount defaultValue : Str) :
    (recordsOnly recordCount).getProperty "recordcount".toList defaultValue = recordCount := by
  rw [Utils.Properties.getProperty, recordsOnly, Utils.Properties.find_setProperty_self]
  rfl

theorem getProperty_recordsOnly_ne {key : Str} (recordCount : Str)
    (hkey : key ≠ "recordcount".toList) (defaultValue : Str) :
    (recordsOnly recordCount).getProperty key defaultValue = defaultValue := by
  rw [Utils.Properties.getProperty, recordsOnly, Utils.Properties.find_setProperty_ne _ _ hkey,
    Utils.Properties.find_empty]
  rfl

/-- Every other setting has its default. -/
theorem read_recordsOnly {n : ℕ} (hn : n < 2 ^ 31) :
    read stodOfDecimal (recordsOnly (toStr n)) = .ok
      { workload := { recordCount := Int32.ofInt n, operationCount := 0 }
        lengths := {}
        proportions := ⟨.ofRat (19 / 20), .ofRat (1 / 20), 0, 0, 0⟩ } := by
  have hints : stoi "10".toList = .ok 10 ∧ stoi "100".toList = .ok 100 ∧
      stoi "1".toList = .ok 1 ∧ stoi "1000".toList = .ok 1000 ∧ stoi "0".toList = .ok 0 := by
    decide +kernel
  have hflags : Utils.strToBool "true".toList = .ok true ∧
      Utils.strToBool "false".toList = .ok false := by
    decide +kernel
  have hproportions : stodOfDecimal "0.95".toList = .ok (.ofRat (19 / 20)) ∧
      stodOfDecimal "0.05".toList = .ok (.ofRat (1 / 20)) ∧
      stodOfDecimal "0.0".toList = .ok 0 := by
    decide +kernel
  have huniform : readOperationCount (recordsOnly (toStr n)) "uniform".toList = .ok 0 := by
    rw [readOperationCount, if_neg (by decide)]
  rw [read, FieldSettings.read]
  simp (disch := decide) only [readAfter, getProperty_recordsOnly_ne, getProperty_recordsOnly,
    stoi_toStr hn, hints, hflags, hproportions, huniform]
  rfl

end Settings

end YcsbC
