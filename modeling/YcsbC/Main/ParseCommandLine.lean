import YcsbC.Core.Properties

/-!
# The command line

`ParseCommandLine` goes through the arguments by an index that each branch advances by
hand.  Reading an argument that does not exist is an outcome of its own.
-/

namespace YcsbC

open Utils

/-- How a part of `main` ends. -/
inductive Outcome (α : Type) where
  /-- With a result. -/
  | returned (value : α)
  /-- By `exit`, after printing. -/
  | exited (printed : Str)
  /-- By an exception. -/
  | threw (thrown : Thrown)
  /-- By reading past the end of `argv`. -/
  | outOfBounds

namespace Outcome

variable {α β : Type}

/-- Goes on with the result. -/
def bind (outcome : Outcome α) (next : α → Outcome β) : Outcome β :=
  match outcome with
  | returned value => next value
  | exited printed => exited printed
  | threw thrown => threw thrown
  | outOfBounds => outOfBounds

/-- A message is printed before `exit`. -/
def Reports (outcome : Outcome α) : Prop := ∃ printed, printed ≠ [] ∧ outcome = exited printed

instance : Monad Outcome where
  pure := returned
  bind := bind

@[simp] theorem returned_bind (value : α) (next : α → Outcome β) :
    returned value >>= next = next value := rfl

@[simp] theorem exited_bind (printed : Str) (next : α → Outcome β) :
    exited printed >>= next = exited printed := rfl

@[simp] theorem threw_bind (thrown : Thrown) (next : α → Outcome β) :
    threw thrown >>= next = threw thrown := rfl

@[simp] theorem outOfBounds_bind (next : α → Outcome β) :
    outOfBounds >>= next = outOfBounds := rfl

end Outcome

/-- Lines as `<<` prints them, each with an `endl`. -/
def printLines (lines : List Str) : Str := lines.flatMap (· ++ ['\n'])

/-- `UsageMessage`. -/
def usageMessage (command : Str) : Str :=
  printLines [
    "Usage: ".toList ++ command ++ " [options]".toList,
    "Options:".toList,
    "  pattern: load/run/both".toList,
    "  load: load the database from file".toList,
    "  run: peforms transactions in the previous database".toList,
    "  both: load and run".toList,
    "  'load','run','both' must choose one".toList,
    "  -threads n: execute using n threads (default: 1)".toList,
    ("  -d n: print DB stats in n seconds (default: 0,mean do not print " ++
      "stats info)").toList,
    "  -db dbname: specify the name of the DB to use (default: basic)".toList,
    ("  -P propertyfile: load properties from the given file. Multiple " ++
      "files can").toList,
    ("                   be specified, and will be processed in the order " ++
      "specified").toList]

/-- The variables of `ParseCommandLine`. -/
structure ParseState where
  /-- `argindex`. -/
  argindex : ℕ
  /-- `filename`. -/
  filename : Str
  /-- `props`. -/
  props : Utils.Properties

section

variable (fs : Str → Option Str) (argv : List Str)

/-- `argv[argindex]`. -/
def argAt (argindex : ℕ) : Outcome Str :=
  match argv[argindex]? with
  | none => .outOfBounds
  | some arg => .returned arg

/-- `UsageMessage(argv[0]); exit(0);`. -/
def usage {α : Type} (printed : Str) : Outcome α := do
  let command ← argAt argv 0
  .exited (printed ++ usageMessage command)

/-- The branch of a pattern word. -/
def patternBranch (pattern : Str) (s : ParseState) : Outcome ParseState :=
  .returned
    { s with props := s.props.setProperty "pattern".toList pattern, argindex := s.argindex + 1 }

/-- The branch of an option whose value is the value of a property. -/
def valueBranch (property : Str) (s : ParseState) : Outcome ParseState :=
  let argindex := s.argindex + 1
  if argindex ≥ argv.length then usage argv []
  else do
    let value ← argAt argv argindex
    .returned { s with props := s.props.setProperty property value, argindex := argindex + 1 }

/-- The branch of `-P`. -/
def fileBranch (s : ParseState) : Outcome ParseState :=
  let argindex := s.argindex + 1
  if argindex ≥ argv.length then usage argv []
  else do
    let filename ← argAt argv argindex
    match s.props.load (fs filename) with
    | .ok props => .returned ⟨argindex + 1, filename, props⟩
    -- the only clause is `catch (const string &message)`
    | .error (.string message) => .exited (printLines [message])
    | .error thrown => .threw thrown

/-- A turn of the loop of `ParseCommandLine`. -/
def parseTurn (s : ParseState) : Outcome ParseState := do
  let arg ← argAt argv s.argindex
  if arg = "-threads".toList then valueBranch argv "threadcount".toList s
  else if arg = "load".toList then patternBranch "load".toList s
  else if arg = "run".toList then patternBranch "run".toList s
  else if arg = "both".toList then patternBranch "both".toList s
  else if arg = "-db".toList then valueBranch argv "dbname".toList s
  else if arg = "-dbPath".toList then valueBranch argv "dbPath".toList s
  else if arg = "-dbConfig".toList then valueBranch argv "dbConfig".toList s
  else if arg = "-d".toList then valueBranch argv "duration".toList s
  else if arg = "-host".toList then valueBranch argv "host".toList s
  else if arg = "-port".toList then valueBranch argv "port".toList s
  else if arg = "-slaves".toList then valueBranch argv "slaves".toList s
  else if arg = "-P".toList then fileBranch fs argv s
  else .exited (printLines ["Unknown option '".toList ++ arg ++ "'".toList])

end

/-! ## The grammar -/

/-- The words that say what to run. -/
inductive Pattern where
  | load | run | both
deriving DecidableEq, Repr

/-- The word. -/
def Pattern.word : Pattern → Str
  | load => "load".toList
  | run => "run".toList
  | both => "both".toList

/-- The options whose value is the value of a property. -/
inductive ValueOption where
  | threads | db | dbPath | dbConfig | d | host | port | slaves
deriving DecidableEq, Repr

namespace ValueOption

/-- The option as it is given. -/
def word : ValueOption → Str
  | threads => "-threads".toList
  | db => "-db".toList
  | dbPath => "-dbPath".toList
  | dbConfig => "-dbConfig".toList
  | d => "-d".toList
  | host => "-host".toList
  | port => "-port".toList
  | slaves => "-slaves".toList

/-- The property an option sets. -/
def property : ValueOption → Str
  | threads => "threadcount".toList
  | db => "dbname".toList
  | dbPath => "dbPath".toList
  | dbConfig => "dbConfig".toList
  | d => "duration".toList
  | host => "host".toList
  | port => "port".toList
  | slaves => "slaves".toList

end ValueOption

/-- What an argument starts. -/
inductive Keyword where
  /-- A pattern word. -/
  | pattern (word : Pattern)
  /-- An option with the value of a property. -/
  | value (option : ValueOption)
  /-- `-P`. -/
  | file
deriving DecidableEq, Repr

/-- The word that starts it. -/
def Keyword.word : Keyword → Str
  | pattern word => word.word
  | value option => option.word
  | file => "-P".toList

/-- An argument, or an option with its value. -/
inductive Item where
  /-- A pattern word. -/
  | pattern (word : Pattern)
  /-- An option with the value of a property. -/
  | value (option : ValueOption) (argument : Str)
  /-- A property file. -/
  | file (path : Str)
deriving DecidableEq, Repr

namespace Item

/-- The arguments it is given by. -/
def words : Item → List Str
  | pattern word => [word.word]
  | value option argument => [option.word, argument]
  | file path => ["-P".toList, path]

variable (fs : Str → Option Str)

/-- Its file, if it names one, can be read. -/
def Readable : Item → Prop
  | file path => (fs path).isSome
  | _ => True

/-- What it sets, in order. -/
def assignments : Item → WriteLog Str Str
  | pattern word => [("pattern".toList, word.word)]
  | value option argument => [(option.property, argument)]
  | file path => (fs path).elim [] Properties.fileAssignments

/-- The file it names. -/
def path? : Item → Option Str
  | file path => some path
  | _ => none

end Item

/-! ## One turn of the loop -/

variable {fs : Str → Option Str} {argv : List Str} {s s' : ParseState}

/-- What a turn does on the first argument of something. -/
def Keyword.turn (fs : Str → Option Str) (argv : List Str) (s : ParseState) :
    Keyword → Outcome ParseState
  | pattern word => patternBranch word.word s
  | value option => valueBranch argv option.property s
  | file => fileBranch fs argv s

theorem parseTurn_keyword (keyword : Keyword) (harg : argv[s.argindex]? = some keyword.word) :
    parseTurn fs argv s = keyword.turn fs argv s := by
  rw [parseTurn, argAt, harg]
  cases keyword with
  | pattern word => cases word <;> rfl
  | value option => cases option <;> rfl
  | file => rfl

theorem parseTurn_unknown {arg : Str} (harg : argv[s.argindex]? = some arg)
    (hunknown : ∀ keyword : Keyword, arg ≠ keyword.word) :
    parseTurn fs argv s =
      .exited (printLines ["Unknown option '".toList ++ arg ++ "'".toList]) := by
  rw [parseTurn, argAt, harg]
  -- the tests in their order
  refine (if_neg (hunknown (.value .threads))).trans ?_
  refine (if_neg (hunknown (.pattern .load))).trans ?_
  refine (if_neg (hunknown (.pattern .run))).trans ?_
  refine (if_neg (hunknown (.pattern .both))).trans ?_
  refine (if_neg (hunknown (.value .db))).trans ?_
  refine (if_neg (hunknown (.value .dbPath))).trans ?_
  refine (if_neg (hunknown (.value .dbConfig))).trans ?_
  refine (if_neg (hunknown (.value .d))).trans ?_
  refine (if_neg (hunknown (.value .host))).trans ?_
  refine (if_neg (hunknown (.value .port))).trans ?_
  refine (if_neg (hunknown (.value .slaves))).trans ?_
  exact if_neg (hunknown .file)

/-- The state after something has been read. -/
def ParseState.take (fs : Str → Option Str) (s : ParseState) (item : Item) : ParseState :=
  ⟨s.argindex + item.words.length, item.path?.getD s.filename,
    s.props.overlay (item.assignments fs)⟩

theorem printLines_cons_ne_nil (line : Str) (lines : List Str) :
    printLines (line :: lines) ≠ [] := by
  simp [printLines]

theorem usage_reports {α : Type} (hargv : 0 < argv.length) (printed : Str) :
    (usage argv printed : Outcome α).Reports := by
  cases argv with
  | nil => cases hargv
  | cons command args =>
      refine ⟨printed ++ usageMessage command, ?_, rfl⟩
      exact List.append_ne_nil_of_right_ne_nil _ (printLines_cons_ne_nil _ _)

theorem valueBranch_of_some {property value : Str} (hvalue : argv[s.argindex + 1]? = some value) :
    valueBranch argv property s =
      .returned ⟨s.argindex + 2, s.filename, s.props.setProperty property value⟩ := by
  obtain ⟨hlt, -⟩ := List.getElem?_eq_some_iff.mp hvalue
  refine (if_neg (Nat.not_le.mpr hlt)).trans ?_
  rw [argAt, hvalue]
  rfl

theorem valueBranch_of_none {property : Str} (hvalue : argv[s.argindex + 1]? = none) :
    valueBranch argv property s = usage argv [] := by
  have hle := List.getElem?_eq_none_iff.mp hvalue
  simp [valueBranch, hle]

theorem fileBranch_of_some {path : Str} (hpath : argv[s.argindex + 1]? = some path) :
    fileBranch fs argv s =
      match fs path with
      | none => .threw (.exception "File not open!".toList)
      | some text => .returned ⟨s.argindex + 2, path,
          s.props.overlay (Properties.fileAssignments text)⟩ := by
  obtain ⟨hlt, -⟩ := List.getElem?_eq_some_iff.mp hpath
  refine (if_neg (Nat.not_le.mpr hlt)).trans ?_
  rw [argAt, hpath, Outcome.returned_bind]
  cases fs path with
  | none => rfl
  | some text => rw [Properties.load_eq]

theorem fileBranch_of_none (hpath : argv[s.argindex + 1]? = none) :
    fileBranch fs argv s = usage argv [] := by
  have hle := List.getElem?_eq_none_iff.mp hpath
  simp [fileBranch, hle]

/-- A turn reads what the next arguments say. -/
theorem parseTurn_item {item : Item} (hreadable : item.Readable fs) {rest : List Str}
    (hdrop : argv.drop s.argindex = item.words ++ rest) :
    parseTurn fs argv s = .returned (s.take fs item) := by
  have harg (i : ℕ) : argv[s.argindex + i]? = (item.words ++ rest)[i]? := by
    rw [← hdrop, List.getElem?_drop]
  cases item with
  | pattern word =>
      rw [parseTurn_keyword (.pattern word) (harg 0)]
      rfl
  | value option argument =>
      rw [parseTurn_keyword (.value option) (harg 0), Keyword.turn, valueBranch_of_some (harg 1)]
      rfl
  | file path =>
      obtain ⟨text, htext⟩ := Option.isSome_iff_exists.mp hreadable
      rw [parseTurn_keyword .file (harg 0), Keyword.turn, fileBranch_of_some (harg 1), htext]
      simp [ParseState.take, Item.words, Item.path?, Item.assignments, htext]

theorem drop_eq_cons {i : ℕ} {arg : Str} (harg : argv[i]? = some arg) :
    argv.drop i = arg :: argv.drop (i + 1) := by
  obtain ⟨hlt, rfl⟩ := List.getElem?_eq_some_iff.mp harg
  exact List.drop_eq_getElem_cons hlt

/-- A turn throws at a property file that cannot be read. -/
theorem parseTurn_unreadable {path : Str} {rest : List Str} (hfile : fs path = none)
    (hdrop : argv.drop s.argindex = "-P".toList :: path :: rest) :
    parseTurn fs argv s = .threw (.exception "File not open!".toList) := by
  have harg (i : ℕ) : argv[s.argindex + i]? = ("-P".toList :: path :: rest)[i]? := by
    rw [← hdrop, List.getElem?_drop]
  rw [parseTurn_keyword .file (harg 0), Keyword.turn, fileBranch_of_some (harg 1), hfile]

/-- What a turn can do: it reads what the next arguments say, or it reports that they
say nothing, or it throws at a file that cannot be read. -/
theorem parseTurn_cases (fs : Str → Option Str) (hindex : s.argindex < argv.length) :
    (∃ item : Item, item.Readable fs ∧
      argv.drop s.argindex = item.words ++ argv.drop (s.take fs item).argindex ∧
      parseTurn fs argv s = .returned (s.take fs item)) ∨
    (parseTurn fs argv s).Reports ∨
    ∃ path rest, fs path = none ∧ argv.drop s.argindex = "-P".toList :: path :: rest ∧
      parseTurn fs argv s = .threw (.exception "File not open!".toList) := by
  have hargv : 0 < argv.length := Nat.zero_lt_of_lt hindex
  obtain ⟨arg, harg⟩ : ∃ arg, argv[s.argindex]? = some arg := ⟨_, List.getElem?_eq_getElem hindex⟩
  have hdrop := drop_eq_cons harg
  by_cases hknown : ∃ keyword : Keyword, arg = keyword.word
  · obtain ⟨keyword, rfl⟩ := hknown
    have hturn : parseTurn fs argv s = keyword.turn fs argv s := parseTurn_keyword keyword harg
    cases keyword with
    | pattern word => exact .inl ⟨.pattern word, trivial, hdrop, hturn⟩
    | value option =>
        cases hargument : argv[s.argindex + 1]? with
        | none =>
            right; left
            rw [hturn, Keyword.turn, valueBranch_of_none hargument]
            exact usage_reports hargv []
        | some argument =>
            left
            rw [Keyword.turn, valueBranch_of_some hargument] at hturn
            rw [drop_eq_cons hargument] at hdrop
            exact ⟨.value option argument, trivial, hdrop, hturn⟩
    | file =>
        cases hargument : argv[s.argindex + 1]? with
        | none =>
            right; left
            rw [hturn, Keyword.turn, fileBranch_of_none hargument]
            exact usage_reports hargv []
        | some path =>
            rw [drop_eq_cons hargument] at hdrop
            cases hfile : fs path with
            | none => exact .inr (.inr ⟨path, _, hfile, hdrop, parseTurn_unreadable hfile hdrop⟩)
            | some text =>
                have hreadable : Item.Readable fs (.file path) := by simp [Item.Readable, hfile]
                exact .inl ⟨.file path, hreadable, hdrop, parseTurn_item hreadable hdrop⟩
  · right; left
    rw [parseTurn_unknown harg fun keyword hword => hknown ⟨keyword, hword⟩]
    exact ⟨_, printLines_cons_ne_nil _ _, rfl⟩

theorem Item.words_pos (item : Item) : 0 < item.words.length := by
  cases item with
  | pattern word => exact Nat.one_pos
  | value option argument => exact Nat.two_pos
  | file path => exact Nat.two_pos

/-- A turn that goes on advances `argindex`. -/
theorem argindex_lt_of_parseTurn (hindex : s.argindex < argv.length)
    (hturn : parseTurn fs argv s = .returned s') : s.argindex < s'.argindex := by
  rcases parseTurn_cases fs hindex with
    ⟨item, -, -, htake⟩ | ⟨printed, -, hexit⟩ | ⟨path, rest, -, -, hthrow⟩
  · rw [htake] at hturn
    cases hturn
    exact Nat.lt_add_of_pos_right item.words_pos
  · rw [hexit] at hturn
    cases hturn
  · rw [hthrow] at hturn
    cases hturn

/-! ## The loop -/

/-- The loop of `ParseCommandLine`. -/
def parseLoop (fs : Str → Option Str) (argv : List Str) (s : ParseState) : Outcome ParseState :=
  if _hindex : s.argindex < argv.length then
    match _hturn : parseTurn fs argv s with
    | .returned s' => parseLoop fs argv s'
    | .exited printed => .exited printed
    | .threw thrown => .threw thrown
    | .outOfBounds => .outOfBounds
  else .returned s
termination_by argv.length - s.argindex
decreasing_by
  have hlt := argindex_lt_of_parseTurn _hindex _hturn
  omega

/-- `ParseCommandLine`, with the name it returns and the properties it leaves. -/
def parseCommandLine (fs : Str → Option Str) (argv : List Str) (props : Utils.Properties) :
    Outcome (Str × Utils.Properties) := do
  let s ← parseLoop fs argv ⟨1, [], props⟩
  if s.argindex = 1 ∨ s.argindex ≠ argv.length then usage argv []
  else if s.props.getProperty "pattern".toList [] = [] then
    usage argv (printLines ["Unknown pattern".toList])
  else .returned (s.filename, s.props)

theorem parseLoop_of_lt (hindex : s.argindex < argv.length) :
    parseLoop fs argv s = parseTurn fs argv s >>= parseLoop fs argv := by
  rw [parseLoop, dif_pos hindex]
  split
  next hturn => rw [hturn, Outcome.returned_bind]
  next hturn => rw [hturn, Outcome.exited_bind]
  next hturn => rw [hturn, Outcome.threw_bind]
  next hturn => rw [hturn, Outcome.outOfBounds_bind]

theorem parseLoop_of_le (hindex : argv.length ≤ s.argindex) : parseLoop fs argv s = .returned s := by
  rw [parseLoop, dif_neg (Nat.not_lt.mpr hindex)]

/-- The state after a list of items has been read. -/
def ParseState.takeAll (fs : Str → Option Str) (s : ParseState) (items : List Item) : ParseState :=
  items.foldl (ParseState.take fs) s

theorem takeAll_eq (items : List Item) : s.takeAll fs items =
    ⟨s.argindex + (items.flatMap Item.words).length,
      (items.filterMap Item.path?).getLast?.getD s.filename,
      s.props.overlay (items.flatMap (Item.assignments fs))⟩ := by
  induction items generalizing s with
  | nil => rfl
  | cons item items ih =>
      rw [ParseState.takeAll, List.foldl_cons]
      refine (ih (s := s.take fs item)).trans ?_
      rw [ParseState.take]
      cases hpath : item.path? with
      | none => simp [hpath, Nat.add_assoc]
      | some path => simp [hpath, Nat.add_assoc, List.getLast?_cons]

theorem drop_take {item : Item} {rest : List Str}
    (hdrop : argv.drop s.argindex = item.words ++ rest) :
    argv.drop (s.take fs item).argindex = rest := by
  rw [ParseState.take, ← List.drop_drop, hdrop, List.drop_left]

theorem drop_takeAll {items : List Item} {rest : List Str}
    (hdrop : argv.drop s.argindex = items.flatMap Item.words ++ rest) :
    argv.drop (s.takeAll fs items).argindex = rest := by
  rw [takeAll_eq, ← List.drop_drop, hdrop, List.drop_left]

/-- The loop reads the items that come next, one a turn. -/
theorem parseLoop_items {items : List Item} (hreadable : ∀ item ∈ items, item.Readable fs)
    {rest : List Str} (hdrop : argv.drop s.argindex = items.flatMap Item.words ++ rest) :
    parseLoop fs argv s = parseLoop fs argv (s.takeAll fs items) := by
  induction items generalizing s with
  | nil => rfl
  | cons item items ih =>
      rw [List.flatMap_cons, List.append_assoc] at hdrop
      have hindex : s.argindex < argv.length := by
        have hlength := congrArg List.length hdrop
        have hpos := item.words_pos
        simp at hlength
        omega
      rw [parseLoop_of_lt hindex,
        parseTurn_item (hreadable item List.mem_cons_self) hdrop, Outcome.returned_bind]
      exact ih (fun item' hmem => hreadable item' (List.mem_cons_of_mem _ hmem)) (drop_take hdrop)

/-- What the loop can do: it reads all arguments, or it reports that some say nothing, or
it throws at a file that cannot be read. -/
theorem parseLoop_cases (fs : Str → Option Str) (argv : List Str) (s : ParseState) :
    (∃ items : List Item, (∀ item ∈ items, item.Readable fs) ∧
      argv.drop s.argindex = items.flatMap Item.words ∧
      parseLoop fs argv s = .returned (s.takeAll fs items)) ∨
    (parseLoop fs argv s).Reports ∨
    ∃ (items : List Item) (path : Str) (rest : List Str), (∀ item ∈ items, item.Readable fs) ∧
      fs path = none ∧
      argv.drop s.argindex = items.flatMap Item.words ++ "-P".toList :: path :: rest ∧
      parseLoop fs argv s = .threw (.exception "File not open!".toList) := by
  induction hleft : argv.length - s.argindex using Nat.strong_induction_on generalizing s with
  | _ left ih =>
      rcases Nat.lt_or_ge s.argindex argv.length with hindex | hindex
      · rw [parseLoop_of_lt hindex]
        rcases parseTurn_cases fs hindex with
          ⟨item, hreadable, hdrop, hturn⟩ | ⟨printed, hne, hturn⟩ | ⟨path, rest, hfile, hdrop, hturn⟩
        · rw [hturn, Outcome.returned_bind]
          have hlt := argindex_lt_of_parseTurn hindex hturn
          have hall {items : List Item} (hitems : ∀ item ∈ items, item.Readable fs) :
              ∀ item' ∈ item :: items, item'.Readable fs :=
            List.forall_mem_cons.mpr ⟨hreadable, hitems⟩
          rcases ih _ (by omega) (s.take fs item) rfl with
            ⟨items, hitems, hrest, hloop⟩ | hreports |
            ⟨items, path, rest, hitems, hfile, hrest, hloop⟩
          · rw [hrest] at hdrop
            exact .inl ⟨item :: items, hall hitems, hdrop, hloop⟩
          · exact .inr (.inl hreports)
          · rw [hrest, ← List.append_assoc, ← List.flatMap_cons] at hdrop
            exact .inr (.inr ⟨item :: items, path, rest, hall hitems, hfile, hdrop, hloop⟩)
        · rw [hturn, Outcome.exited_bind]
          exact .inr (.inl ⟨printed, hne, rfl⟩)
        · rw [hturn, Outcome.threw_bind]
          exact .inr (.inr ⟨[], path, rest, by simp, hfile, hdrop, rfl⟩)
      · left
        refine ⟨[], by simp, ?_, parseLoop_of_le hindex⟩
        rw [List.drop_eq_nil_of_le hindex]
        rfl

/-! ## `ParseCommandLine` -/

/-- `ParseCommandLine` when all arguments have been read. -/
theorem parseCommandLine_items {items : List Item} (hreadable : ∀ item ∈ items, item.Readable fs)
    (command : Str) (props : Utils.Properties) :
    parseCommandLine fs (command :: items.flatMap Item.words) props =
      if items = [] then usage (command :: items.flatMap Item.words) []
      else if (props.overlay (items.flatMap (Item.assignments fs))).getProperty
          "pattern".toList [] = [] then
        usage (command :: items.flatMap Item.words) (printLines ["Unknown pattern".toList])
      else .returned ((items.filterMap Item.path?).getLast?.getD [],
        props.overlay (items.flatMap (Item.assignments fs))) := by
  have hdrop : (command :: items.flatMap Item.words).drop 1 =
      items.flatMap Item.words ++ [] := by simp
  have hlength : (items.flatMap Item.words).length = 0 ↔ items = [] := by
    cases items with
    | nil => simp
    | cons item items => simp [item.words_pos.ne']
  have hbad : (1 + (items.flatMap Item.words).length = 1 ∨
      1 + (items.flatMap Item.words).length ≠ (command :: items.flatMap Item.words).length) ↔
      items = [] := by
    rw [List.length_cons, ← hlength]
    omega
  rw [parseCommandLine, parseLoop_items (s := ⟨1, [], props⟩) hreadable hdrop, takeAll_eq,
    parseLoop_of_le (by simp [Nat.add_comm]), Outcome.returned_bind]
  exact if_congr hbad rfl rfl

/-- The arguments that say what to run, and what is set when they have been read. -/
structure Accepted (fs : Str → Option Str) (args : List Str) (props : Utils.Properties)
    (items : List Item) : Prop where
  /-- There are some. -/
  ne_nil : items ≠ []
  /-- They are the arguments. -/
  args_eq : args = items.flatMap Item.words
  /-- Their files can be read. -/
  readable : ∀ item ∈ items, item.Readable fs
  /-- The property `pattern` is not empty then. -/
  pattern : (props.overlay (items.flatMap (Item.assignments fs))).getProperty
    "pattern".toList [] ≠ []

theorem Accepted.parseCommandLine {args : List Str} {props : Utils.Properties} {items : List Item}
    (haccepted : Accepted fs args props items) (command : Str) :
    parseCommandLine fs (command :: args) props =
      .returned ((items.filterMap Item.path?).getLast?.getD [],
        props.overlay (items.flatMap (Item.assignments fs))) := by
  rw [haccepted.args_eq, parseCommandLine_items haccepted.readable, if_neg haccepted.ne_nil,
    if_neg haccepted.pattern]

/-- What `ParseCommandLine` can do: it accepts the arguments, or it reports what is wrong,
or it throws at a file that cannot be read. -/
theorem parseCommandLine_cases (fs : Str → Option Str) (command : Str) (args : List Str)
    (props : Utils.Properties) :
    (∃ items, Accepted fs args props items) ∨
    (parseCommandLine fs (command :: args) props).Reports ∨
    ∃ (items : List Item) (path : Str) (rest : List Str), (∀ item ∈ items, item.Readable fs) ∧
      fs path = none ∧ args = items.flatMap Item.words ++ "-P".toList :: path :: rest ∧
      parseCommandLine fs (command :: args) props =
        .threw (.exception "File not open!".toList) := by
  have hargv : 0 < (command :: args).length := Nat.succ_pos _
  rcases parseLoop_cases fs (command :: args) ⟨1, [], props⟩ with
    ⟨items, hreadable, hargs, -⟩ | ⟨printed, hne, hloop⟩ |
    ⟨items, path, rest, hreadable, hfile, hargs, hloop⟩
  · obtain rfl : args = items.flatMap Item.words := hargs
    rw [parseCommandLine_items hreadable]
    by_cases hnil : items = []
    · rw [if_pos hnil]
      exact .inr (.inl (usage_reports hargv _))
    · rw [if_neg hnil]
      by_cases hpattern : (props.overlay (items.flatMap (Item.assignments fs))).getProperty
          "pattern".toList [] = []
      · rw [if_pos hpattern]
        exact .inr (.inl (usage_reports hargv _))
      · exact .inl ⟨items, hnil, rfl, hreadable, hpattern⟩
  · rw [parseCommandLine, hloop]
    exact .inr (.inl ⟨printed, hne, rfl⟩)
  · rw [parseCommandLine, hloop]
    exact .inr (.inr ⟨items, path, rest, hreadable, hfile, hargs, rfl⟩)

/-- `ParseCommandLine` reads no argument that does not exist, and it returns exactly on
the arguments that are one or more items whose files can be read and that leave a
pattern.  The properties are then what the items set, in order, and the name is that of
the last property file. -/
theorem parseCommandLine_eq_returned_iff (fs : Str → Option Str) (command : Str) (args : List Str)
    (props : Utils.Properties) :
    parseCommandLine fs (command :: args) props ≠ .outOfBounds ∧
    ∀ (filename : Str) (props' : Utils.Properties),
      parseCommandLine fs (command :: args) props = .returned (filename, props') ↔
        ∃ items : List Item, items ≠ [] ∧ args = items.flatMap Item.words ∧
          (∀ item ∈ items, item.Readable fs) ∧
          props'.getProperty "pattern".toList [] ≠ [] ∧
          filename = (items.filterMap Item.path?).getLast?.getD [] ∧
          props' = props.overlay (items.flatMap (Item.assignments fs)) := by
  constructor
  · intro hbounds
    rcases parseCommandLine_cases fs command args props with
      ⟨items, haccepted⟩ | ⟨printed, -, hexit⟩ | ⟨items, path, rest, -, -, -, hthrow⟩
    · simp [haccepted.parseCommandLine] at hbounds
    · simp [hexit] at hbounds
    · simp [hthrow] at hbounds
  · intro filename props'
    constructor
    · intro hreturned
      rcases parseCommandLine_cases fs command args props with
        ⟨items, haccepted⟩ | ⟨printed, -, hexit⟩ | ⟨items, path, rest, -, -, -, hthrow⟩
      · rw [haccepted.parseCommandLine] at hreturned
        cases hreturned
        exact ⟨items, haccepted.ne_nil, haccepted.args_eq, haccepted.readable,
          haccepted.pattern, rfl, rfl⟩
      · simp [hexit] at hreturned
      · simp [hthrow] at hreturned
    · rintro ⟨items, hne, hargs, hreadable, hpattern, rfl, rfl⟩
      exact Accepted.parseCommandLine ⟨hne, hargs, hreadable, hpattern⟩ command

end YcsbC
