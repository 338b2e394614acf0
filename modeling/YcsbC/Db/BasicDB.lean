import YcsbC.Core.ClientSimulation
import YcsbC.Foundation.PrintedNumber
import YcsbC.Foundation.SeparatedWords

/-!
# The basic database

`BasicDB` stores nothing: it prints a line for each call, under a mutex, and returns 0.
The calls can be read off what it has printed (`parseTrace`), if their tables, keys,
fields and values are words, without blanks or line breaks, and the fields of their
pairs are without `=` (`parseTrace_performed`).
-/

namespace YcsbC

/-- `BasicDB`, by what it has printed to `cout`. -/
structure BasicDB where
  /-- The text. -/
  cout : Str

namespace BasicDB

/-! ## What it prints -/

/-- A line of `cout`. -/
def print (db : BasicDB) (line : Str) : BasicDB := ⟨db.cout ++ line ++ ['\n']⟩

/-- An `int` on a stream. -/
def printedInt (n : ℤ) : Str := PrintedNumber.sign (n < 0) ++ toStr n.natAbs

/-- The end of a line of `Read` and `Scan`. -/
def printedFields : Option (List Str) → Str
  | some fields => " [ ".toList ++ (fields.flatMap fun f => f ++ " ".toList) ++ "]".toList
  | none => " < all fields >".toList

/-- The pairs of a line of `Update` and `Insert`. -/
def printedPairs (values : List KVPair) : Str :=
  values.flatMap fun v => v.1 ++ "=".toList ++ v.2 ++ " ".toList

/-- `Init`. -/
def init (db : BasicDB) : BasicDB := db.print "A new thread begins working.".toList

/-- `Read`. -/
def read (db : BasicDB) (table key : Str) (fields : Option (List Str)) :
    ℤ × List KVPair × BasicDB :=
  (0, [], db.print ("READ ".toList ++ table ++ " ".toList ++ key ++ printedFields fields))

/-- `Scan`. -/
def scan (db : BasicDB) (table key : Str) (len : Int32) (fields : Option (List Str)) :
    ℤ × List (List KVPair) × BasicDB :=
  (0, [], db.print ("SCAN ".toList ++ table ++ " ".toList ++ key ++ " ".toList ++
    printedInt len.toInt ++ printedFields fields))

/-- `Update`. -/
def update (db : BasicDB) (table key : Str) (values : List KVPair) : ℤ × BasicDB :=
  (0, db.print ("UPDATE ".toList ++ table ++ " ".toList ++ key ++ " [ ".toList ++
    printedPairs values ++ "]".toList))

/-- `Insert`. -/
def insert (db : BasicDB) (table key : Str) (values : List KVPair) : ℤ × BasicDB :=
  (0, db.print ("INSERT ".toList ++ table ++ " ".toList ++ key ++ " [ ".toList ++
    printedPairs values ++ "]".toList))

/-- `Delete`. -/
def delete (db : BasicDB) (table key : Str) : ℤ × BasicDB :=
  (0, db.print ("DELETE ".toList ++ table ++ " ".toList ++ key))

/-- The database as its clients see it. -/
def asDB : DB BasicDB where
  read db table key fields := some (db.read table key fields)
  scan db table key len fields := some (db.scan table key len fields)
  update db table key values := some (db.update table key values)
  insert db table key values := some (db.insert table key values)

/-- A call. -/
def perform (db : BasicDB) : DBCall → BasicDB
  | .init => db.init
  | .read table key fields => (db.read table key fields).2.2
  | .scan table key len fields => (db.scan table key len fields).2.2
  | .update table key values => (db.update table key values).2
  | .insert table key values => (db.insert table key values).2
  | .delete table key => (db.delete table key).2

/-! ## Reading it back -/

/-- What stands between `[` and `]`. -/
def bracketed (words : List Str) : Option (List Str) :=
  match words with
  | ['['] :: words => if words.getLast? = some [']'] then some words.dropLast else none
  | _ => none

/-- The fields of a `Read` or `Scan`. -/
def parseFields (words : List Str) : Option (Option (List Str)) :=
  if words = ["<".toList, "all".toList, "fields".toList, ">".toList] then some none
  else (bracketed words).map some

/-- A field and its value. -/
def parsePair (word : Str) : Option KVPair :=
  match word.span (· != '=') with
  | (_, []) => none
  | (field, _ :: value) => some (field, value)

/-- The length of a `Scan`. -/
def parseInt : Str → Int32
  | '-' :: digits => Int32.ofInt (-(Nat.ofDigitChars 10 digits 0 : ℤ))
  | digits => Int32.ofInt (Nat.ofDigitChars 10 digits 0 : ℤ)

/-- What comes after the table and the key. -/
def parseRest (verb table key : Str) (words : List Str) : Option DBCall :=
  if verb = "READ".toList then (parseFields words).map (.read table key)
  else if verb = "SCAN".toList then
    words.head?.bind fun len => (parseFields words.tail).map (.scan table key (parseInt len))
  else if verb = "UPDATE".toList then
    ((bracketed words).bind (List.mapM parsePair)).map (.update table key)
  else if verb = "INSERT".toList then
    ((bracketed words).bind (List.mapM parsePair)).map (.insert table key)
  else if verb = "DELETE".toList then some (.delete table key)
  else none

/-- The words of a call. -/
def parseWords : List Str → Option DBCall
  | verb :: table :: key :: words => parseRest verb table key words
  | _ => none

/-- A line. -/
def parseLine (line : Str) : Option DBCall :=
  if line = "A new thread begins working.".toList then some .init
  else parseWords (line.splitOn ' ')

/-- All lines. -/
def parseTrace (text : Str) : Option (List DBCall) := ((text.splitOn '\n').dropLast).mapM parseLine

/-! ## The words of a line -/

/-- The words of a line, the last one apart. -/
def words : DBCall → List Str × Str
  | .init => (["A".toList, "new".toList, "thread".toList, "begins".toList], "working.".toList)
  | .read table key (some fields) => (["READ".toList, table, key, ['[']] ++ fields, [']'])
  | .read table key none => (["READ".toList, table, key, ['<'], "all".toList, "fields".toList], ['>'])
  | .scan table key len (some fields) =>
      (["SCAN".toList, table, key, printedInt len.toInt, ['[']] ++ fields, [']'])
  | .scan table key len none =>
      (["SCAN".toList, table, key, printedInt len.toInt, ['<'], "all".toList, "fields".toList], ['>'])
  | .update table key values =>
      (["UPDATE".toList, table, key, ['[']] ++ values.map fun v => v.1 ++ '=' :: v.2, [']'])
  | .insert table key values =>
      (["INSERT".toList, table, key, ['[']] ++ values.map fun v => v.1 ++ '=' :: v.2, [']'])
  | .delete table key => (["DELETE".toList, table], key)

/-- The line of a call. -/
def line (call : DBCall) : Str := separated ' ' (words call).1 ++ (words call).2

theorem printedFields_none : printedFields none =
    ' ' :: (separated ' ' [['<'], "all".toList, "fields".toList] ++ ['>']) := by
  unfold printedFields
  decide

theorem printedFields_some (fields : List Str) :
    printedFields (some fields) = ' ' :: (separated ' ' (['['] :: fields) ++ [']']) := by
  unfold printedFields
  simp [separated]

/-- A call prints its line. -/
theorem cout_perform (db : BasicDB) (call : DBCall) :
    (db.perform call).cout = db.cout ++ (line call ++ ['\n']) := by
  cases call with
  | init =>
      have htext : "A new thread begins working.".toList = line .init := by decide
      rw [perform, init, print, htext, List.append_assoc]
  | read table key fields =>
      cases fields with
      | none => simp [perform, read, print, line, words, printedFields_none]
      | some fields => simp [perform, read, print, line, words, printedFields_some]
  | scan table key len fields =>
      cases fields with
      | none => simp [perform, scan, print, line, words, printedFields_none]
      | some fields => simp [perform, scan, print, line, words, printedFields_some]
  | update table key values =>
      simp [perform, update, print, printedPairs, line, words, separated_map]
  | insert table key values =>
      simp [perform, insert, print, printedPairs, line, words, separated_map]
  | delete table key => simp [perform, delete, print, line, words]

/-- A text without blanks and line breaks. -/
def Word (text : Str) : Prop := ' ' ∉ text ∧ '\n' ∉ text

/-- A pair that can be read back. -/
def PrintablePair (pair : KVPair) : Prop := Word pair.1 ∧ '=' ∉ pair.1 ∧ Word pair.2

/-- A call that can be read back. -/
def Printable : DBCall → Prop
  | .init => True
  | .read table key fields | .scan table key _ fields =>
      Word table ∧ Word key ∧ ∀ fs ∈ fields, ∀ f ∈ fs, Word f
  | .update table key values | .insert table key values =>
      Word table ∧ Word key ∧ ∀ pair ∈ values, PrintablePair pair
  | .delete table key => Word table ∧ Word key

instance (text : Str) : Decidable (Word text) := inferInstanceAs (Decidable (_ ∧ _))

theorem word_append {text text' : Str} : Word (text ++ text') ↔ Word text ∧ Word text' := by
  simp only [Word, List.mem_append, not_or]
  tauto

theorem word_cons {c : Char} {text : Str} : Word (c :: text) ↔ (c ≠ ' ' ∧ c ≠ '\n') ∧ Word text := by
  simp only [Word, List.mem_cons, not_or, ne_eq]
  tauto

theorem word_toStr (n : ℕ) : Word (toStr n) := by
  have hdigit : ∀ c ∈ toStr n, c.isDigit := fun c hc =>
    Nat.isDigit_of_mem_toDigits (by decide) (by decide) hc
  exact ⟨fun hmem => absurd (hdigit _ hmem) (by decide),
    fun hmem => absurd (hdigit _ hmem) (by decide)⟩

theorem word_printedInt (n : ℤ) : Word (printedInt n) := by
  refine word_append.mpr ⟨?_, word_toStr _⟩
  cases decide (n < 0) <;> decide

theorem PrintablePair.word {pair : KVPair} (hpair : PrintablePair pair) :
    Word (pair.1 ++ '=' :: pair.2) :=
  word_append.mpr ⟨hpair.1, word_cons.mpr ⟨by decide, hpair.2.2⟩⟩

/-- The words of a line are words. -/
theorem word_of_printable {call : DBCall} (hcall : Printable call) :
    (∀ word ∈ (words call).1, Word word) ∧ Word (words call).2 := by
  have hpairs : ∀ {values : List KVPair}, (∀ pair ∈ values, PrintablePair pair) →
      ∀ word ∈ values.map (fun v => v.1 ++ '=' :: v.2), Word word := by
    intro values hvalues word hmem
    obtain ⟨pair, hpair, rfl⟩ := List.mem_map.mp hmem
    exact (hvalues pair hpair).word
  have hclose : Word [']'] := by decide
  have hgreater : Word ['>'] := by decide
  cases call with
  | init => decide
  | read table key fields =>
      obtain ⟨htable, hkey, hfields⟩ := hcall
      cases fields with
      | none =>
          refine ⟨?_, hgreater⟩
          simp only [words, List.forall_mem_cons]
          exact ⟨by decide, htable, hkey, by decide, by decide, by decide, nofun⟩
      | some fields =>
          refine ⟨?_, hclose⟩
          simp only [words, List.cons_append, List.nil_append, List.forall_mem_cons]
          exact ⟨by decide, htable, hkey, by decide, hfields fields rfl⟩
  | scan table key len fields =>
      obtain ⟨htable, hkey, hfields⟩ := hcall
      cases fields with
      | none =>
          refine ⟨?_, hgreater⟩
          simp only [words, List.forall_mem_cons]
          exact ⟨by decide, htable, hkey, word_printedInt _, by decide, by decide, by decide, nofun⟩
      | some fields =>
          refine ⟨?_, hclose⟩
          simp only [words, List.cons_append, List.nil_append, List.forall_mem_cons]
          exact ⟨by decide, htable, hkey, word_printedInt _, by decide, hfields fields rfl⟩
  | update table key values =>
      obtain ⟨htable, hkey, hvalues⟩ := hcall
      refine ⟨?_, hclose⟩
      simp only [words, List.cons_append, List.nil_append, List.forall_mem_cons]
      exact ⟨by decide, htable, hkey, by decide, hpairs hvalues⟩
  | insert table key values =>
      obtain ⟨htable, hkey, hvalues⟩ := hcall
      refine ⟨?_, hclose⟩
      simp only [words, List.cons_append, List.nil_append, List.forall_mem_cons]
      exact ⟨by decide, htable, hkey, by decide, hpairs hvalues⟩
  | delete table key =>
      obtain ⟨htable, hkey⟩ := hcall
      refine ⟨?_, hkey⟩
      simp only [words, List.forall_mem_cons]
      exact ⟨by decide, htable, nofun⟩

/-! ## The round trip -/

theorem splitOn_line {call : DBCall} (hcall : Printable call) :
    (line call).splitOn ' ' = (words call).1 ++ [(words call).2] := by
  obtain ⟨hwords, hlast⟩ := word_of_printable hcall
  exact splitOn_separated (fun word hmem => (hwords word hmem).1) hlast.1

theorem break_notMem_line {call : DBCall} (hcall : Printable call) : '\n' ∉ line call := by
  obtain ⟨hwords, hlast⟩ := word_of_printable hcall
  intro hmem
  rcases List.mem_append.mp hmem with hmem | hmem
  · obtain ⟨word, hword, hchar | hchar⟩ := mem_separated.mp hmem
    · exact (hwords word hword).2 hchar
    · cases hchar
  · exact hlast.2 hmem

theorem bracketed_cons (inner : List Str) : bracketed (['['] :: (inner ++ [[']']])) = some inner := by
  rw [bracketed, List.getLast?_concat, if_pos rfl, List.dropLast_concat]

theorem parseFields_some (fields : List Str) :
    parseFields (['['] :: (fields ++ [[']']])) = some (some fields) := by
  rw [parseFields, if_neg, bracketed_cons, Option.map_some]
  intro heq
  cases (List.cons.inj heq).1

theorem parsePair_word {pair : KVPair} (hfield : '=' ∉ pair.1) :
    parsePair (pair.1 ++ '=' :: pair.2) = some pair := by
  have hspan : (pair.1 ++ '=' :: pair.2).span (· != '=') = (pair.1, '=' :: pair.2) := by
    rw [List.span_eq_takeWhile_dropWhile, List.takeWhile_append_of_pos, List.dropWhile_append_of_pos]
    · simp
    · intro c hc
      rw [bne_iff_ne]
      rintro rfl
      exact hfield hc
    · intro c hc
      rw [bne_iff_ne]
      rintro rfl
      exact hfield hc
  rw [parsePair, hspan]

theorem parsePairs_words {values : List KVPair} (hvalues : ∀ pair ∈ values, PrintablePair pair) :
    (values.map fun v => v.1 ++ '=' :: v.2).mapM parsePair = some values := by
  induction values with
  | nil => rfl
  | cons pair values ih =>
      rw [List.map_cons, List.mapM_cons, parsePair_word (hvalues pair List.mem_cons_self).2.1,
        ih fun other hmem => hvalues other (List.mem_cons_of_mem _ hmem)]
      rfl

theorem parseInt_printedInt (n : Int32) : parseInt (printedInt n.toInt) = n := by
  have hdigits : Nat.ofDigitChars 10 (toStr n.toInt.natAbs) 0 = n.toInt.natAbs :=
    Nat.ofDigitChars_ten_toDigits
  rw [printedInt]
  by_cases hneg : n.toInt < 0
  · rw [decide_eq_true hneg, PrintedNumber.sign, if_pos rfl, List.singleton_append, parseInt,
      hdigits, Int.ofNat_natAbs_of_nonpos hneg.le, Int.neg_neg, Int32.ofInt_toInt]
  · rw [decide_eq_false hneg, PrintedNumber.sign, if_neg Bool.false_ne_true, List.nil_append]
    have hsign : ∀ digits, toStr n.toInt.natAbs ≠ '-' :: digits := by
      intro digits heq
      have hdigit := Nat.isDigit_of_mem_toDigits (by decide) (by decide)
        (show '-' ∈ Nat.toDigits 10 n.toInt.natAbs by
          rw [show Nat.toDigits 10 n.toInt.natAbs = '-' :: digits from heq]
          exact List.mem_cons_self)
      exact absurd hdigit (by decide)
    rw [parseInt.eq_2 _ hsign, hdigits, Int.natAbs_of_nonneg (by omega), Int32.ofInt_toInt]

/-- A line that does not begin with `A` is not that of `Init`. -/
theorem line_ne_init {call : DBCall} (hcall : Printable call)
    (hhead : ((words call).1 ++ [(words call).2]).head? ≠ some "A".toList) :
    line call ≠ "A new thread begins working.".toList := by
  intro heq
  refine hhead ?_
  rw [← splitOn_line hcall, heq]
  decide

theorem parseFields_none :
    parseFields [['<'], "all".toList, "fields".toList, ['>']] = some none := by decide

/-- The words of a call are read back. -/
theorem parseWords_words {call : DBCall} (hcall : Printable call) (hne : call ≠ .init) :
    parseWords ((words call).1 ++ [(words call).2]) = some call := by
  have hscan : "SCAN".toList ≠ "READ".toList := by decide
  have hupdate : "UPDATE".toList ≠ "READ".toList ∧ "UPDATE".toList ≠ "SCAN".toList := by decide
  have hinsert : "INSERT".toList ≠ "READ".toList ∧ "INSERT".toList ≠ "SCAN".toList ∧
    "INSERT".toList ≠ "UPDATE".toList := by decide
  have hdelete : "DELETE".toList ≠ "READ".toList ∧ "DELETE".toList ≠ "SCAN".toList ∧
    "DELETE".toList ≠ "UPDATE".toList ∧ "DELETE".toList ≠ "INSERT".toList := by decide
  cases call with
  | init => exact absurd rfl hne
  | read table key fields =>
      cases fields with
      | none =>
          change parseRest "READ".toList table key
            [['<'], "all".toList, "fields".toList, ['>']] = _
          rw [parseRest, if_pos rfl, parseFields_none, Option.map_some]
      | some fields =>
          change parseRest "READ".toList table key (['['] :: (fields ++ [[']']])) = _
          rw [parseRest, if_pos rfl, parseFields_some, Option.map_some]
  | scan table key len fields =>
      cases fields with
      | none =>
          change parseRest "SCAN".toList table key
            (printedInt len.toInt :: [['<'], "all".toList, "fields".toList, ['>']]) = _
          rw [parseRest, if_neg hscan, if_pos rfl, List.head?_cons, Option.bind_some,
            List.tail_cons, parseFields_none, Option.map_some, parseInt_printedInt]
      | some fields =>
          change parseRest "SCAN".toList table key
            (printedInt len.toInt :: ['['] :: (fields ++ [[']']])) = _
          rw [parseRest, if_neg hscan, if_pos rfl, List.head?_cons, Option.bind_some,
            List.tail_cons, parseFields_some, Option.map_some, parseInt_printedInt]
  | update table key values =>
      change parseRest "UPDATE".toList table key
        (['['] :: ((values.map fun v => v.1 ++ '=' :: v.2) ++ [[']']])) = _
      rw [parseRest, if_neg hupdate.1, if_neg hupdate.2, if_pos rfl, bracketed_cons,
        Option.bind_some, parsePairs_words hcall.2.2, Option.map_some]
  | insert table key values =>
      change parseRest "INSERT".toList table key
        (['['] :: ((values.map fun v => v.1 ++ '=' :: v.2) ++ [[']']])) = _
      rw [parseRest, if_neg hinsert.1, if_neg hinsert.2.1, if_neg hinsert.2.2, if_pos rfl,
        bracketed_cons, Option.bind_some, parsePairs_words hcall.2.2, Option.map_some]
  | delete table key =>
      change parseRest "DELETE".toList table key [] = _
      rw [parseRest, if_neg hdelete.1, if_neg hdelete.2.1, if_neg hdelete.2.2.1,
        if_neg hdelete.2.2.2, if_pos rfl]

/-- A line is read back. -/
theorem parseLine_line {call : DBCall} (hcall : Printable call) :
    parseLine (line call) = some call := by
  by_cases hinit : call = .init
  · subst hinit
    decide
  · unfold parseLine
    rw [if_neg (line_ne_init hcall ?_), splitOn_line hcall, parseWords_words hcall hinit]
    cases call with
    | init => exact absurd rfl hinit
    | read _ _ fields | scan _ _ _ fields =>
        cases fields with
        | none | some fields => exact fun heq => absurd (Option.some.inj heq) (by decide)
    | update | insert | delete => exact fun heq => absurd (Option.some.inj heq) (by decide)

/-- The calls have been printed, and can be read back. -/
def Printed (db : BasicDB) (calls : List DBCall) : Prop :=
  (∀ call ∈ calls, Printable call) ∧ db.cout = separated '\n' (calls.map line)

theorem printed_nil : Printed ⟨[]⟩ [] := ⟨nofun, rfl⟩

theorem Printed.perform {db : BasicDB} {calls : List DBCall} (hdb : Printed db calls)
    {call : DBCall} (hcall : Printable call) : Printed (db.perform call) (calls ++ [call]) := by
  refine ⟨?_, ?_⟩
  · intro other hmem
    rcases List.mem_append.mp hmem with hmem | hmem
    · exact hdb.1 other hmem
    · rwa [List.mem_singleton.mp hmem]
  · rw [cout_perform, hdb.2, List.map_append, separated_append]
    simp

/-- What is printed is read back. -/
theorem Printed.parseTrace {db : BasicDB} {calls : List DBCall} (hdb : Printed db calls) :
    parseTrace db.cout = some calls := by
  obtain ⟨hcalls, hcout⟩ := hdb
  have hsplit : (separated '\n' (calls.map line) ++ []).splitOn '\n' = calls.map line ++ [[]] :=
    splitOn_separated (by simpa using fun call hcall => break_notMem_line (hcalls call hcall))
      List.not_mem_nil
  rw [List.append_nil] at hsplit
  rw [BasicDB.parseTrace, hcout, hsplit, List.dropLast_concat]
  clear hcout hsplit
  induction calls with
  | nil => rfl
  | cons call calls ih =>
      rw [List.map_cons, List.mapM_cons, parseLine_line (hcalls call List.mem_cons_self),
        ih fun other hmem => hcalls other (List.mem_cons_of_mem _ hmem)]
      rfl

/-- Whatever calls are made, in the order in which they get the mutex, they can be read
off what has been printed, if their tables, keys, fields and values are words. -/
theorem parseTrace_performed {calls : List DBCall} (hcalls : ∀ call ∈ calls, Printable call) :
    parseTrace (calls.foldl perform ⟨[]⟩).cout = some calls := by
  suffices hprinted : Printed (calls.foldl perform ⟨[]⟩) calls from hprinted.parseTrace
  induction calls using List.reverseRecOn with
  | nil => exact printed_nil
  | append_singleton calls call ih =>
      rw [List.foldl_append]
      exact (ih fun other hmem => hcalls other (List.mem_append_left _ hmem)).perform
        (hcalls call (by simp))

/-- A value may contain `=`, and a length may be negative. -/
theorem parseTrace_performed_four :
    parseTrace ([.init, .insert "t".toList "k".toList [("f".toList, "a=b".toList)],
      .scan "t".toList "k".toList (-2) none, .read "t".toList "k".toList (some [])].foldl perform
        ⟨[]⟩).cout =
      some [.init, .insert "t".toList "k".toList [("f".toList, "a=b".toList)],
        .scan "t".toList "k".toList (-2) none, .read "t".toList "k".toList (some [])] := by
  refine parseTrace_performed ?_
  simp only [List.forall_mem_cons]
  refine ⟨trivial, ⟨by decide, by decide, ?_⟩, ⟨by decide, by decide, nofun⟩,
    ⟨by decide, by decide, ?_⟩, nofun⟩
  · rintro _ (_ | ⟨_, ⟨⟩⟩)
    exact ⟨by decide, by decide, by decide⟩
  · rintro _ ⟨⟩
    exact nofun

end BasicDB

end YcsbC
