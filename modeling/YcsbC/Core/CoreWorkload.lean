import YcsbC.Core.CounterGenerator
import YcsbC.Core.KeyName
import YcsbC.Foundation.Binary64

/-!
# The workload

`CoreWorkload` as `Init` leaves it, without the random generators.  The generator of
keys is a parameter of `NextTransactionKey`: a function from its state and a random
draw to the number `Next` returns and its new state.  The others are read through the
numbers they return.  Numbers that `Init` reads with `stoi` are `int`s.
-/

namespace YcsbC

/-- `Operation`. -/
inductive Operation where
  | INSERT
  | READ
  | UPDATE
  | SCAN
  | READMODIFYWRITE
deriving DecidableEq, Repr

/-- The properties that `Init` and `main` read.  The counts of records and operations
have no default. -/
structure Properties where
  /-- `dbname`, the empty text when it is not set. -/
  dbname : Str := []
  /-- `table`. -/
  table : Str := "usertable".toList
  /-- `fieldcount`. -/
  fieldCount : Int32 := 10
  /-- `readallfields`. -/
  readAllFields : Bool := true
  /-- `writeallfields`. -/
  writeAllFields : Bool := false
  /-- `zeropadding`. -/
  zeroPadding : Int32 := 1
  /-- `insertorder`. -/
  insertOrder : Str := "hashed".toList
  /-- `insertstart`. -/
  insertStart : Int32 := 0
  /-- `recordcount`. -/
  recordCount : Int32
  /-- `operationcount`. -/
  operationCount : Int32
  /-- `threadcount`. -/
  threadCount : Int32 := 1
  /-- `requestdistribution`. -/
  requestDistribution : Str := "uniform".toList
  /-- `insertproportion`, a `double`. -/
  insertProportion : Binary64 := 0

/-- `CoreWorkload`. -/
structure CoreWorkload where
  /-- `table_name_`. -/
  tableName : Str
  /-- `field_count_`. -/
  fieldCount : Int32
  /-- `read_all_fields_`. -/
  readAllFields : Bool
  /-- `write_all_fields_`. -/
  writeAllFields : Bool
  /-- `key_generator_`. -/
  keyGenerator : CounterGenerator
  /-- `insert_key_sequence_`. -/
  insertKeySequence : CounterGenerator
  /-- `ordered_inserts_`. -/
  orderedInserts : Bool
  /-- `record_count_`. -/
  recordCount : UInt64
  /-- `zero_padding_`. -/
  zeroPadding : Int32
deriving DecidableEq, Repr

namespace CoreWorkload

/-- `handleRocksdb`. -/
def handleRocksdb (wl : CoreWorkload) : CoreWorkload :=
  { wl with fieldCount := 1, readAllFields := true, writeAllFields := true }

/-- `Init`. -/
def init (p : Properties) : CoreWorkload :=
  let wl : CoreWorkload :=
    { tableName := p.table
      fieldCount := p.fieldCount
      readAllFields := p.readAllFields
      writeAllFields := p.writeAllFields
      keyGenerator := ⟨sizeOfInt p.insertStart⟩
      -- the constructor starts this counter at 3
      insertKeySequence := (⟨3⟩ : CounterGenerator).set (sizeOfInt p.recordCount)
      orderedInserts := p.insertOrder != "hashed".toList
      recordCount := sizeOfInt p.recordCount
      zeroPadding := p.zeroPadding }
  if p.dbname == "rocksdb".toList then wl.handleRocksdb else wl

@[simp] theorem tableName_init (p : Properties) : (init p).tableName = p.table := by
  unfold init
  split <;> rfl

@[simp] theorem keyGenerator_init (p : Properties) :
    (init p).keyGenerator = ⟨sizeOfInt p.insertStart⟩ := by
  unfold init
  split <;> rfl

@[simp] theorem insertKeySequence_init (p : Properties) :
    (init p).insertKeySequence = ⟨sizeOfInt p.recordCount⟩ := by
  unfold init
  split <;> rfl

@[simp] theorem recordCount_init (p : Properties) :
    (init p).recordCount = sizeOfInt p.recordCount := by
  unfold init
  split <;> rfl

/-- The bound of `NextTransactionKey`. -/
theorem toNat_last_init {p : Properties} (hrecords : 1 ≤ p.recordCount.toInt) :
    ((init p).insertKeySequence.last.toNat : ℤ) = p.recordCount.toInt - 1 := by
  have hcount := toNat_sizeOfInt (n := p.recordCount) (by omega)
  rw [insertKeySequence_init, CounterGenerator.last, UInt64.toNat_sub_of_le _ _ (by
    rw [UInt64.le_iff_toNat_le, hcount, UInt64.toNat_one]
    omega), hcount, UInt64.toNat_one]
  omega

/-- An update that does not write all fields draws one of them, as no property changes
the field count then. -/
theorem fieldCount_init {p : Properties} (hwrite : (init p).writeAllFields = false) :
    (init p).fieldCount = p.fieldCount := by
  revert hwrite
  unfold init
  split
  · exact nofun
  · exact fun _ => rfl

/-- RocksDB has one field. -/
theorem fieldCount_init_rocksdb {p : Properties} (hdbname : p.dbname = "rocksdb".toList) :
    (init p).fieldCount = 1 := by
  unfold init
  rw [hdbname]
  rfl

/-! ## Keys -/

/-- The text of a key number under this workload's settings. -/
def keyName (wl : CoreWorkload) (keyNum : UInt64) : Str :=
  buildKeyName wl.orderedInserts wl.zeroPadding keyNum

/-- The number `NextSequenceKey` takes, and the workload after it. -/
def nextSequenceKeyNum (wl : CoreWorkload) : UInt64 × CoreWorkload :=
  let (keyNum, keyGenerator) := wl.keyGenerator.next
  (keyNum, { wl with keyGenerator := keyGenerator })

/-- `NextSequenceKey`. -/
def nextSequenceKey (wl : CoreWorkload) : Str × CoreWorkload :=
  let (keyNum, wl') := wl.nextSequenceKeyNum
  (wl.keyName keyNum, wl')

/-- The test on which the loop of `NextTransactionKey` draws again. -/
def rejects (wl : CoreWorkload) (keyNum : UInt64) : Bool :=
  keyNum > wl.insertKeySequence.last

section NextTransactionKey

variable {χ δ : Type*} (next : χ → δ → Option (UInt64 × χ))

/-- The loop of `NextTransactionKey` on the random draws given: the key number it ends
with and the state of `key_chooser_` after it, if these draws end it. -/
def nextTransactionKeyNum (wl : CoreWorkload) : χ → List δ → Option (UInt64 × χ)
  | _, [] => none
  | keyChooser, draw :: draws =>
      (next keyChooser draw).bind fun (keyNum, keyChooser') =>
        if wl.rejects keyNum then wl.nextTransactionKeyNum keyChooser' draws
        else some (keyNum, keyChooser')

/-- `NextTransactionKey`. -/
def nextTransactionKey (wl : CoreWorkload) (keyChooser : χ) (draws : List δ) :
    Option (Str × χ) :=
  (wl.nextTransactionKeyNum next keyChooser draws).map fun (keyNum, keyChooser') =>
    (wl.keyName keyNum, keyChooser')

variable {next}

/-- The loop ends with a number that the generator returned, from a state the loop
reached, and that is not rejected.  `I` is any property the generator keeps. -/
theorem nextTransactionKeyNum_eq_some {wl : CoreWorkload} {I : χ → Prop}
    (hnext : ∀ keyChooser draw keyNum keyChooser', I keyChooser →
      next keyChooser draw = some (keyNum, keyChooser') → I keyChooser')
    {keyChooser keyChooser' : χ} {draws : List δ} {keyNum : UInt64} (hI : I keyChooser)
    (hloop : wl.nextTransactionKeyNum next keyChooser draws = some (keyNum, keyChooser')) :
    I keyChooser' ∧ keyNum ≤ wl.insertKeySequence.last ∧
      ∃ g draw, I g ∧ next g draw = some (keyNum, keyChooser') := by
  induction draws generalizing keyChooser with
  | nil => cases hloop
  | cons draw draws ih =>
      rw [nextTransactionKeyNum, Option.bind_eq_some_iff] at hloop
      obtain ⟨⟨drawn, g⟩, hdraw, hrest⟩ := hloop
      have hg := hnext _ _ _ _ hI hdraw
      dsimp only at hrest
      split at hrest
      · exact ih hg hrest
      · rename_i hrejects
        cases hrest
        rw [rejects, decide_eq_true_eq, gt_iff_lt, UInt64.not_lt] at hrejects
        exact ⟨hg, hrejects, _, _, hI, hdraw⟩

end NextTransactionKey

/-! ## Fields and values -/

/-- What one value of a record is drawn from: the length from `field_len_generator_`
and the result of `rand()`. -/
structure ValueDraw where
  /-- `field_len_generator_->Next()`. -/
  length : UInt64
  /-- The result of `rand()` in `RandomPrintChar`. -/
  rand : ℕ

/-- The value appended to a pair. -/
def ValueDraw.value (draw : ValueDraw) : Str :=
  List.replicate draw.length.toNat (Utils.randomPrintChar draw.rand)

/-- The greatest number that `field_chooser_` draws, which `Init` makes before it looks
for RocksDB.  It draws from 0 on. -/
def maxField (p : Properties) : UInt64 := sizeOfInt (p.fieldCount - 1)

theorem toNat_maxField {p : Properties} (hfields : 1 ≤ p.fieldCount.toInt) :
    ((maxField p).toNat : ℤ) = p.fieldCount.toInt - 1 := by
  have hpred : (p.fieldCount - 1).toInt = p.fieldCount.toInt - 1 :=
    Int32.toInt_sub_of_le _ _ (by decide) (Int32.le_iff_toInt_le.mpr hfields)
  rw [maxField, toNat_sizeOfInt (by omega), hpred, Int.toNat_of_nonneg (by omega)]

/-- `NextFieldName`, on the number `field_chooser_->Next()` returns. -/
def nextFieldName (draw : UInt64) : Str := "field".toList ++ toStr draw.toNat

/-- `BuildValues`, on the draws of the `i`-th turn of its loop. -/
def buildValues (wl : CoreWorkload) (draw : ℕ → ValueDraw) : List (Str × Str) :=
  (List.range wl.fieldCount.toInt.toNat).map fun i =>
    ("field".toList ++ toStr i, (draw i).value)

/-- `BuildUpdate`. -/
def buildUpdate (field : UInt64) (draw : ValueDraw) : List (Str × Str) :=
  [(nextFieldName field, draw.value)]

end CoreWorkload

end YcsbC
