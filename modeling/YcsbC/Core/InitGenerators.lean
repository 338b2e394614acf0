import YcsbC.Core.InitSettings
import YcsbC.Core.KeyChooser

/-!
# The generators that `Init` makes

`Init` computes the bounds of its generators from `int`s, which it converts to `uint64_t`
before or after it subtracts one.  It throws for a distribution that it does not know, and
the constructor of a zipfian generator asserts the number of its items, but nothing looks at
the counts that uniform generators are made from.

So `Init` returns with settings that it cannot honour: without records, or without fields, a
bound wraps.  `honoured_iff` says which settings it can.
-/

namespace YcsbC

/-- A call of the constructor of a generator. -/
inductive GeneratorCall where
  /-- `ConstGenerator`. -/
  | const (constant : UInt64)
  /-- `UniformGenerator`. -/
  | uniform (min max : UInt64)
  /-- `ZipfianGenerator`. -/
  | zipfian (min max : UInt64)
  /-- `ScrambledZipfianGenerator`. -/
  | scrambledZipfian (numItems : UInt64)
  /-- `SkewedLatestGenerator`. -/
  | skewedLatest (basis : CounterGenerator)
deriving DecidableEq, Repr

namespace GeneratorCall

/-- `num_items_` of the zipfian generator that is made, if one is. -/
def numItems : GeneratorCall → Option UInt64
  | const _ => none
  | uniform _ _ => none
  | zipfian min max => some (max - min + 1)
  | scrambledZipfian numItems => some (numItems - 1 - 0 + 1)
  | skewedLatest basis => some (basis.last - 1 - 0 + 1)

/-- At least 2 and fewer than `kMaxNumItems` items. -/
def ItemsInRange (n : UInt64) : Prop := 2 ≤ n ∧ n < ZipfianGenerator.kMaxNumItems

instance (n : UInt64) : Decidable (ItemsInRange n) := inferInstanceAs (Decidable (_ ∧ _))

/-- The call, which the `assert` of `ZipfianGenerator` ends unless `NDEBUG` is defined.  A
uniform generator is made with any bounds. -/
def make (ndebug : Bool) (call : GeneratorCall) : Except InitStop GeneratorCall :=
  match call.numItems with
  | none => .ok call
  | some n => if ndebug ∨ ItemsInRange n then .ok call else .error .assertion

/-- `GetFieldLenGenerator`. -/
def getFieldLenGenerator (ndebug : Bool) (fields : FieldSettings) :
    Except InitStop GeneratorCall :=
  if fields.fieldLenDist = "constant".toList then
    make ndebug (.const (sizeOfInt fields.fieldLength))
  else if fields.fieldLenDist = "uniform".toList then
    make ndebug (.uniform 1 (sizeOfInt fields.fieldLength))
  else if fields.fieldLenDist = "zipfian".toList then
    make ndebug (.zipfian 1 (sizeOfInt fields.fieldLength))
  else
    .error (.exception ("Unknown field length distribution: ".toList ++ fields.fieldLenDist))

/-- The branches that make `key_chooser_`.  A conversion to `int` that is out of range gives
any number, here `undefined`. -/
def keyChooser (ndebug : Bool) (undefined : Int32) (p : Properties) :
    Except InitStop GeneratorCall :=
  if p.requestDistribution = "uniform".toList then
    make ndebug (.uniform 0 ((CoreWorkload.init p).recordCount - 1))
  else if p.requestDistribution = "zipfian".toList then
    make ndebug (.scrambledZipfian
      ((CoreWorkload.init p).recordCount + sizeOfInt (p.newKeys.getD undefined)))
  else if p.requestDistribution = "latest".toList then
    make ndebug (.skewedLatest (CoreWorkload.init p).insertKeySequence)
  else .error (.exception ("Unknown request distribution: ".toList ++ p.requestDistribution))

/-- The branches that make `scan_len_chooser_`. -/
def scanLenChooser (ndebug : Bool) (p : LengthProperties) : Except InitStop GeneratorCall :=
  if p.scanLengthDistribution = "uniform".toList then
    make ndebug (.uniform 1 (sizeOfInt p.maxScanLength))
  else if p.scanLengthDistribution = "zipfian".toList then
    make ndebug (.zipfian 1 (sizeOfInt p.maxScanLength))
  else
    .error (.exception
      ("Distribution not allowed for scan length: ".toList ++ p.scanLengthDistribution))

end GeneratorCall

/-- What `Init` leaves. -/
structure InitRun where
  /-- The members that are not generators. -/
  workload : CoreWorkload
  /-- `op_chooser_`. -/
  opChooser : DiscreteGenerator Operation Binary64
  /-- `field_len_generator_`. -/
  fieldLenGenerator : GeneratorCall
  /-- `key_chooser_`. -/
  keyChooser : GeneratorCall
  /-- `field_chooser_`. -/
  fieldChooser : GeneratorCall
  /-- `scan_len_chooser_`. -/
  scanLenChooser : GeneratorCall
  /-- `field_chooser_` after `handleRocksdb`, if it is called. -/
  rocksdbFieldChooser : Option GeneratorCall

/-- `Init`, of which `stod` and `undefined` are what the standard library and the hardware
make of a text and of a conversion. -/
def InitRun.init (ndebug : Bool) (undefined : Int32) (stod : Str → Except InitStop Binary64)
    (p : Utils.Properties) : Except InitStop InitRun := do
  let fields ← FieldSettings.read p
  let fieldLenGenerator ← GeneratorCall.getFieldLenGenerator ndebug fields
  let s ← Settings.readAfter stod p fields
  let wl := CoreWorkload.init s.workload
  let keyChooser ← GeneratorCall.keyChooser ndebug undefined s.workload
  let fieldChooser ← GeneratorCall.make ndebug (.uniform 0 (CoreWorkload.maxField s.workload))
  let scanLenChooser ← GeneratorCall.scanLenChooser ndebug s.lengths
  return {
    workload := wl
    opChooser := CoreWorkload.opChooser s.proportions
    fieldLenGenerator
    keyChooser
    fieldChooser
    scanLenChooser
    rocksdbFieldChooser :=
      if s.workload.dbname = "rocksdb".toList then some (.uniform 0 (sizeOfInt (wl.fieldCount - 1)))
      else none }

namespace GeneratorCall

/-! ## Preconditions -/

/-- What the constructor relies on. -/
def Precondition : GeneratorCall → Prop
  | uniform min max => min ≤ max
  | call => ∀ n ∈ call.numItems, ItemsInRange n

/-- The constructor makes a generator with some random numbers. -/
def Succeeds : GeneratorCall → Prop
  | const _ => True
  | uniform min max => ∃ draw, (UniformGenerator.make min max draw).isSome
  | zipfian min max => ∃ draw, (ZipfianGenerator.make min max draw).isSome
  | scrambledZipfian numItems =>
      ∃ draw, (ScrambledZipfianGenerator.ofNumItems numItems draw).isSome
  | skewedLatest basis => ∃ draw draw', (SkewedLatestGenerator.make basis draw draw').isSome

/-- The constructor of `ZipfianGenerator`. -/
theorem exists_isSome_make_iff {min max : UInt64} :
    (∃ draw, (ZipfianGenerator.make min max draw).isSome) ↔ ItemsInRange (max - min + 1) := by
  constructor
  · rintro ⟨draw, hmake⟩
    obtain ⟨g, hmake⟩ := Option.isSome_iff_exists.mp hmake
    have hg := ZipfianGenerator.make_eq_some hmake
    exact ⟨UInt64.le_iff_toNat_le.mpr hg.two_le, UInt64.lt_iff_toNat_lt.mpr hg.lt_max⟩
  · intro hrange
    obtain ⟨g, hmake, -⟩ := ZipfianGenerator.exists_make hrange.1 hrange.2 ⟨0, le_rfl, one_pos⟩
    exact ⟨_, Option.isSome_iff_exists.mpr ⟨g, hmake⟩⟩

/-- The preconditions are exactly what the constructors need. -/
theorem succeeds_iff (call : GeneratorCall) : call.Succeeds ↔ call.Precondition := by
  cases call with
  | const constant => simp [Succeeds, Precondition, numItems]
  | uniform min max =>
      constructor
      · rintro ⟨draw, hmake⟩
        obtain ⟨g, hmake⟩ := Option.isSome_iff_exists.mp hmake
        obtain ⟨⟨value, g'⟩, hnext, -⟩ := Option.map_eq_some_iff.mp hmake
        obtain ⟨hge, hle, -⟩ := UniformGenerator.next_eq_some hnext
        exact UInt64.le_trans hge hle
      · intro hle
        refine ⟨.int min, ?_⟩
        rw [UniformGenerator.make, UniformGenerator.next, if_pos ⟨UInt64.le_refl min, hle⟩]
        rfl
  | zipfian min max => simp [Succeeds, Precondition, numItems, exists_isSome_make_iff]
  | scrambledZipfian n =>
      simp [Succeeds, Precondition, numItems, ScrambledZipfianGenerator.ofNumItems,
        ScrambledZipfianGenerator.make, exists_isSome_make_iff]
  | skewedLatest basis =>
      have hitems : (skewedLatest basis).Precondition ↔ ItemsInRange basis.last := by
        simp [Precondition, numItems]
      rw [hitems]
      constructor
      · rintro ⟨draw, draw', hmake⟩
        obtain ⟨g, hmake⟩ := Option.isSome_iff_exists.mp hmake
        obtain ⟨z, hz, -⟩ := Option.bind_eq_some_iff.mp hmake
        have hz := ZipfianGenerator.ofNumItems_eq_some hz
        exact ⟨hz.two_le, hz.lt_max⟩
      · intro hrange
        obtain ⟨z, hz, hgrown⟩ :=
          ZipfianGenerator.exists_grown hrange.1 hrange.2 ⟨0, le_rfl, one_pos⟩
        -- the constructor calls `Next` once
        obtain ⟨z', hnext, -⟩ := hgrown.nextOf hrange.1 hrange.2 ⟨0, le_rfl, one_pos⟩
        refine ⟨.double ⟨0, le_rfl, one_pos⟩, .double ⟨0, le_rfl, one_pos⟩, ?_⟩
        rw [SkewedLatestGenerator.make, hz, Option.bind_some, SkewedLatestGenerator.next, hnext]
        rfl

/-- The precondition holds, and a uniform generator has `limit` as its greatest number. -/
structure Honours (limit : ℤ) (call : GeneratorCall) : Prop where
  precondition : call.Precondition
  max : ∀ min max, call = .uniform min max → (max.toNat : ℤ) = limit

end GeneratorCall

/-- Nothing that `Init` computes has wrapped, and every generator has what it needs. -/
structure InitRun.Honoured (s : Settings) (run : InitRun) : Prop where
  records : ((run.workload.recordCount - 1).toNat : ℤ) = s.workload.recordCount.toInt - 1
  last : (run.workload.insertKeySequence.last.toNat : ℤ) = s.workload.recordCount.toInt - 1
  fields : ((CoreWorkload.maxField s.workload).toNat : ℤ) = s.workload.fieldCount.toInt - 1
  newKeys : s.workload.requestDistribution = "zipfian".toList → s.workload.newKeys.isSome
  keyChooser : run.keyChooser.Honours (s.workload.recordCount.toInt - 1)
  fieldChooser : run.fieldChooser.Honours (s.workload.fieldCount.toInt - 1)
  scanLenChooser : run.scanLenChooser.Honours s.lengths.maxScanLength.toInt
  fieldLenGenerator : run.fieldLenGenerator.Honours s.lengths.fieldLength.toInt
  rocksdbFieldChooser : ∀ call ∈ run.rocksdbFieldChooser, call.Honours 0
  opChooser : run.opChooser.values ≠ []

/-- A length that is drawn is from 1 on, and a zipfian generator needs two of them. -/
structure LengthsCanBeHonoured (distribution : Str) (max : Int32) : Prop where
  uniform : distribution = "uniform".toList → 1 ≤ max.toInt
  zipfian : distribution = "zipfian".toList → 2 ≤ max.toInt

/-- A number without its fraction is an `int` that makes `records` up to at least two. -/
structure MakesTwoItems (records : ℤ) (x : ℚ) : Prop where
  lt_max : x < 2 ^ 31
  gt : 1 - records < x
  one_le : records = 1 → 1 ≤ x

/-- `insertproportion` is finite, and twice the product that is rounded to a `double` makes
up at least two items. -/
def Properties.NewKeysFit (p : Properties) : Prop :=
  match p.insertProportion with
  | .finite proportion _ =>
      MakesTwoItems p.recordCount.toInt
        (Binary64.round (p.operationCount.toInt * proportion) * 2)
  | _ => False

/-- The settings that `Init` can honour. -/
structure Settings.CanBeHonoured (s : Settings) : Prop where
  records : 1 ≤ s.workload.recordCount.toInt
  fields : 1 ≤ s.workload.fieldCount.toInt
  operation : 0 < s.proportions.read ∨ 0 < s.proportions.update ∨ 0 < s.proportions.insert ∨
    0 < s.proportions.scan ∨ 0 < s.proportions.readModifyWrite
  zipfian : s.workload.requestDistribution = "zipfian".toList → s.workload.NewKeysFit
  latest : s.workload.requestDistribution = "latest".toList → 3 ≤ s.workload.recordCount.toInt
  scanLengths : LengthsCanBeHonoured s.lengths.scanLengthDistribution s.lengths.maxScanLength
  fieldLengths : LengthsCanBeHonoured s.lengths.fieldLenDist s.lengths.fieldLength

/-! ## The number of new keys -/

section Truncate

open Binary64

/-- The conversion drops the fraction, which has to leave it in range. -/
theorem exists_intOfRat_iff {x : ℚ} {m : ℤ} (hm : -2 ^ 31 ≤ m) :
    (∃ n, intOfRat x = some n ∧ m ≤ n.toInt) ↔ x < 2 ^ 31 ∧ m ≤ truncate x := by
  have hlt : truncate x < 2 ^ 31 ↔ x < 2 ^ 31 := by
    rw [truncate]
    split
    · rw [Int.floor_lt]
      norm_num
    · rename_i hneg
      have hceil : ⌈x⌉ ≤ 0 := Int.ceil_le.mpr (by exact_mod_cast (not_le.mp hneg).le)
      refine iff_of_true (by omega) ?_
      linarith [not_le.mp hneg]
  unfold intOfRat
  generalize truncate x = truncated at hlt ⊢
  rw [← hlt]
  constructor
  · rintro ⟨n, hn, hge⟩
    split at hn
    · rename_i hrange
      cases hn
      rw [Int32.toInt_ofInt_of_le hrange.1 hrange.2] at hge
      exact ⟨hrange.2, hge⟩
    · cases hn
  · rintro ⟨hmax, hge⟩
    have hrange : -2 ^ 31 ≤ truncated ∧ truncated < 2 ^ 31 := ⟨hm.trans hge, hmax⟩
    refine ⟨_, if_pos hrange, ?_⟩
    rw [Int32.toInt_ofInt_of_le hrange.1 hrange.2]
    exact hge

/-- Whether a number without its fraction makes `r` up to 2. -/
theorem two_sub_le_truncate_iff {x : ℚ} {r : ℤ} (hr : 1 ≤ r) :
    2 - r ≤ truncate x ↔ 1 - r < x ∧ (r = 1 → 1 ≤ x) := by
  rw [truncate]
  split
  · rename_i hpos
    rcases hr.eq_or_lt with rfl | htwo
    · simp only [Int.le_floor, Int.cast_sub, Int.cast_ofNat, Int.cast_one]
      constructor
      · intro hge
        exact ⟨by linarith, fun _ => by linarith⟩
      · rintro ⟨-, hone⟩
        linarith [hone trivial]
    · have hcast : (2 : ℚ) ≤ r := by exact_mod_cast htwo
      refine iff_of_true ?_ ⟨by linarith, by omega⟩
      linarith [Int.floor_nonneg.mpr hpos]
  · rename_i hneg
    have hceil : 2 - r ≤ ⌈x⌉ ↔ 1 - r < x := by
      rw [← Int.cast_one, ← Int.cast_sub, ← Int.lt_ceil]
      omega
    rw [hceil, iff_self_and]
    rintro hgt rfl
    rw [Int.cast_one, sub_self] at hgt
    exact absurd hgt.le hneg

theorem makesTwoItems_iff {records : ℤ} (hone : 1 ≤ records) (hmax : records < 2 ^ 31) {x : ℚ} :
    MakesTwoItems records x ↔ ∃ n, intOfRat x = some n ∧ 2 - records ≤ n.toInt := by
  rw [exists_intOfRat_iff (by omega), two_sub_le_truncate_iff hone]
  exact ⟨fun h => ⟨h.lt_max, h.gt, h.one_le⟩, fun ⟨hlt, hgt, hone⟩ => ⟨hlt, hgt, hone⟩⟩

end Truncate

theorem Properties.newKeysFit_iff {p : Properties} (hrecords : 1 ≤ p.recordCount.toInt) :
    p.NewKeysFit ↔
      ∃ newKeys, p.newKeys = some newKeys ∧ 2 - p.recordCount.toInt ≤ newKeys.toInt := by
  have hlt := p.operationCount.toInt_lt
  have hge := p.operationCount.le_toInt
  have hnone (hinfinite : ¬ ∃ q hq, p.insertProportion = .finite q hq) : p.newKeys = none := by
    refine Option.eq_none_iff_forall_ne_some.mpr fun n hn => hinfinite ?_
    obtain ⟨_, _, htwice⟩ := Binary64.exists_of_toInt32 hn
    obtain ⟨⟨_, _, hproduct⟩, -⟩ := Binary64.exists_of_mul_eq_finite htwice
    exact (Binary64.exists_of_mul_eq_finite hproduct).2
  rw [NewKeysFit]
  split
  · rename_i proportion hfinite heq
    rw [newKeys, heq, Binary64.toInt32_mul_two (abs_le.mpr (by omega))]
    exact makesTwoItems_iff hrecords p.recordCount.toInt_lt
  · rename_i hinfinite
    rw [hnone fun ⟨q, hq, heq⟩ => hinfinite q hq heq]
    simp

namespace GeneratorCall

/-! ## Numbers of items -/

/-- A conversion wraps exactly when the number is negative. -/
theorem toNat_sizeOfInt_eq_iff {n : Int32} : ((sizeOfInt n).toNat : ℤ) = n.toInt ↔ 0 ≤ n.toInt := by
  have hlt := n.toInt_lt
  have hcast := intCast_sizeOfInt n
  omega

theorem itemsInRange_iff {n : UInt64} : ItemsInRange n ↔ 2 ≤ n.toNat ∧ n.toNat < 2 ^ 40 - 1 := by
  rw [ItemsInRange, UInt64.le_iff_toNat_le, UInt64.lt_iff_toNat_lt]
  rfl

theorem itemsInRange_sizeOfInt {n : Int32} : ItemsInRange (sizeOfInt n) ↔ 2 ≤ n.toInt := by
  have hlt := n.toInt_lt
  have hge := n.le_toInt
  have hitems := intCast_sizeOfInt n
  rw [itemsInRange_iff]
  omega

theorem itemsInRange_add {n k : Int32} (hn : 1 ≤ n.toInt) :
    ItemsInRange (sizeOfInt n + sizeOfInt k) ↔ 2 ≤ n.toInt + k.toInt := by
  have hlt := n.toInt_lt
  have hklt := k.toInt_lt
  have hkge := k.le_toInt
  have hitems := intCast_sizeOfInt n
  have hkitems := intCast_sizeOfInt k
  rw [itemsInRange_iff, UInt64.toNat_add]
  omega

theorem honours_uniform {min max : UInt64} {limit : ℤ} :
    (uniform min max).Honours limit ↔ min ≤ max ∧ (max.toNat : ℤ) = limit := by
  constructor
  · intro h
    exact ⟨h.precondition, h.max _ _ rfl⟩
  · rintro ⟨hle, hmax⟩
    refine ⟨hle, ?_⟩
    rintro _ _ ⟨⟩
    exact hmax

/-- Only uniform generators have a greatest number that is a limit. -/
theorem honours_iff_precondition {call : GeneratorCall} {limit : ℤ}
    (hcall : ∀ min max, call ≠ uniform min max) : call.Honours limit ↔ call.Precondition :=
  ⟨fun h => h.precondition, fun h => ⟨h, fun min max heq => absurd heq (hcall min max)⟩⟩

theorem honours_const {constant : UInt64} {limit : ℤ} : (const constant).Honours limit := by
  simp [honours_iff_precondition, Precondition, numItems]

theorem honours_zipfian {min max : UInt64} {limit : ℤ} :
    (zipfian min max).Honours limit ↔ ItemsInRange (max - min + 1) := by
  simp [honours_iff_precondition, Precondition, numItems]

theorem honours_scrambledZipfian {n : UInt64} {limit : ℤ} :
    (scrambledZipfian n).Honours limit ↔ ItemsInRange n := by
  simp [honours_iff_precondition, Precondition, numItems]

theorem honours_skewedLatest {basis : CounterGenerator} {limit : ℤ} :
    (skewedLatest basis).Honours limit ↔ ItemsInRange basis.last := by
  simp [honours_iff_precondition, Precondition, numItems]

/-! ## The branches -/

theorem make_eq_ok {ndebug : Bool} {call call' : GeneratorCall}
    (hmake : make ndebug call = .ok call') : call' = call := by
  rw [make] at hmake
  split at hmake
  · cases hmake
    rfl
  · split at hmake
    · cases hmake
      rfl
    · cases hmake

section Lengths

variable {distribution : Str} {n : Int32}

/-- A uniform generator of lengths. -/
theorem honours_uniform_one (huniform : distribution = "uniform".toList) :
    (uniform 1 (sizeOfInt n)).Honours n.toInt ↔ LengthsCanBeHonoured distribution n := by
  rw [honours_uniform, huniform]
  constructor
  · rintro ⟨hle, hmax⟩
    rw [UInt64.le_iff_toNat_le, UInt64.toNat_one] at hle
    exact ⟨fun _ => by omega, by simp⟩
  · intro hlengths
    have hlength := hlengths.uniform rfl
    refine ⟨LengthGenerator.one_le_sizeOfInt hlength, ?_⟩
    rw [toNat_sizeOfInt (by omega), Int.toNat_of_nonneg (by omega)]

/-- A zipfian generator of lengths. -/
theorem honours_zipfian_one (hzipfian : distribution = "zipfian".toList) :
    (zipfian 1 (sizeOfInt n)).Honours n.toInt ↔ LengthsCanBeHonoured distribution n := by
  rw [honours_zipfian, UInt64.sub_add_cancel, itemsInRange_sizeOfInt, hzipfian]
  exact ⟨fun hlength => ⟨by simp, fun _ => hlength⟩, fun hlengths => hlengths.zipfian rfl⟩

end Lengths

theorem honours_getFieldLenGenerator {ndebug : Bool} {fields : FieldSettings}
    {call : GeneratorCall} (hmake : getFieldLenGenerator ndebug fields = .ok call) :
    call.Honours fields.fieldLength.toInt ↔
      LengthsCanBeHonoured fields.fieldLenDist fields.fieldLength := by
  rw [getFieldLenGenerator] at hmake
  split at hmake
  · rename_i hconst
    cases make_eq_ok hmake
    rw [hconst]
    exact iff_of_true honours_const ⟨by simp, by simp⟩
  · split at hmake
    · rename_i huniform
      cases make_eq_ok hmake
      exact honours_uniform_one huniform
    · split at hmake
      · rename_i hzipfian
        cases make_eq_ok hmake
        exact honours_zipfian_one hzipfian
      · cases hmake

theorem const_of_getFieldLenGenerator {ndebug : Bool} {fields : FieldSettings} {constant : UInt64}
    (hmake : getFieldLenGenerator ndebug fields = .ok (.const constant)) :
    constant = sizeOfInt fields.fieldLength := by
  rw [getFieldLenGenerator] at hmake
  split at hmake
  · cases make_eq_ok hmake
    rfl
  · split at hmake
    · cases make_eq_ok hmake
    · split at hmake
      · cases make_eq_ok hmake
      · cases hmake

theorem honours_scanLenChooser {ndebug : Bool} {p : LengthProperties} {call : GeneratorCall}
    (hmake : scanLenChooser ndebug p = .ok call) : call.Honours p.maxScanLength.toInt ↔
      LengthsCanBeHonoured p.scanLengthDistribution p.maxScanLength := by
  rw [scanLenChooser] at hmake
  split at hmake
  · rename_i huniform
    cases make_eq_ok hmake
    exact honours_uniform_one huniform
  · split at hmake
    · rename_i hzipfian
      cases make_eq_ok hmake
      exact honours_zipfian_one hzipfian
    · cases hmake

/-- The generator of keys, when there are records. -/
theorem honours_keyChooser {ndebug : Bool} {undefined : Int32} {p : Properties}
    (hrecords : 1 ≤ p.recordCount.toInt) {call : GeneratorCall}
    (hmake : keyChooser ndebug undefined p = .ok call) :
    (p.requestDistribution = "zipfian".toList → p.newKeys.isSome) ∧
        call.Honours (p.recordCount.toInt - 1) ↔
      (p.requestDistribution = "zipfian".toList → p.NewKeysFit) ∧
        (p.requestDistribution = "latest".toList → 3 ≤ p.recordCount.toInt) := by
  have hlast := CoreWorkload.toNat_last_init hrecords
  rw [keyChooser] at hmake
  split at hmake
  · rename_i huniform
    cases make_eq_ok hmake
    have hmax : (uniform 0 ((CoreWorkload.init p).recordCount - 1)).Honours
        (p.recordCount.toInt - 1) := by
      rw [honours_uniform]
      refine ⟨UInt64.zero_le, ?_⟩
      simpa [CounterGenerator.last] using hlast
    rw [huniform]
    exact iff_of_true ⟨by simp, hmax⟩ ⟨by simp, by simp⟩
  · split at hmake
    · rename_i hzipfian
      cases make_eq_ok hmake
      rw [hzipfian, honours_scrambledZipfian, p.newKeysFit_iff hrecords,
        CoreWorkload.recordCount_init, itemsInRange_add hrecords]
      constructor
      · rintro ⟨hsome, hitems⟩
        obtain ⟨newKeys, hnewKeys⟩ := Option.isSome_iff_exists.mp (hsome rfl)
        rw [hnewKeys, Option.getD_some] at hitems
        exact ⟨fun _ => ⟨newKeys, hnewKeys, by omega⟩, by simp⟩
      · rintro ⟨hfit, -⟩
        obtain ⟨newKeys, hnewKeys, hitems⟩ := hfit rfl
        rw [hnewKeys, Option.getD_some]
        exact ⟨fun _ => rfl, by omega⟩
    · split at hmake
      · rename_i hlatest
        cases make_eq_ok hmake
        have hmax := p.recordCount.toInt_lt
        have hitems : ItemsInRange (CoreWorkload.init p).insertKeySequence.last ↔
            3 ≤ p.recordCount.toInt := by
          rw [itemsInRange_iff]
          omega
        rw [hlatest, honours_skewedLatest, hitems]
        exact ⟨fun h => ⟨by simp, fun _ => h.2⟩, fun h => ⟨by simp, h.2 rfl⟩⟩
      · cases hmake

end GeneratorCall

namespace InitRun

open Settings

variable {ndebug : Bool} {undefined : Int32} {stod : Str → Except InitStop Binary64}
  {p : Utils.Properties} {run : InitRun} {s : Settings}

/-! ## What `Init` accepts -/

/-- The members are made from the settings. -/
structure MadeFrom (ndebug : Bool) (undefined : Int32) (s : Settings) (run : InitRun) : Prop where
  workload : run.workload = CoreWorkload.init s.workload
  opChooser : run.opChooser = CoreWorkload.opChooser s.proportions
  fieldLenGenerator : GeneratorCall.getFieldLenGenerator ndebug s.fields = .ok run.fieldLenGenerator
  keyChooser : GeneratorCall.keyChooser ndebug undefined s.workload = .ok run.keyChooser
  fieldChooser : run.fieldChooser = .uniform 0 (CoreWorkload.maxField s.workload)
  scanLenChooser : GeneratorCall.scanLenChooser ndebug s.lengths = .ok run.scanLenChooser
  rocksdbFieldChooser : ∀ call ∈ run.rocksdbFieldChooser, call = .uniform 0 0

/-- What `Init` does when it returns. -/
theorem init_eq_ok (hinit : init ndebug undefined stod p = .ok run) :
    ∃ s, Settings.read stod p = .ok s ∧ MadeFrom ndebug undefined s run := by
  obtain ⟨fields, hfields, hinit⟩ := InitStop.bind_eq_ok.mp hinit
  obtain ⟨fieldLen, hfieldLen, hinit⟩ := InitStop.bind_eq_ok.mp hinit
  obtain ⟨s, hread, hinit⟩ := InitStop.bind_eq_ok.mp hinit
  obtain ⟨key, hkey, hinit⟩ := InitStop.bind_eq_ok.mp hinit
  obtain ⟨field, hfield, hinit⟩ := InitStop.bind_eq_ok.mp hinit
  obtain ⟨scanLen, hscanLen, hinit⟩ := InitStop.bind_eq_ok.mp hinit
  cases hinit
  refine ⟨s, InitStop.bind_eq_ok.mpr ⟨fields, hfields, hread⟩, rfl, rfl, ?_, hkey,
    GeneratorCall.make_eq_ok hfield, hscanLen, ?_⟩
  · rwa [Settings.fields_of_readAfter hread]
  · intro call hcall
    dsimp only at hcall
    split at hcall
    · rename_i hrocksdb
      cases hcall
      rw [CoreWorkload.fieldCount_init_rocksdb hrocksdb]
      rfl
    · cases hcall

/-- The number of the first key is no bound.  It wraps exactly when it is negative. -/
theorem MadeFrom.start_iff (hmade : MadeFrom ndebug undefined s run) :
    (run.workload.keyGenerator.counter.toNat : ℤ) = s.workload.insertStart.toInt ↔
      0 ≤ s.workload.insertStart.toInt := by
  rw [hmade.workload, CoreWorkload.keyGenerator_init]
  exact GeneratorCall.toNat_sizeOfInt_eq_iff

/-- A constant field length is no bound.  It wraps exactly when it is negative. -/
theorem MadeFrom.constant_iff (hmade : MadeFrom ndebug undefined s run) {constant : UInt64}
    (hconst : run.fieldLenGenerator = .const constant) :
    (constant.toNat : ℤ) = s.fields.fieldLength.toInt ↔ 0 ≤ s.fields.fieldLength.toInt := by
  have hmake := hmade.fieldLenGenerator
  rw [hconst] at hmake
  rw [GeneratorCall.const_of_getFieldLenGenerator hmake]
  exact GeneratorCall.toNat_sizeOfInt_eq_iff

/-- `Init` returns with a workload that it can honour exactly when there are a record, a
field and an operation, and each limit is great enough for its distribution. -/
theorem honoured_iff (hinit : init ndebug undefined stod p = .ok run) :
    ∃ s, Settings.read stod p = .ok s ∧ (run.Honoured s ↔ s.CanBeHonoured) := by
  obtain ⟨s, hread, hmade⟩ := init_eq_ok hinit
  refine ⟨s, hread, ?_⟩
  have hscan := GeneratorCall.honours_scanLenChooser hmade.scanLenChooser
  have hfield := GeneratorCall.honours_getFieldLenGenerator hmade.fieldLenGenerator
  constructor
  · intro hrun
    have hrecords : 1 ≤ s.workload.recordCount.toInt := by
      have hnat := hrun.last
      omega
    have hkey := (GeneratorCall.honours_keyChooser hrecords hmade.keyChooser).mp
      ⟨hrun.newKeys, hrun.keyChooser⟩
    refine ⟨hrecords, ?_, ?_, hkey.1, hkey.2, hscan.mp hrun.scanLenChooser,
      hfield.mp hrun.fieldLenGenerator⟩
    · have hnat := hrun.fields
      omega
    · have hvalues := hrun.opChooser
      rwa [hmade.opChooser, CoreWorkload.opChooser_eq, DiscreteGenerator.values_ofEntries,
        CoreWorkload.opEntries_ne_nil_iff] at hvalues
  · intro hs
    have hlast := CoreWorkload.toNat_last_init hs.records
    have hkey := (GeneratorCall.honours_keyChooser hs.records hmade.keyChooser).mpr
      ⟨hs.zipfian, hs.latest⟩
    have hmax := CoreWorkload.toNat_maxField hs.fields
    exact {
      records := by
        rw [hmade.workload, CoreWorkload.recordCount_init]
        simpa [CounterGenerator.last] using hlast
      last := by rw [hmade.workload, hlast]
      fields := hmax
      newKeys := hkey.1
      keyChooser := hkey.2
      fieldChooser := by
        rw [hmade.fieldChooser, GeneratorCall.honours_uniform]
        exact ⟨UInt64.zero_le, hmax⟩
      scanLenChooser := hscan.mpr hs.scanLengths
      fieldLenGenerator := hfield.mpr hs.fieldLengths
      rocksdbFieldChooser := by
        intro call hcall
        rw [hmade.rocksdbFieldChooser call hcall, GeneratorCall.honours_uniform]
        exact ⟨UInt64.le_refl 0, rfl⟩
      opChooser := by
        rw [hmade.opChooser, CoreWorkload.opChooser_eq, DiscreteGenerator.values_ofEntries,
          CoreWorkload.opEntries_ne_nil_iff]
        exact hs.operation }

/-- One record, with zipfian distributions of keys and of lengths.  Three times the proportion
is less than a half and rounded to a half, so that there is room for one more key. -/
def oneRecordZipfian : Utils.Properties :=
  [("recordcount", "1"), ("operationcount", "3"), ("insertproportion", "0.16666666666666666"),
    ("requestdistribution", "zipfian"), ("fieldcount", "4"), ("field_len_dist", "zipfian"),
    ("fieldlength", "20"), ("scanlengthdistribution", "zipfian"), ("maxscanlength", "50")].foldl
      (fun p entry => p.setProperty entry.1.toList entry.2.toList) Utils.Properties.empty

/-- The theorem for these properties. -/
theorem honoured_iff_oneRecordZipfian : ∃ run,
    init false 0 stodOfDecimal oneRecordZipfian = .ok run ∧
      run.keyChooser = .scrambledZipfian 2 ∧ run.scanLenChooser = .zipfian 1 50 ∧
      run.fieldLenGenerator = .zipfian 1 20 ∧
      ∃ s, Settings.read stodOfDecimal oneRecordZipfian = .ok s ∧
        (run.Honoured s ↔ s.CanBeHonoured) := by
  have hreturns : (init false 0 stodOfDecimal oneRecordZipfian).map
      (fun run => (run.keyChooser, run.scanLenChooser, run.fieldLenGenerator)) =
        .ok (.scrambledZipfian 2, .zipfian 1 50, .zipfian 1 20) := by
    decide +kernel
  obtain ⟨run, hinit, hcalls⟩ := InitStop.map_eq_ok hreturns
  obtain ⟨hkey, hscan, hfield⟩ := Prod.mk_inj.mp hcalls |>.imp_right Prod.mk_inj.mp
  exact ⟨run, hinit, hkey, hscan, hfield, honoured_iff hinit⟩

/-- `Init` returns for no record, with a bound that has wrapped. -/
theorem not_honoured_zero : ∃ run s,
    init false 0 stodOfDecimal (recordsOnly "0".toList) = .ok run ∧
      Settings.read stodOfDecimal (recordsOnly "0".toList) = .ok s ∧
      run.keyChooser = .uniform 0 0xFFFFFFFFFFFFFFFF ∧ ¬ run.Honoured s := by
  have hreturns : (init false 0 stodOfDecimal (recordsOnly "0".toList)).map keyChooser =
      .ok (.uniform 0 0xFFFFFFFFFFFFFFFF) := by
    decide +kernel
  have hreads : (Settings.read stodOfDecimal (recordsOnly "0".toList)).map
      (·.workload.recordCount) = .ok 0 := by
    decide +kernel
  obtain ⟨run, hinit, hkey⟩ := InitStop.map_eq_ok hreturns
  obtain ⟨s, hread, hrecords⟩ := InitStop.map_eq_ok hreads
  refine ⟨run, s, hinit, hread, hkey, ?_⟩
  intro hrun
  have hlast := hrun.last
  rw [hrecords, Int32.toInt_zero] at hlast
  omega

end InitRun

end YcsbC
