import YcsbC.Core.ZipfianOffset

/-!
# Lengths of scans and of fields

`Init` makes the generators of scan lengths and of field lengths for their distributions.  A
length that they draw is at most the greatest one, and it is 0 exactly when a zipfian
generator takes its first shortcut (`next_spec`).
-/

namespace YcsbC

/-- A `Generator<uint64_t>` of lengths.  The constant is the number of a `ConstGenerator`. -/
inductive LengthGenerator where
  | const (constant : UInt64)
  | uniform (g : UniformGenerator)
  | zipfian (g : ZipfianGenerator)

/-- The properties that the generators of lengths are made from. -/
structure LengthProperties where
  /-- `field_len_dist`. -/
  fieldLenDist : Str := "constant".toList
  /-- `fieldlength`. -/
  fieldLength : Int32 := 100
  /-- `maxscanlength`. -/
  maxScanLength : Int32 := 1000
  /-- `scanlengthdistribution`. -/
  scanLengthDistribution : Str := "uniform".toList

namespace LengthGenerator

/-- `Next`. -/
noncomputable def next : LengthGenerator → RandomDraw → Option (UInt64 × LengthGenerator)
  | .const constant, _ => some (constant, .const constant)
  | .uniform g, draw => (g.next draw).map fun (length, g') => (length, .uniform g')
  | .zipfian g, draw => (g.next draw).map fun (length, g') => (length, .zipfian g')

/-- The machine of draws. -/
noncomputable def drawing : Machine LengthGenerator RandomDraw :=
  ⟨fun g draw => (g.next draw).map (·.2)⟩

/-- The branches of `Init` that make `scan_len_chooser_`, with the random number that its
constructor draws.  Another distribution is an exception. -/
noncomputable def scanLenChooser (p : LengthProperties) (draw : RandomDraw) :
    Option LengthGenerator :=
  if p.scanLengthDistribution = "uniform".toList then
    (UniformGenerator.make 1 (sizeOfInt p.maxScanLength) draw).map .uniform
  else if p.scanLengthDistribution = "zipfian".toList then
    (ZipfianGenerator.make 1 (sizeOfInt p.maxScanLength) draw).map .zipfian
  else none

/-- `GetFieldLenGenerator`. -/
noncomputable def getFieldLenGenerator (p : LengthProperties) (draw : RandomDraw) :
    Option LengthGenerator :=
  if p.fieldLenDist = "constant".toList then some (.const (sizeOfInt p.fieldLength))
  else if p.fieldLenDist = "uniform".toList then
    (UniformGenerator.make 1 (sizeOfInt p.fieldLength) draw).map .uniform
  else if p.fieldLenDist = "zipfian".toList then
    (ZipfianGenerator.make 1 (sizeOfInt p.fieldLength) draw).map .zipfian
  else none

/-- A generator of lengths from 1 to `max`. -/
def UpTo (max : UInt64) : LengthGenerator → Prop
  | .const constant => constant = max
  | .uniform g => g.min = 1 ∧ g.max = max
  | .zipfian g => ZipfianGenerator.Grown 1 max.toNat max.toNat g

/-- The draw takes the first shortcut of a zipfian generator. -/
def TakesShortcut (max : UInt64) (g : LengthGenerator) (draw : RandomDraw) : Prop :=
  ∃ z u, g = .zipfian z ∧ draw = .double u ∧ (u : ℝ) * ZipfianGenerator.zetaOf max.toNat < 1

/-! ## Draws -/

section Next

variable {max : UInt64} (hmax : 1 ≤ max)

include hmax

/-- What a draw gives. -/
theorem next_spec {g g' : LengthGenerator} (hg : UpTo max g) {draw : RandomDraw}
    {length : UInt64} (hnext : g.next draw = some (length, g')) :
    UpTo max g' ∧ length ≤ max ∧ (length = 0 ↔ TakesShortcut max g draw) := by
  have hne : ∀ length : UInt64, 1 ≤ length → length ≠ 0 := by
    rintro _ hle rfl
    exact absurd hle (by decide)
  cases g with
  | const constant =>
      cases hg
      cases hnext
      simp [UpTo, TakesShortcut, hne _ hmax]
  | uniform g =>
      obtain ⟨⟨drawn, g₁⟩, hdraw, heq⟩ := Option.map_eq_some_iff.mp hnext
      cases heq
      obtain ⟨hge, hle, rfl⟩ := UniformGenerator.next_eq_some hdraw
      rw [hg.1] at hge
      rw [hg.2] at hle
      exact ⟨hg, hle, by simp [TakesShortcut, hne _ hge]⟩
  | zipfian g =>
      obtain ⟨⟨drawn, g₁⟩, hdraw, heq⟩ := Option.map_eq_some_iff.mp hnext
      cases heq
      cases draw with
      | int draw => cases hdraw
      | double u =>
          obtain ⟨g₂, hitem, hg₂⟩ := hg.next u
          cases hdraw.symm.trans hitem
          have hle : ZipfianGenerator.item 1 max.toNat max.toNat max.toNat u ≤ max.toNat := by
            have hlt := hg.item_lt u
            omega
          have hnat := Nat.mod_eq_of_lt (hle.trans_lt max.toNat_lt)
          refine ⟨hg₂, ?_, ?_⟩
          · simpa [UInt64.le_iff_toNat_le, hnat] using hle
          · simp [← UInt64.toNat_inj, hnat, TakesShortcut, hg.item_eq_zero_iff]

end Next

/-- What a draw gives after any others. -/
theorem next_run {max : UInt64} (hmax : 1 ≤ max) {g₀ g g' : LengthGenerator} (hg₀ : UpTo max g₀)
    {draws : List RandomDraw} (hrun : drawing.run g₀ draws = some g) {draw : RandomDraw}
    {length : UInt64} (hnext : g.next draw = some (length, g')) :
    length ≤ max ∧ (length = 0 ↔ TakesShortcut max g draw) := by
  have hg : UpTo max g := drawing.run_invariant (fun g₁ draw g₂ hg₁ hstep => by
    obtain ⟨⟨drawn, g₃⟩, hdrawn, rfl⟩ := Option.map_eq_some_iff.mp hstep
    exact (next_spec hmax hg₁ hdrawn).1) hg₀ hrun
  exact (next_spec hmax hg hnext).2

/-! ## The generators that `Init` makes -/

theorem upTo_uniform {max : UInt64} {draw : RandomDraw} {g : LengthGenerator}
    (hmake : (UniformGenerator.make 1 max draw).map uniform = some g) : UpTo max g := by
  obtain ⟨g', hmake', rfl⟩ := Option.map_eq_some_iff.mp hmake
  obtain ⟨last, rfl⟩ := UniformGenerator.make_eq_some hmake'
  exact ⟨rfl, rfl⟩

theorem upTo_zipfian {max : UInt64} {draw : RandomDraw} {g : LengthGenerator}
    (hmake : (ZipfianGenerator.make 1 max draw).map zipfian = some g) : UpTo max g := by
  obtain ⟨g', hmake', rfl⟩ := Option.map_eq_some_iff.mp hmake
  have hg := ZipfianGenerator.make_eq_some hmake'
  rwa [UInt64.sub_add_cancel] at hg

theorem upTo_scanLenChooser {p : LengthProperties} {draw : RandomDraw} {g : LengthGenerator}
    (hmake : scanLenChooser p draw = some g) : UpTo (sizeOfInt p.maxScanLength) g := by
  unfold scanLenChooser at hmake
  split at hmake
  · exact upTo_uniform hmake
  · split at hmake
    · exact upTo_zipfian hmake
    · cases hmake

theorem upTo_getFieldLenGenerator {p : LengthProperties} {draw : RandomDraw}
    {g : LengthGenerator} (hmake : getFieldLenGenerator p draw = some g) :
    UpTo (sizeOfInt p.fieldLength) g := by
  unfold getFieldLenGenerator at hmake
  split at hmake
  · cases hmake
    rfl
  · split at hmake
    · exact upTo_uniform hmake
    · split at hmake
      · exact upTo_zipfian hmake
      · cases hmake

theorem one_le_sizeOfInt {n : Int32} (hn : 1 ≤ n.toInt) : 1 ≤ sizeOfInt n := by
  rw [UInt64.le_iff_toNat_le, toNat_sizeOfInt (by omega), UInt64.toNat_one]
  omega

section Init

variable {p : LengthProperties} {draw₀ draw : RandomDraw} {g₀ g g' : LengthGenerator}
  {draws : List RandomDraw} {length : UInt64}

/-- Scan lengths are at most `maxscanlength`. -/
theorem scanLength_spec (hlen : 1 ≤ p.maxScanLength.toInt)
    (hmake : scanLenChooser p draw₀ = some g₀) (hrun : drawing.run g₀ draws = some g)
    (hnext : g.next draw = some (length, g')) :
    length ≤ sizeOfInt p.maxScanLength ∧
      (length = 0 ↔ TakesShortcut (sizeOfInt p.maxScanLength) g draw) :=
  next_run (one_le_sizeOfInt hlen) (upTo_scanLenChooser hmake) hrun hnext

/-- Field lengths are at most `fieldlength`. -/
theorem fieldLength_spec (hlen : 1 ≤ p.fieldLength.toInt)
    (hmake : getFieldLenGenerator p draw₀ = some g₀) (hrun : drawing.run g₀ draws = some g)
    (hnext : g.next draw = some (length, g')) :
    length ≤ sizeOfInt p.fieldLength ∧
      (length = 0 ↔ TakesShortcut (sizeOfInt p.fieldLength) g draw) :=
  next_run (one_le_sizeOfInt hlen) (upTo_getFieldLenGenerator hmake) hrun hnext

end Init

end LengthGenerator

end YcsbC
