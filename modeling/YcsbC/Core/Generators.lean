import YcsbC.Core.CoreWorkload
import YcsbC.Foundation.PowerLaw
import Mathlib.Algebra.Order.Floor.Ring

/-!
# Random generators

The generators that choose keys.  A call of `Next` takes the random number it draws as
an argument: an integer for `std::uniform_int_distribution`, a `RandomDouble` for the
zipfian generators.  `double` arithmetic is read as real arithmetic.  A call whose
`assert` fails, or whose random number is not one its distribution can draw, gives
nothing.
-/

namespace YcsbC

/-- A result of `RandomDouble`, which is drawn from `[0, 1)`. -/
abbrev RandomDouble := Set.Ico (0 : ℝ) 1

/-- A random number that a generator draws. -/
inductive RandomDraw where
  /-- Drawn by a `uniform_int_distribution`. -/
  | int (draw : UInt64)
  /-- Drawn by `RandomDouble`. -/
  | double (u : RandomDouble)

/-! ## Uniform -/

/-- `UniformGenerator`, with the bounds of `dist_`. -/
structure UniformGenerator where
  /-- The least number drawn. -/
  min : UInt64
  /-- The greatest number drawn. -/
  max : UInt64
  /-- `last_int_`. -/
  lastInt : UInt64

namespace UniformGenerator

/-- `Next`. -/
def next (g : UniformGenerator) : RandomDraw → Option (UInt64 × UniformGenerator)
  | .int draw =>
      if g.min ≤ draw ∧ draw ≤ g.max then some (draw, { g with lastInt := draw }) else none
  | .double _ => none

/-- The constructor, which draws once. -/
def make (min max : UInt64) (draw : RandomDraw) : Option UniformGenerator :=
  (next ⟨min, max, 0⟩ draw).map (·.2)

/-- A draw that gives something gives a number between the bounds. -/
theorem next_eq_some {g g' : UniformGenerator} {draw : RandomDraw} {value : UInt64}
    (hnext : g.next draw = some (value, g')) :
    g.min ≤ value ∧ value ≤ g.max ∧ g' = { g with lastInt := value } := by
  cases draw with
  | double u => cases hnext
  | int draw =>
      rw [next] at hnext
      split at hnext
      · rename_i hrange
        cases hnext
        exact ⟨hrange.1, hrange.2, rfl⟩
      · cases hnext

theorem make_eq_some {min max : UInt64} {draw : RandomDraw} {g : UniformGenerator}
    (hmake : make min max draw = some g) : ∃ last, g = ⟨min, max, last⟩ := by
  obtain ⟨⟨value, g'⟩, hnext, rfl⟩ := Option.map_eq_some_iff.mp hmake
  obtain ⟨-, -, rfl⟩ := next_eq_some hnext
  exact ⟨value, rfl⟩

end UniformGenerator

/-! ## Zipfian -/

/-- `ZipfianGenerator`. -/
structure ZipfianGenerator where
  /-- `num_items_`. -/
  numItems : UInt64
  /-- `base_`. -/
  base : UInt64
  /-- `theta_`. -/
  theta : ℝ
  /-- `zeta_n_`. -/
  zetaN : ℝ
  /-- `eta_`. -/
  eta : ℝ
  /-- `alpha_`. -/
  alpha : ℝ
  /-- `zeta_2_`. -/
  zeta2 : ℝ
  /-- `n_for_zeta_`. -/
  nForZeta : UInt64
  /-- `last_value_`. -/
  lastValue : UInt64

namespace ZipfianGenerator

/-- `kZipfianConst`. -/
noncomputable def kZipfianConst : ℝ := 99 / 100

/-- `kMaxNumItems`. -/
def kMaxNumItems : UInt64 := (0xFFFFFFFFFFFFFFFF : UInt64) >>> 24

/-- `Zeta(last_num, cur_num, theta, last_zeta)`. -/
noncomputable def zeta (lastNum curNum : ℕ) (theta lastZeta : ℝ) : ℝ :=
  (List.range' (lastNum + 1) (curNum - lastNum)).foldl
    (fun zeta (i : ℕ) => zeta + 1 / (i : ℝ) ^ theta) lastZeta

/-- `RaiseZeta`. -/
noncomputable def raiseZeta (g : ZipfianGenerator) (num : UInt64) : Option ZipfianGenerator :=
  if g.nForZeta ≤ num then
    some { g with
      zetaN := zeta g.nForZeta.toNat num.toNat g.theta g.zetaN
      nForZeta := num }
  else none

/-- `Eta`. -/
noncomputable def calcEta (g : ZipfianGenerator) : ℝ :=
  (1 - (2 / (g.numItems.toNat : ℝ)) ^ (1 - g.theta)) / (1 - g.zeta2 / g.zetaN)

open Classical in
/-- `Next(num)`. -/
noncomputable def nextOf (g : ZipfianGenerator) (num : UInt64) :
    RandomDraw → Option (UInt64 × ZipfianGenerator)
  | .int _ => none
  | .double u =>
      if 2 ≤ num ∧ num < kMaxNumItems then do
        let g ←
          if num > g.nForZeta then
            (g.raiseZeta num).map fun g => { g with eta := g.calcEta }
          else some g
        let uz := u.1 * g.zetaN
        let value : UInt64 :=
          if uz < 1 then 0
          else if uz < 1 + (1 / 2 : ℝ) ^ g.theta then 1
          else UInt64.ofNat
            ⌊(g.base.toNat : ℝ) + num.toNat * (g.eta * u.1 - g.eta + 1) ^ g.alpha⌋₊
        some (value, { g with lastValue := value })
      else none

/-- `Next()`. -/
noncomputable def next (g : ZipfianGenerator) (draw : RandomDraw) :
    Option (UInt64 × ZipfianGenerator) :=
  g.nextOf g.numItems draw

/-- The fields that the constructor computes before its first draw. -/
noncomputable def fresh (min max : UInt64) (zipfianConst : ℝ) : Option ZipfianGenerator :=
  let numItems := max - min + 1
  if 2 ≤ numItems ∧ numItems < kMaxNumItems then
    let g : ZipfianGenerator :=
      { numItems := numItems
        base := min
        theta := zipfianConst
        zetaN := 0
        eta := 0
        alpha := 1 / (1 - zipfianConst)
        zeta2 := zeta 0 2 zipfianConst 0
        nForZeta := 0
        lastValue := 0 }
    (g.raiseZeta numItems).map fun g => { g with eta := g.calcEta }
  else none

/-- The constructor, which draws once. -/
noncomputable def make (min max : UInt64) (draw : RandomDraw) : Option ZipfianGenerator :=
  (fresh min max kZipfianConst).bind fun g => (g.next draw).map (·.2)

/-- The constructor on a number of items. -/
noncomputable def ofNumItems (numItems : UInt64) (draw : RandomDraw) : Option ZipfianGenerator :=
  make 0 (numItems - 1) draw

end ZipfianGenerator

/-! ## Scrambled zipfian -/

/-- `ScrambledZipfianGenerator`. -/
structure ScrambledZipfianGenerator where
  /-- `base_`. -/
  base : UInt64
  /-- `num_items_`. -/
  numItems : UInt64
  /-- `generator_`. -/
  generator : ZipfianGenerator

namespace ScrambledZipfianGenerator

/-- `Scramble`. -/
def scramble (g : ScrambledZipfianGenerator) (value : UInt64) : UInt64 :=
  g.base + Utils.fnvHash64 value % g.numItems

/-- `Next`. -/
noncomputable def next (g : ScrambledZipfianGenerator) (draw : RandomDraw) :
    Option (UInt64 × ScrambledZipfianGenerator) :=
  (g.generator.next draw).map fun (value, generator) =>
    (g.scramble value, { g with generator := generator })

/-- The constructor. -/
noncomputable def make (min max : UInt64) (draw : RandomDraw) :
    Option ScrambledZipfianGenerator :=
  (ZipfianGenerator.make min max draw).map fun generator => ⟨min, max - min + 1, generator⟩

/-- The constructor on a number of items. -/
noncomputable def ofNumItems (numItems : UInt64) (draw : RandomDraw) :
    Option ScrambledZipfianGenerator :=
  make 0 (numItems - 1) draw

end ScrambledZipfianGenerator

/-! ## Skewed latest -/

/-- `SkewedLatestGenerator`.  The counter `basis_` refers to is an argument of its
functions. -/
structure SkewedLatestGenerator where
  /-- `zipfian_`. -/
  zipfian : ZipfianGenerator
  /-- `last_`. -/
  last : UInt64

namespace SkewedLatestGenerator

/-- The key number of a rank: the newest key has rank 0. -/
def keyOfRank (basis : CounterGenerator) (rank : UInt64) : UInt64 := basis.last - rank

/-- `Next`. -/
noncomputable def next (basis : CounterGenerator) (g : SkewedLatestGenerator)
    (draw : RandomDraw) : Option (UInt64 × SkewedLatestGenerator) :=
  (g.zipfian.nextOf basis.last draw).map fun (rank, zipfian) =>
    (keyOfRank basis rank, ⟨zipfian, keyOfRank basis rank⟩)

/-- The constructor, which draws once for the zipfian generator and once itself. -/
noncomputable def make (basis : CounterGenerator) (draw draw' : RandomDraw) :
    Option SkewedLatestGenerator :=
  (ZipfianGenerator.ofNumItems basis.last draw).bind fun zipfian =>
    (next basis ⟨zipfian, 0⟩ draw').map (·.2)

end SkewedLatestGenerator

end YcsbC
