import YcsbC.Foundation.PrintedNumber
import Mathlib.Algebra.Order.Field.Power
import Mathlib.Tactic.NormNum
import Mathlib.Tactic.Positivity

/-!
# Numbers of 64 bits

The numbers of the IEEE format of 64 bits, in which a number has 53 binary digits, none of
them below `2 ^ -1074`.  Sums and products are rounded to the nearest such number, and to
the even one of two that are as near.

A finite number carries that it is one of the format, so it is what it is rounded to.  A
zero has no sign here: no operation below tells the two zeros apart.  One result is always
exact, which is twice a number (`toInt32_mul_two`).
-/

open PrintedNumber

namespace Binary64

/-! ## Rounding -/

/-- The exponent of the last digit that a number keeps. -/
def lastPlace (x : ℚ) : ℤ := max (Int.log 2 |x| - 52) (-1074)

/-- The nearest number with 53 digits, however great. -/
def round (x : ℚ) : ℚ := roundHalfEven (x / 2 ^ lastPlace x) * 2 ^ lastPlace x

/-- A number is less than `2 ^ 53` of its last places. -/
theorem abs_lt_lastPlace (x : ℚ) : |x| < 2 ^ (53 : ℕ) * 2 ^ lastPlace x := by
  have hlog : |x| < (2 : ℚ) ^ (Int.log 2 |x| + 1) := by
    exact_mod_cast Int.lt_zpow_succ_log_self (b := 2) (by decide) |x|
  have hplace : Int.log 2 |x| + 1 ≤ 53 + lastPlace x := by
    rw [lastPlace]
    omega
  calc |x| < (2 : ℚ) ^ (Int.log 2 |x| + 1) := hlog
    _ ≤ 2 ^ (53 + lastPlace x) := zpow_le_zpow_right₀ one_le_two hplace
    _ = 2 ^ (53 : ℕ) * 2 ^ lastPlace x := by rw [zpow_add₀ two_ne_zero]; norm_num

/-- What is rounded has at most `2 ^ 53` last places. -/
theorem exists_round (x : ℚ) :
    ∃ m e : ℤ, |m| ≤ 2 ^ 53 ∧ -1074 ≤ e ∧ round x = m * 2 ^ e := by
  have hpos : (0 : ℚ) < 2 ^ lastPlace x := by positivity
  have habs := abs_le.mp (abs_lt_lastPlace x).le
  refine ⟨_, _, abs_le.mpr ⟨?_, ?_⟩, le_max_right _ _, rfl⟩
  · rw [← roundHalfEven_intCast (-2 ^ 53)]
    refine roundHalfEven_mono ?_
    rw [le_div_iff₀ hpos]
    push_cast
    linarith
  · rw [← roundHalfEven_intCast (2 ^ 53)]
    refine roundHalfEven_mono ?_
    rw [div_le_iff₀ hpos]
    push_cast
    linarith

/-- A number with 53 digits is not changed. -/
theorem round_eq_of_lt {m e : ℤ} (hm : |m| < 2 ^ 53) (he : -1074 ≤ e) :
    round (m * 2 ^ e : ℚ) = m * 2 ^ e := by
  rcases eq_or_ne m 0 with rfl | hne
  · have hzero := roundHalfEven_intCast 0
    rw [Int.cast_zero] at hzero
    rw [Int.cast_zero, zero_mul, round, zero_div, hzero, Int.cast_zero, zero_mul]
  · have hplace : lastPlace (m * 2 ^ e) ≤ e := by
      have habs : |(m * 2 ^ e : ℚ)| < 2 ^ (53 + e) := by
        rw [abs_mul, abs_of_pos (by positivity : (0 : ℚ) < 2 ^ e), zpow_add₀ two_ne_zero]
        refine mul_lt_mul_of_pos_right ?_ (by positivity)
        exact_mod_cast hm
      have hlog : Int.log 2 |(m * 2 ^ e : ℚ)| < 53 + e := by
        rw [← Int.lt_zpow_iff_log_lt (by decide) (abs_pos.mpr (by positivity))]
        exact_mod_cast habs
      rw [lastPlace]
      omega
    -- the number is a whole number of its last places
    have hwhole : (m * 2 ^ e : ℚ) / 2 ^ lastPlace (m * 2 ^ e) =
        (m * 2 ^ (e - lastPlace (m * 2 ^ e)).toNat : ℤ) := by
      rw [mul_div_assoc, ← zpow_sub₀ two_ne_zero]
      push_cast
      rw [← zpow_natCast, Int.toNat_of_nonneg (by omega)]
    rw [round, hwhole, roundHalfEven_intCast, ← hwhole, div_mul_cancel₀]
    positivity

theorem round_eq_self {m e : ℤ} (hm : |m| ≤ 2 ^ 53) (he : -1074 ≤ e) :
    round (m * 2 ^ e : ℚ) = m * 2 ^ e := by
  rcases hm.lt_or_eq with hlt | heq
  · exact round_eq_of_lt hlt he
  · -- a number with one digit more, which is zero
    obtain ⟨k, rfl⟩ : ∃ k, m = k * 2 := ⟨m / 2, by
      rcases abs_eq (by norm_num : (0 : ℤ) ≤ 2 ^ 53) |>.mp heq with rfl | rfl <;> norm_num⟩
    have hk : |k| < 2 ^ 53 := by
      rw [abs_mul, abs_two] at heq
      omega
    have hshift : ((k * 2 : ℤ) * 2 ^ e : ℚ) = k * 2 ^ (e + 1) := by
      rw [zpow_add_one₀ two_ne_zero]
      push_cast
      ring
    rw [hshift]
    exact round_eq_of_lt hk (by omega)

theorem round_round (x : ℚ) : round (round x) = round x := by
  obtain ⟨m, e, hm, he, hround⟩ := exists_round x
  rw [hround, round_eq_self hm he]

/-- Twice a number of the format has no more digits. -/
theorem round_two_mul {x : ℚ} (hx : round x = x) : round (x * 2) = x * 2 := by
  obtain ⟨m, e, hm, he, hround⟩ := exists_round x
  have hshift : x * 2 = m * 2 ^ (e + 1) := by
    rw [← hx, hround, zpow_add_one₀ two_ne_zero, mul_assoc]
  rw [hshift, round_eq_self hm (by omega)]

theorem round_intCast {n : ℤ} (hn : |n| ≤ 2 ^ 53) : round (n : ℚ) = n := by
  simpa using round_eq_self (e := 0) hn (by decide)

/-- A finite number of the format. -/
structure IsFinite (x : ℚ) : Prop where
  round_eq : round x = x
  abs_lt : |x| < 2 ^ 1024

instance (x : ℚ) : Decidable (IsFinite x) :=
  decidable_of_iff (round x = x ∧ |x| < 2 ^ 1024) ⟨fun h => ⟨h.1, h.2⟩, fun h => ⟨h.1, h.2⟩⟩

end Binary64

open Binary64 in
/-- A number of 64 bits. -/
inductive Binary64 where
  | finite (x : ℚ) (hx : IsFinite x)
  | inf (negative : Bool)
  | nan
deriving DecidableEq

namespace Binary64

/-! ## Operations -/

/-- The number to which an exact result is rounded. -/
def ofRat (x : ℚ) : Binary64 :=
  if h : |round x| < 2 ^ 1024 then finite (round x) ⟨round_round x, h⟩ else inf (x < 0)

instance : Zero Binary64 := ⟨ofRat 0⟩

/-- Whether a number that is not NaN is negative. -/
def isNegative : Binary64 → Bool
  | finite x _ => x < 0
  | inf negative => negative
  | nan => false

/-- Whether a number is a zero. -/
def isZero : Binary64 → Bool
  | finite x _ => x = 0
  | _ => false

/-- The product.  That of an infinity and a zero is not a number. -/
def mul : Binary64 → Binary64 → Binary64
  | finite x _, finite y _ => ofRat (x * y)
  | nan, _ => nan
  | _, nan => nan
  | x, y => if x.isZero ∨ y.isZero then nan else inf (x.isNegative != y.isNegative)

instance : Mul Binary64 := ⟨mul⟩

theorem finite_mul_finite {x y : ℚ} (hx : IsFinite x) (hy : IsFinite y) :
    finite x hx * finite y hy = ofRat (x * y) := (rfl)

/-- The sum.  That of two different infinities is not a number. -/
def add : Binary64 → Binary64 → Binary64
  | finite x _, finite y _ => ofRat (x + y)
  | nan, _ => nan
  | _, nan => nan
  | inf negative, inf negative' => if negative = negative' then inf negative else nan
  | inf negative, finite _ _ => inf negative
  | finite _ _, inf negative => inf negative

instance : Add Binary64 := ⟨add⟩

/-- The order, in which NaN has no place. -/
def lt : Binary64 → Binary64 → Bool
  | nan, _ => false
  | _, nan => false
  | finite x _, finite y _ => x < y
  | finite _ _, inf negative => !negative
  | inf negative, finite _ _ => negative
  | inf negative, inf negative' => negative && !negative'

instance : LT Binary64 := ⟨fun x y => x.lt y⟩

instance (x y : Binary64) : Decidable (x < y) := inferInstanceAs (Decidable (x.lt y = true))

/-- An `int` is a number of the format. -/
def ofInt (n : ℤ) : Binary64 := ofRat n

/-- A number without its fraction. -/
def truncate (x : ℚ) : ℤ := if 0 ≤ x then ⌊x⌋ else ⌈x⌉

/-- A number without its fraction as an `int`, for which it has to be in range. -/
def intOfRat (x : ℚ) : Option Int32 :=
  if -2 ^ 31 ≤ truncate x ∧ truncate x < 2 ^ 31 then some (Int32.ofInt (truncate x)) else none

/-- The conversion to `int`. -/
def toInt32 : Binary64 → Option Int32
  | finite x _ => intOfRat x
  | _ => none

/-! ## Twice a product -/

theorem ofRat_eq_finite {x : ℚ} (hx : IsFinite x) : ofRat x = finite x hx := by
  have habs : |round x| < 2 ^ 1024 := by
    rw [hx.round_eq]
    exact hx.abs_lt
  rw [ofRat, dif_pos habs]
  simp only [hx.round_eq]

theorem isFinite_intCast {n : ℤ} (hn : |n| ≤ 2 ^ 53) : IsFinite (n : ℚ) where
  round_eq := round_intCast hn
  abs_lt := by
    have hcast : |(n : ℚ)| ≤ 2 ^ 53 := by exact_mod_cast hn
    exact hcast.trans_lt (pow_lt_pow_right₀ one_lt_two (by decide))

theorem isFinite_two : IsFinite 2 := by simpa using isFinite_intCast (n := 2) (by decide)

/-- A product is finite only when both factors are. -/
theorem exists_of_mul_eq_finite {x y : Binary64} {z : ℚ} {hz : IsFinite z}
    (hmul : x * y = finite z hz) : (∃ q hq, x = finite q hq) ∧ ∃ q hq, y = finite q hq := by
  have hmul' : mul x y = finite z hz := hmul
  unfold mul at hmul'
  split at hmul'
  · exact ⟨⟨_, _, rfl⟩, _, _, rfl⟩
  · cases hmul'
  · cases hmul'
  · split at hmul' <;> cases hmul'

theorem exists_of_toInt32 {x : Binary64} {n : Int32} (hx : x.toInt32 = some n) :
    ∃ q hq, x = finite q hq := by
  cases x with
  | finite q hq => exact ⟨q, hq, rfl⟩
  | inf negative => cases hx
  | nan => cases hx

/-- Great numbers are no `int`s. -/
theorem intOfRat_eq_none {x : ℚ} (hx : 2 ^ 1024 ≤ |x|) : intOfRat x = none := by
  have hgreat : (2 : ℚ) ^ 32 ≤ |x| := le_trans (pow_le_pow_right₀ one_le_two (by decide)) hx
  rw [intOfRat, if_neg]
  rintro ⟨hge, hlt⟩
  rw [truncate] at hge hlt
  split at hlt
  · rename_i hpos
    rw [abs_of_nonneg hpos] at hgreat
    rw [Int.floor_lt] at hlt
    push_cast at hlt
    linarith
  · rename_i hneg
    rw [abs_of_neg (not_le.mp hneg)] at hgreat
    have hceil : -2 ^ 31 - 1 < ⌈x⌉ := by
      rw [if_neg hneg] at hge
      omega
    rw [Int.lt_ceil] at hceil
    push_cast at hceil
    linarith

/-- The conversion of a number with 53 digits, however great. -/
theorem toInt32_ofRat {x : ℚ} (hx : round x = x) : (ofRat x).toInt32 = intOfRat x := by
  by_cases habs : |x| < 2 ^ 1024
  · rw [ofRat_eq_finite ⟨hx, habs⟩, toInt32]
  · have hgreat : ¬ |round x| < 2 ^ 1024 := by rwa [hx]
    rw [ofRat, dif_neg hgreat, intOfRat_eq_none (not_lt.mp habs)]
    rfl

/-- The conversion of twice a product of an `int`, in which only the product is rounded. -/
theorem toInt32_mul_two {n : ℤ} (hn : |n| ≤ 2 ^ 53) {q : ℚ} (hq : IsFinite q) :
    (ofInt n * finite q hq * ofInt 2).toInt32 = intOfRat (round (n * q) * 2) := by
  have htwo : ofInt 2 = finite 2 isFinite_two := by
    rw [ofInt, Int.cast_ofNat, ofRat_eq_finite isFinite_two]
  have hproduct : ofInt n * finite q hq = ofRat (n * q) := by
    rw [ofInt, ofRat_eq_finite (isFinite_intCast hn), finite_mul_finite]
  rw [hproduct, htwo]
  by_cases habs : |round (n * q)| < 2 ^ 1024
  · rw [ofRat, dif_pos habs, finite_mul_finite, toInt32_ofRat (round_two_mul (round_round _))]
  · have hgreat : 2 ^ 1024 ≤ |round (n * q) * 2| := by
      rw [abs_mul, abs_two]
      exact (not_lt.mp habs).trans (le_mul_of_one_le_right (abs_nonneg _) one_le_two)
    rw [ofRat, dif_neg habs, intOfRat_eq_none hgreat]
    rfl

/-- Ten times the number that is nearest to three tenths is rounded to three. -/
example : (ofInt 10 * ofRat (3 / 10) * ofInt 2).toInt32 = some 6 := by decide +kernel

end Binary64
