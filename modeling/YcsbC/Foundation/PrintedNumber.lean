import Mathlib.Data.Int.Log
import Mathlib.Data.Nat.Sqrt
import Mathlib.Data.Rat.Floor
import Mathlib.Tactic.Linarith

/-!
# Printed numbers

Decimal texts of rational numbers as `printf` and C++ streams write them, with infinities
and NaN.  Numbers are rounded to the nearest decimal, and to the even one of two that are
as near.

Whatever the number, its text is made of digits and a few other characters
(`isNumeral_of_mem_fixed`).
-/

/-- A rational number, an infinity, or NaN, which has a sign as well. -/
inductive ExtRat where
  | finite (x : ℚ)
  | inf (negative : Bool)
  | nan (negative : Bool)
deriving DecidableEq, Repr

namespace ExtRat

/-- `x / y`.  A zero is positive, and the NaN of an invalid operation negative. -/
def div (x y : ℚ) : ExtRat :=
  if y ≠ 0 then finite (x / y) else if x = 0 then nan true else inf (x < 0)

/-- `a + b * x`, for a positive `b`. -/
def affine (a b : ℚ) : ExtRat → ExtRat
  | finite x => finite (a + b * x)
  | inf negative => inf negative
  | nan negative => nan negative

/-- `x < y`. -/
def lt : ExtRat → ℚ → Bool
  | finite x, y => x < y
  | inf negative, _ => negative
  | nan _, _ => false

/-- `x > y`. -/
def gt : ExtRat → ℚ → Bool
  | finite x, y => x > y
  | inf negative, _ => !negative
  | nan _, _ => false

end ExtRat

namespace PrintedNumber

/-! ## Rounding -/

/-- The nearest integer. -/
def roundHalfEven (x : ℚ) : ℤ :=
  let below := ⌊x⌋
  if x - below < 1 / 2 then below
  else if 1 / 2 < x - below then below + 1
  else if below % 2 = 0 then below
  else below + 1

/-- The integer that is nearest to the square root. -/
def roundSqrt (x : ℚ) : ℕ :=
  let below := Nat.sqrt ⌊x⌋₊
  let middle := (below + 1 / 2 : ℚ) ^ 2
  if x < middle then below
  else if middle < x then below + 1
  else if below % 2 = 0 then below
  else below + 1

theorem roundHalfEven_mem (x : ℚ) : roundHalfEven x = ⌊x⌋ ∨ roundHalfEven x = ⌊x⌋ + 1 := by
  simp only [roundHalfEven]
  split_ifs <;> simp

/-- Rounding keeps the order. -/
theorem roundHalfEven_mono {x y : ℚ} (hxy : x ≤ y) : roundHalfEven x ≤ roundHalfEven y := by
  rcases (Int.floor_le_floor hxy).lt_or_eq with hlt | heq
  · rcases roundHalfEven_mem x with hx | hx <;> rcases roundHalfEven_mem y with hy | hy <;> omega
  · simp only [roundHalfEven, heq]
    split_ifs <;> first | omega | (exfalso; linarith)

/-- A whole number is not changed. -/
@[simp] theorem roundHalfEven_intCast (n : ℤ) : roundHalfEven (n : ℚ) = n := by
  simp [roundHalfEven]

/-! ## Texts -/

/-- The sign of a negative number. -/
def sign (negative : Bool) : List Char := if negative then ['-'] else []

/-- The fraction after its point. -/
def fraction (digits : List Char) : List Char := if digits.isEmpty then [] else '.' :: digits

/-- A natural number with the point before its last digits. -/
def pointed (precision n : ℕ) : List Char :=
  let digits := (Nat.toDigits 10 n).leftpad (precision + 1) '0'
  digits.take (digits.length - precision) ++ fraction (digits.drop (digits.length - precision))

/-- `%.nf`, for a `precision` of `n`. -/
def fixed (precision : ℕ) : ExtRat → List Char
  | .finite x => sign (x < 0) ++ pointed precision (roundHalfEven (|x| * 10 ^ precision)).toNat
  | .inf negative => sign negative ++ "inf".toList
  | .nan negative => sign negative ++ "nan".toList

/-- `%.nf` of a square root. -/
def fixedSqrt (precision : ℕ) (x : ℚ) : List Char :=
  if x < 0 then fixed precision (.nan true)
  else pointed precision (roundSqrt (x * 10 ^ (2 * precision)))

/-- Digits without the zeros at their end. -/
def stripZeros (digits : List Char) : List Char :=
  (digits.reverse.dropWhile (· = '0')).reverse

/-- `%g` of a positive number with six digits, the first of which counts `10 ^ exponent`. -/
def general (digits : List Char) (exponent : ℤ) : List Char :=
  if -4 ≤ exponent ∧ exponent < 0 then
    '0' :: fraction (stripZeros (List.replicate (exponent.natAbs - 1) '0' ++ digits))
  else if 0 ≤ exponent ∧ exponent < 6 then
    digits.take (exponent.toNat + 1) ++ fraction (stripZeros (digits.drop (exponent.toNat + 1)))
  else
    digits.take 1 ++ fraction (stripZeros (digits.drop 1)) ++ 'e' ::
      (if exponent < 0 then '-' else '+') :: (Nat.toDigits 10 exponent.natAbs).leftpad 2 '0'

/-- What `<<` writes, which is `%g`. -/
def streamed : ExtRat → List Char
  | .finite x =>
      if x = 0 then ['0']
      else
        let exponent := Int.log 10 |x|
        let n := roundHalfEven (|x| * 10 ^ (5 - exponent))
        -- the number may be rounded up to the next power of ten
        sign (x < 0) ++
          if n = 10 ^ 6 then general (Nat.toDigits 10 (10 ^ 5)) (exponent + 1)
          else general (Nat.toDigits 10 n.toNat) exponent
  | .inf negative => sign negative ++ "inf".toList
  | .nan negative => sign negative ++ "nan".toList

/-! ## The characters of a text -/

/-- The characters of numbers. -/
def IsNumeral (c : Char) : Prop := c.isDigit = true ∨ c ∈ "+-.einfa".toList

instance (c : Char) : Decidable (IsNumeral c) := inferInstanceAs (Decidable (_ ∨ _))

theorem isNumeral_of_mem_sign {negative : Bool} {c : Char} (hc : c ∈ sign negative) :
    IsNumeral c := by
  cases negative with
  | true =>
      obtain rfl := List.mem_singleton.mp hc
      decide
  | false => cases hc

theorem isNumeral_of_mem_fraction {digits : List Char} (hdigits : ∀ c ∈ digits, IsNumeral c)
    {c : Char} (hc : c ∈ fraction digits) : IsNumeral c := by
  rw [fraction] at hc
  split at hc
  · cases hc
  · rcases List.mem_cons.mp hc with rfl | hc
    · decide
    · exact hdigits c hc

theorem isNumeral_of_mem_pointed {precision n : ℕ} {c : Char} (hc : c ∈ pointed precision n) :
    IsNumeral c := by
  have hdigits : ∀ c ∈ (Nat.toDigits 10 n).leftpad (precision + 1) '0', IsNumeral c := by
    intro c hc
    rcases List.mem_append.mp hc with hc | hc
    · obtain rfl := List.eq_of_mem_replicate hc
      decide
    · exact .inl (Nat.isDigit_of_mem_toDigits (by decide) (by decide) hc)
  rcases List.mem_append.mp hc with hc | hc
  · exact hdigits c (List.mem_of_mem_take hc)
  · exact isNumeral_of_mem_fraction (fun c hc => hdigits c (List.mem_of_mem_drop hc)) hc

theorem isNumeral_of_mem_fixed {precision : ℕ} {x : ExtRat} {c : Char}
    (hc : c ∈ fixed precision x) : IsNumeral c := by
  have hinf : ∀ c ∈ "inf".toList, IsNumeral c := by simp [IsNumeral]
  have hnan : ∀ c ∈ "nan".toList, IsNumeral c := by simp [IsNumeral]
  cases x with
  | finite x =>
      rcases List.mem_append.mp hc with hc | hc
      · exact isNumeral_of_mem_sign hc
      · exact isNumeral_of_mem_pointed hc
  | inf negative =>
      rcases List.mem_append.mp hc with hc | hc
      · exact isNumeral_of_mem_sign hc
      · exact hinf c hc
  | nan negative =>
      rcases List.mem_append.mp hc with hc | hc
      · exact isNumeral_of_mem_sign hc
      · exact hnan c hc

theorem isNumeral_of_mem_fixedSqrt {precision : ℕ} {x : ℚ} {c : Char}
    (hc : c ∈ fixedSqrt precision x) : IsNumeral c := by
  rw [fixedSqrt] at hc
  split at hc
  · exact isNumeral_of_mem_fixed hc
  · exact isNumeral_of_mem_pointed hc

end PrintedNumber
