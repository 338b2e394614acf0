import YcsbC.Core.HashInjective

/-!
# Key names

`CoreWorkload::BuildKeyName` turns a key number into the key of a record: `user`,
zeros up to the padding width, and the decimal text of the number, which is hashed
first unless inserts are ordered.

Whatever the width, the text after `user` reads back as the number
(`ofDigitChars_buildKeyName`), so a name determines the number that was printed.
-/

namespace YcsbC

/-- `std::to_string` of an unsigned number. -/
def toStr (n : ℕ) : Str := Nat.toDigits 10 n

namespace CoreWorkload

/-- The number that `BuildKeyName` prints. -/
def printedNum (orderedInserts : Bool) (keyNum : UInt64) : UInt64 :=
  if !orderedInserts then Utils.hash keyNum else keyNum

/-- `int zeros = zero_padding_ - key_num_str.length()`.  The length is a `size_t`,
so the `int` is converted to it, the difference is taken modulo `2 ^ 64`, and the
result is cut down to an `int` again. -/
def paddingZeros (zeroPadding : Int32) (length : ℕ) : Int32 :=
  (zeroPadding.toInt64.toUInt64 - UInt64.ofNat length).toUInt32.toInt32

/-- `BuildKeyName`. -/
def buildKeyName (orderedInserts : Bool) (zeroPadding : Int32) (keyNum : UInt64) : Str :=
  let keyNumStr := toStr (printedNum orderedInserts keyNum).toNat
  let zeros := max 0 (paddingZeros zeroPadding keyNumStr.length).toInt
  "user".toList ++ List.replicate zeros.toNat '0' ++ keyNumStr

/-- The text after `user` is a decimal numeral of the printed number. -/
theorem ofDigitChars_buildKeyName (ordered : Bool) (padding : Int32) (keyNum : UInt64) :
    Nat.ofDigitChars 10 ((buildKeyName ordered padding keyNum).drop 4) 0 =
      (printedNum ordered keyNum).toNat := by
  have hdrop : (buildKeyName ordered padding keyNum).drop 4 =
      List.replicate (max 0 (paddingZeros padding
        (toStr (printedNum ordered keyNum).toNat).length).toInt).toNat '0' ++
        toStr (printedNum ordered keyNum).toNat := by
    rw [buildKeyName, List.append_assoc]
    exact List.drop_left' rfl
  rw [hdrop, Nat.ofDigitChars_append, Nat.ofDigitChars_replicate_zero, Nat.mul_zero, toStr,
    Nat.ofDigitChars_ten_toDigits]

theorem printedNum_eq_of_buildKeyName_eq {ordered : Bool} {padding : Int32} {a b : UInt64}
    (heq : buildKeyName ordered padding a = buildKeyName ordered padding b) :
    printedNum ordered a = printedNum ordered b := by
  have htext := congrArg (fun name => Nat.ofDigitChars 10 (name.drop 4) 0) heq
  simp only [ofDigitChars_buildKeyName] at htext
  exact UInt64.toNat_inj.mp htext

/-- Key names of ordered inserts differ for all key numbers. -/
theorem buildKeyName_ordered_inj {padding : Int32} {a b : UInt64}
    (heq : buildKeyName true padding a = buildKeyName true padding b) : a = b :=
  printedNum_eq_of_buildKeyName_eq heq

/-- Key names differ for different key numbers below `2 ^ 32`, in either order. -/
theorem buildKeyName_inj {ordered : Bool} {padding : Int32} {a b : UInt64} (ha : a < 2 ^ 32)
    (hb : b < 2 ^ 32) (heq : buildKeyName ordered padding a = buildKeyName ordered padding b) :
    a = b := by
  cases ordered with
  | true => exact buildKeyName_ordered_inj heq
  | false => exact Utils.fnvHash64_inj ha hb (printedNum_eq_of_buildKeyName_eq heq)

/-- Distinct records get distinct keys: below `2 ^ 32` in either insert order, and
for all key numbers when inserts are ordered.  The hash alone keeps the numbers
below `2 ^ 32` apart. -/
theorem buildKeyName_injOn (ordered : Bool) (padding : Int32) :
    Set.InjOn (buildKeyName ordered padding) {k | k < 2 ^ 32} ∧
      Function.Injective (buildKeyName true padding) ∧
      Set.InjOn Utils.fnvHash64 {k | k < 2 ^ 32} :=
  ⟨fun _ ha _ hb heq => buildKeyName_inj ha hb heq, fun _ _ heq => buildKeyName_ordered_inj heq,
    fun _ ha _ hb heq => Utils.fnvHash64_inj ha hb heq⟩

end CoreWorkload

end YcsbC
