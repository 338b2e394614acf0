import YcsbC.Core.KeyName
import YcsbC.Foundation.DigitOrder

/-!
# The order of key names

With `zeropadding` set, `CoreWorkload::BuildKeyName` is to make the keys of records sort
as strings in the order of their numbers.  The width of the padding is computed in `int`
and `size_t` together.  For a padding that is not negative the detour over `size_t` is
harmless and the digits are padded to just that width; a negative one pads nothing, unless
it is so close to the least `int` that the difference wraps to a large positive number
(`exists_leftpad_buildKeyName`).

As numerals of one width sort as their numbers, so do the keys of ordered inserts
(`buildKeyName_order`).
-/

namespace YcsbC

namespace CoreWorkload

/-- The text of a 64-bit number has at most twenty digits. -/
theorem length_toStr_le (n : UInt64) : (toStr n.toNat).length ≤ 20 := by
  have hlt := n.toNat_lt
  refine (Nat.length_toDigits_le_iff (by decide) (by decide)).mpr ?_
  omega

/-! ## The width of the padding -/

/-- Widening to `size_t` and cutting down again loses nothing. -/
theorem toInt32_toUInt32_toUInt64 (x : Int32) : x.toInt64.toUInt64.toUInt32.toInt32 = x := by
  apply Int32.toBitVec.inj
  have hwide : x.toInt64.toUInt64.toBitVec = x.toBitVec.signExtend 64 := rfl
  rw [UInt32.toBitVec_toInt32, UInt64.toBitVec_toUInt32, hwide]
  ext i hi
  have hwidth : i < 64 := by omega
  rw [BitVec.getElem_setWidth, BitVec.getLsbD_signExtend, if_pos hi, BitVec.getLsbD_eq_getElem hi]
  simp [hwidth]

/-- Through `size_t` and back, the difference is that of two `int`s. -/
theorem paddingZeros_eq (zeroPadding : Int32) (length : ℕ) :
    paddingZeros zeroPadding length = zeroPadding - Int32.ofNat length := by
  rw [paddingZeros, UInt64.toUInt32_sub, UInt32.toInt32_sub, toInt32_toUInt32_toUInt64,
    UInt64.toUInt32_ofNat', UInt32.toInt32_ofNat']

/-- The difference wraps below the least `int`, and is exact above. -/
theorem toInt_paddingZeros (zeroPadding : Int32) {length : ℕ} (hlength : length ≤ 20) :
    (paddingZeros zeroPadding length).toInt =
      if Int32.minValue.toInt + length ≤ zeroPadding.toInt then zeroPadding.toInt - length
      else zeroPadding.toInt - length + 2 ^ 32 := by
  have hlow := zeroPadding.le_toInt
  have hhigh := zeroPadding.toInt_lt
  have hmin : Int32.minValue.toInt = -2 ^ 31 := rfl
  rw [paddingZeros_eq, Int32.toInt_sub, Int32.toInt_ofNat_of_lt (by omega), hmin]
  split
  · exact Int.bmod_eq_of_le (by omega) (by omega)
  · rw [← Int.add_bmod_right]
    exact Int.bmod_eq_of_le (by omega) (by omega)

/-- Appending the zeros is padding to the width of zeros and text together. -/
theorem replicate_append_eq_leftpad (zeros : ℕ) (text : Str) :
    List.replicate zeros '0' ++ text = text.leftpad (zeros + text.length) '0' := by
  rw [List.leftpad, Nat.add_sub_cancel]

/-- The digits of a key name are those of the number behind zeros, up to the width that
the property gives or more.  The width is more than that only where the difference
wraps. -/
theorem exists_leftpad_buildKeyName (ordered : Bool) (zeroPadding : Int32) (keyNum : UInt64) :
    ∃ width : ℕ, zeroPadding.toInt ≤ width ∧
      (Int32.minValue.toInt + 20 ≤ zeroPadding.toInt → width = zeroPadding.toInt.toNat) ∧
      buildKeyName ordered zeroPadding keyNum =
        "user".toList ++ (toStr (printedNum ordered keyNum).toNat).leftpad width '0' := by
  have hlength := length_toStr_le (printedNum ordered keyNum)
  have hzeros := toInt_paddingZeros zeroPadding hlength
  have hmin : Int32.minValue.toInt = -2 ^ 31 := rfl
  have hlow := zeroPadding.le_toInt
  unfold buildKeyName
  rw [List.append_assoc]
  generalize toStr (printedNum ordered keyNum).toNat = text at hlength hzeros ⊢
  by_cases hexact : Int32.minValue.toInt + 20 ≤ zeroPadding.toInt
  · rw [if_pos (by omega)] at hzeros
    refine ⟨zeroPadding.toInt.toNat, Int.self_le_toNat _, fun _ => rfl, ?_⟩
    have hcount : (max 0 (paddingZeros zeroPadding text.length).toInt).toNat =
        zeroPadding.toInt.toNat - text.length := by omega
    rw [List.leftpad, hcount]
  · -- the width is negative here, and any number of zeros reaches it
    refine ⟨(max 0 (paddingZeros zeroPadding text.length).toInt).toNat + text.length, by omega,
      fun h => absurd h hexact, ?_⟩
    rw [replicate_append_eq_leftpad]

/-! ## The order -/

/-- Padded keys of ordered inserts are ordered as their numbers. -/
theorem buildKeyName_lt_iff {zeroPadding : Int32} {a b : UInt64}
    (ha : ((toStr a.toNat).length : ℤ) ≤ zeroPadding.toInt)
    (hb : ((toStr b.toNat).length : ℤ) ≤ zeroPadding.toInt) :
    buildKeyName true zeroPadding a < buildKeyName true zeroPadding b ↔ a < b := by
  have hmin : Int32.minValue.toInt = -2 ^ 31 := rfl
  obtain ⟨u, -, hu, hnameA⟩ := exists_leftpad_buildKeyName true zeroPadding a
  obtain ⟨v, -, hv, hnameB⟩ := exists_leftpad_buildKeyName true zeroPadding b
  obtain rfl := hu (by omega)
  obtain rfl := hv (by omega)
  have hnumber : ∀ n, printedNum true n = n := fun _ => rfl
  rw [hnameA, hnameB, DigitOrder.append_lt_append_iff, hnumber, hnumber, toStr, toStr,
    DigitOrder.leftpad_lt_leftpad_iff (by rw [toStr] at ha; omega) (by rw [toStr] at hb; omega),
    UInt64.lt_iff_toNat_lt]

/-- Zero padding makes the order of the keys numeric.  Keys of ordered inserts whose
numbers fit the padding sort as the numbers, and whatever the padding and the number, the
digits after `user` are the decimal text behind zeros, at least as wide as the padding, and
read back as the number. -/
theorem buildKeyName_order :
    (∀ (zeroPadding : Int32) (a b : UInt64), 1 ≤ zeroPadding.toInt →
      ((toStr a.toNat).length : ℤ) ≤ zeroPadding.toInt →
      ((toStr b.toNat).length : ℤ) ≤ zeroPadding.toInt →
        (buildKeyName true zeroPadding a < buildKeyName true zeroPadding b ↔ a < b)) ∧
      ∀ (ordered : Bool) (zeroPadding : Int32) (keyNum : UInt64),
        (∃ width : ℕ, zeroPadding.toInt ≤ width ∧
          (Int32.minValue.toInt + 20 ≤ zeroPadding.toInt → width = zeroPadding.toInt.toNat) ∧
          buildKeyName ordered zeroPadding keyNum =
            "user".toList ++ (toStr (printedNum ordered keyNum).toNat).leftpad width '0') ∧
        Nat.ofDigitChars 10 ((buildKeyName ordered zeroPadding keyNum).drop 4) 0 =
          (printedNum ordered keyNum).toNat ∧
        printedNum true keyNum = keyNum := by
  constructor
  · intro zeroPadding a b _ ha hb
    exact buildKeyName_lt_iff ha hb
  · intro ordered zeroPadding keyNum
    exact ⟨exists_leftpad_buildKeyName ordered zeroPadding keyNum,
      ofDigitChars_buildKeyName ordered zeroPadding keyNum, rfl⟩

/-- Padded to three digits, record 9 sorts before record 10. -/
theorem buildKeyName_order_nine_ten :
    buildKeyName true 3 9 < buildKeyName true 3 10 :=
  (buildKeyName_order.1 3 9 10 (by decide) (by decide) (by decide)).mpr (by decide)

end CoreWorkload

end YcsbC
