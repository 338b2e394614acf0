import Mathlib.Logic.Function.Iterate

/-!
# Utilities

The parts of `core/utils.h` that the workload uses: the hash of a key number and
the character a field value is filled with.  A `std::string` is a list of
characters, each standing for one byte.
-/

namespace YcsbC

/-- `std::string`. -/
abbrev Str := List Char

namespace Utils

/-- `kFNVOffsetBasis64`. -/
def kFNVOffsetBasis64 : UInt64 := 0xCBF29CE484222325

/-- `kFNVPrime64`. -/
def kFNVPrime64 : UInt64 := 1099511628211

/-- One turn of the loop of `FNVHash64`, on `val` and `hash`. -/
def fnvRound (s : UInt64 × UInt64) : UInt64 × UInt64 :=
  let octet := s.1 &&& 0x00ff
  (s.1 >>> 8, (s.2 ^^^ octet) * kFNVPrime64)

/-- `FNVHash64`. -/
def fnvHash64 (val : UInt64) : UInt64 := (fnvRound^[8] (val, kFNVOffsetBasis64)).2

/-- `Hash`. -/
def hash (val : UInt64) : UInt64 := fnvHash64 val

/-- `RandomPrintChar`, as a function of the result of `rand()`. -/
def randomPrintChar (rand : ℕ) : Char := Char.ofNat (rand % 94 + 33)

end Utils

end YcsbC
