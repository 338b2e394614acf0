import YcsbC.Core.Utils
import Mathlib.Data.Int.Notation

/-!
# The database interface

`DB` as a client sees it: functions on the state of an adapter.  A call that does not
return normally gives nothing.
-/

namespace YcsbC

/-- `DB::KVPair`. -/
abbrev KVPair := Str × Str

/-- `DB::kOK`. -/
def kOK : ℤ := 0

/-- `DB::kErrorNoData`. -/
def kErrorNoData : ℤ := 1

/-- `DB::kErrorConflict`. -/
def kErrorConflict : ℤ := 2

/-- The functions of `DB` that a client calls, on the states `σ` of an adapter.  The
result vectors of `Read` and `Scan` are empty when they are called. -/
structure DB (σ : Type*) where
  /-- `Read`. -/
  read : σ → Str → Str → Option (List Str) → Option (ℤ × List KVPair × σ)
  /-- `Scan`. -/
  scan : σ → Str → Str → Int32 → Option (List Str) → Option (ℤ × List (List KVPair) × σ)
  /-- `Update`. -/
  update : σ → Str → Str → List KVPair → Option (ℤ × σ)
  /-- `Insert`. -/
  insert : σ → Str → Str → List KVPair → Option (ℤ × σ)

end YcsbC
