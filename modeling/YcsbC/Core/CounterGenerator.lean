import Mathlib.Data.UInt

/-!
# Counters

`CounterGenerator` hands out consecutive numbers with one atomic `fetch_add` each.
The numbers are `uint64_t` and wrap.
-/

namespace YcsbC

/-- `CounterGenerator`. -/
structure CounterGenerator where
  /-- `counter_`. -/
  counter : UInt64
deriving DecidableEq, Repr

namespace CounterGenerator

/-- `Next`: the number handed out and the counter after the `fetch_add`. -/
def next (g : CounterGenerator) : UInt64 × CounterGenerator := (g.counter, ⟨g.counter + 1⟩)

/-- `Last`. -/
def last (g : CounterGenerator) : UInt64 := g.counter - 1

/-- `Set`. -/
def set (_ : CounterGenerator) (start : UInt64) : CounterGenerator := ⟨start⟩

end CounterGenerator

/-- An `int` converted to `uint64_t` or `size_t`. -/
def sizeOfInt (n : Int32) : UInt64 := n.toInt64.toUInt64

theorem toNat_sizeOfInt {n : Int32} (h : 0 ≤ n.toInt) : (sizeOfInt n).toNat = n.toInt.toNat := by
  have hle : 0 ≤ n.toInt64 := by
    rw [Int64.le_iff_toInt_le, Int32.toInt_toInt64]
    exact h
  rw [sizeOfInt, Int64.toNat_toUInt64_of_le hle, Int32.toNatClampNeg_toInt64]
  rfl

/-- A negative `int` is converted to a number far above those of the others. -/
theorem intCast_sizeOfInt (n : Int32) : ((sizeOfInt n).toNat : ℤ) = n.toInt % 2 ^ 64 := by
  have hint : n.toInt64.toBitVec.toInt = n.toInt := by
    rw [Int64.toInt_toBitVec, Int32.toInt_toInt64]
  have hlt : ((sizeOfInt n).toNat : ℤ) < (2 ^ 64 : ℕ) := by exact_mod_cast (sizeOfInt n).toNat_lt
  calc ((sizeOfInt n).toNat : ℤ)
      = ((sizeOfInt n).toNat : ℤ) % (2 ^ 64 : ℕ) :=
        (Int.emod_eq_of_lt (Int.natCast_nonneg _) hlt).symm
    _ = ((n.toInt64.toBitVec.toNat : ℤ).bmod (2 ^ 64)) % (2 ^ 64 : ℕ) := Int.bmod_emod.symm
    _ = n.toInt % 2 ^ 64 := by
        rw [← BitVec.toInt_eq_toNat_bmod, hint]
        rfl

theorem toNat_add_ofNat {start : UInt64} {i : ℕ} (h : start.toNat + i < 2 ^ 64) :
    (start + UInt64.ofNat i).toNat = start.toNat + i := by
  rw [UInt64.toNat_add, UInt64.toNat_ofNat', Nat.add_mod_mod, Nat.mod_eq_of_lt h]

/-- The quotient of two `int`s, the divisor positive. -/
theorem toNat_div {n d : Int32} (hd : 0 < d.toInt) :
    (n / d).toInt.toNat = n.toInt.toNat / d.toInt.toNat := by
  have hne : d ≠ -1 := by
    rintro rfl
    exact absurd hd (by decide)
  rw [Int32.toInt_div_of_ne_right _ _ hne]
  obtain ⟨b, hb⟩ := Int.eq_ofNat_of_zero_le hd.le
  rw [hb, Int.toNat_natCast]
  rcases Int.le_total 0 n.toInt with hn | hn
  · obtain ⟨a, ha⟩ := Int.eq_ofNat_of_zero_le hn
    rw [ha, ← Int.ofNat_tdiv, Int.toNat_natCast, Int.toNat_natCast]
  · have hquot : n.toInt.tdiv b ≤ 0 := by
      rw [← Int.neg_nonneg, ← Int.neg_tdiv]
      exact Int.tdiv_nonneg (Int.neg_nonneg_of_nonpos hn) (Int.natCast_nonneg b)
    rw [Int.toNat_of_nonpos hquot, Int.toNat_of_nonpos hn, Nat.zero_div]

end YcsbC
