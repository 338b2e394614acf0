import YcsbC.Core.Utils
import YcsbC.Foundation.OctetHash
import Mathlib.Data.Set.Function
import Mathlib.Data.UInt
import Mathlib.RingTheory.Coprime.Lemmas

/-!
# The hash keeps key numbers below `2 ^ 32` apart

A number below `2 ^ 32` fills the first four octets, and the last four rounds of
`fnvHash64` absorb zeros, which loses nothing.  So a collision is one after four
rounds.  By `OctetHash.absorbAll_sub` it solves

`p ^ 3 * e₀ + p ^ 2 * e₁ + p * e₂ + e₃ ≡ 0  (mod 2 ^ 64)`

in integers of absolute value at most 510.  The prime is `2 ^ 40 + 435`, so the
powers of it split into a small multiple of `2 ^ 40` and a small rest.  The rests
must cancel over the integers and the multiples modulo `2 ^ 24`, and `smallSolution`
shows that only zero does both.
-/

namespace YcsbC.Utils

open OctetHash

/-! ## The octets of a number -/

/-- The octets the loop of `fnvHash64` absorbs, in order. -/
def octets : (i : ℕ) → UInt64 → List UInt64
  | 0, _ => []
  | i + 1, val => (val &&& 0x00ff) :: octets i (val >>> 8)

theorem iterate_fnvRound :
    ∀ (i : ℕ) (val h : UInt64),
      (fnvRound^[i] (val, h)).2 = absorbAll kFNVPrime64 h (octets i val)
  | 0, _, _ => rfl
  | i + 1, val, h => by
      rw [Function.iterate_succ_apply, octets, absorbAll, List.foldl_cons]
      exact iterate_fnvRound i (val >>> 8) _

theorem toNat_octet (val : UInt64) : (val &&& 0x00ff).toNat = val.toNat % 256 := by
  rw [UInt64.toNat_and]
  exact Nat.and_two_pow_sub_one_eq_mod _ 8

theorem toNat_shift (val : UInt64) : (val >>> 8).toNat = val.toNat / 256 := by
  rw [UInt64.toNat_shiftRight]
  exact Nat.shiftRight_eq_div_pow _ 8

/-- The octets of a number that is used up are zero. -/
theorem octets_zero : ∀ i : ℕ, octets i 0 = List.replicate i 0
  | 0 => rfl
  | i + 1 => by
      rw [octets, List.replicate_succ]
      exact congrArg₂ List.cons rfl (octets_zero i)

theorem octets_add : ∀ (i j : ℕ) (val : UInt64), ∃ val' : UInt64,
    octets (i + j) val = octets i val ++ octets j val' ∧ val'.toNat = val.toNat / 256 ^ i
  | 0, j, val => ⟨val, by simp [octets], by simp⟩
  | i + 1, j, val => by
      obtain ⟨val', heq, hval⟩ := octets_add i j (val >>> 8)
      refine ⟨val', ?_, ?_⟩
      · rw [Nat.add_right_comm, octets, octets, heq, List.cons_append]
      · rw [hval, toNat_shift, Nat.div_div_eq_div_mul, pow_succ']

theorem octet_lt : ∀ (i : ℕ) (val : UInt64), ∀ o ∈ octets i val, o.toNat < 256
  | 0, _, _, ho => absurd ho List.not_mem_nil
  | i + 1, val, o, ho => by
      rcases List.mem_cons.mp ho with rfl | ho
      · rw [toNat_octet]
        exact Nat.mod_lt _ (by decide)
      · exact octet_lt i _ o ho

/-- A number is determined by the octets that it fills. -/
theorem octets_inj : ∀ (i : ℕ) {x y : UInt64}, x.toNat < 256 ^ i → y.toNat < 256 ^ i →
    octets i x = octets i y → x = y
  | 0, x, y, hx, hy, _ => by
      rw [pow_zero, Nat.lt_one_iff] at hx hy
      exact UInt64.toNat_inj.mp (hx.trans hy.symm)
  | i + 1, x, y, hx, hy, heq => by
      rw [octets, octets, List.cons.injEq, ← UInt64.toNat_inj, toNat_octet, toNat_octet] at heq
      rw [pow_succ] at hx hy
      have hshift : (x >>> 8) = (y >>> 8) := octets_inj i
        (by rw [toNat_shift]; exact Nat.div_lt_of_lt_mul (by omega))
        (by rw [toNat_shift]; exact Nat.div_lt_of_lt_mul (by omega)) heq.2
      have hdiv := congrArg UInt64.toNat hshift
      rw [toNat_shift, toNat_shift] at hdiv
      refine UInt64.toNat_inj.mp ?_
      rw [← Nat.div_add_mod x.toNat 256, hdiv, heq.1, Nat.div_add_mod]

/-- A number below `2 ^ 32` fills four octets and leaves zeros. -/
theorem octets_eight {val : UInt64} (h : val < 2 ^ 32) :
    octets 8 val = octets 4 val ++ List.replicate 4 0 := by
  obtain ⟨val', heq, hval⟩ := octets_add 4 4 val
  have hlt : val.toNat < 256 ^ 4 := h
  have hzero : val' = 0 := UInt64.toNat_inj.mp (by rw [hval, Nat.div_eq_of_lt hlt]; rfl)
  rw [heq, hzero, octets_zero]

/-! ## The congruence of a collision -/

/-- The inverse of the prime modulo `2 ^ 64`. -/
theorem kFNVPrime64_mul_inv : kFNVPrime64 * 14886173955864302971 = 1 := by decide +kernel

theorem toNat_kFNVPrime64 : (kFNVPrime64.toNat : ℤ) = 1099511628211 := by decide +kernel

/-- Horner's scheme at 435: a polynomial with small coefficients that vanishes there has
a quotient whose coefficients are -1, 0 or 1. -/
theorem exists_quotient {e₀ e₁ e₂ e₃ : ℤ} (h₁ : -510 ≤ e₁ ∧ e₁ ≤ 510) (h₂ : -510 ≤ e₂ ∧ e₂ ≤ 510)
    (h₃ : -510 ≤ e₃ ∧ e₃ ≤ 510) (hroot : 82312875 * e₀ + 189225 * e₁ + 435 * e₂ + e₃ = 0) :
    ∃ q₀ q₁, e₃ = -435 * q₀ ∧ e₂ = q₀ - 435 * q₁ ∧ e₁ = q₁ - 435 * e₀ ∧
      (-1 ≤ q₀ ∧ q₀ ≤ 1) ∧ (-1 ≤ q₁ ∧ q₁ ≤ 1) ∧ -1 ≤ e₀ ∧ e₀ ≤ 1 := by
  obtain ⟨q₀, hq₀⟩ : ∃ q₀, q₀ = 189225 * e₀ + 435 * e₁ + e₂ := ⟨_, rfl⟩
  obtain ⟨q₁, hq₁⟩ : ∃ q₁, q₁ = 435 * e₀ + e₁ := ⟨_, rfl⟩
  have he₃ : e₃ = -435 * q₀ := by omega
  have hb₀ : -1 ≤ q₀ ∧ q₀ ≤ 1 := by
    clear hroot hq₀ hq₁
    omega
  have he₂ : e₂ = q₀ - 435 * q₁ := by omega
  have hb₁ : -1 ≤ q₁ ∧ q₁ ≤ 1 := by
    clear hroot hq₀ hq₁
    omega
  exact ⟨q₀, q₁, he₃, he₂, by omega, hb₀, hb₁, by omega, by omega⟩

/-- The only solution of the congruence of a collision in small integers is zero. -/
theorem smallSolution {e₀ e₁ e₂ e₃ : ℤ} (h₀ : |e₀| ≤ 510) (h₁ : |e₁| ≤ 510) (h₂ : |e₂| ≤ 510)
    (h₃ : |e₃| ≤ 510)
    (hmod : (2 ^ 64 : ℤ) ∣
      1099511628211 * (1099511628211 * (1099511628211 * e₀ + e₁) + e₂) + e₃) :
    e₀ = 0 ∧ e₁ = 0 ∧ e₂ = 0 ∧ e₃ = 0 := by
  rw [abs_le] at h₀ h₁ h₂ h₃
  -- the powers of `2 ^ 40 + 435` modulo `2 ^ 64`, with the multiple of `2 ^ 40` split off
  have hsplit : (2 ^ 64 : ℤ) ∣ 2 ^ 40 * (567675 * e₀ + 870 * e₁ + e₂) +
      (82312875 * e₀ + 189225 * e₁ + 435 * e₂ + e₃) := by
    obtain ⟨c, hc⟩ := hmod
    refine ⟨c - (1099511628211 ^ 3 / 2 ^ 64) * e₀ - (1099511628211 ^ 2 / 2 ^ 64) * e₁, ?_⟩
    norm_num at hc ⊢
    linarith
  clear hmod
  have hrest : 82312875 * e₀ + 189225 * e₁ + 435 * e₂ + e₃ = 0 := by
    refine Int.eq_zero_of_abs_lt_dvd (m := 2 ^ 40) ?_ (abs_lt.mpr ⟨by linarith, by linarith⟩)
    have hdvd : (2 ^ 40 : ℤ) ∣ 2 ^ 64 := pow_dvd_pow 2 (by decide)
    exact (dvd_add_right (dvd_mul_right _ _)).mp (hdvd.trans hsplit)
  have hhigh : (2 ^ 24 : ℤ) ∣ 567675 * e₀ + 870 * e₁ + e₂ := by
    rw [hrest, add_zero, show (2 ^ 64 : ℤ) = 2 ^ 40 * 2 ^ 24 by norm_num] at hsplit
    exact (mul_dvd_mul_iff_left (by norm_num)).mp hsplit
  obtain ⟨q₀, q₁, he₃, he₂, he₁, hb₀, hb₁, hb₂⟩ := exists_quotient h₁ h₂ h₃ hrest
  -- the derivative vanishes too modulo `2 ^ 24`, where the quotient is too small to wrap
  have hquot : 189225 * e₀ + 435 * q₁ + q₀ = 0 := by
    refine Int.eq_zero_of_abs_lt_dvd (m := 2 ^ 24) ?_ (abs_lt.mpr ⟨by linarith, by linarith⟩)
    rwa [he₂, he₁, show 567675 * e₀ + 870 * (q₁ - 435 * e₀) + (q₀ - 435 * q₁) =
      189225 * e₀ + 435 * q₁ + q₀ by ring] at hhigh
  clear hsplit hrest hhigh
  have hzero : e₀ = 0 ∧ q₁ = 0 ∧ q₀ = 0 := by
    clear he₁ he₂ he₃
    omega
  omega

/-- Two chains of four octets from one state that end in the same state are the
same. -/
theorem absorbAll_four_injective {p : UInt64} (hp : (p.toNat : ℤ) = 1099511628211) (h : UInt64)
    {a₀ a₁ a₂ a₃ b₀ b₁ b₂ b₃ : UInt64}
    (ha : ∀ o ∈ [a₀, a₁, a₂, a₃], o.toNat < 256) (hb : ∀ o ∈ [b₀, b₁, b₂, b₃], o.toNat < 256)
    (heq : absorbAll p h [a₀, a₁, a₂, a₃] = absorbAll p h [b₀, b₁, b₂, b₃]) :
    [a₀, a₁, a₂, a₃] = [b₀, b₁, b₂, b₃] := by
  simp only [List.mem_cons, List.not_mem_nil, or_false, forall_eq_or_imp, forall_eq] at ha hb
  obtain ⟨ha₀, ha₁, ha₂, ha₃⟩ := ha
  obtain ⟨hb₀, hb₁, hb₂, hb₃⟩ := hb
  have hshift : ∀ h h' {a b : UInt64}, a.toNat < 256 → b.toNat < 256 →
      |octetShift h a - octetShift h' b| ≤ 510 := by
    intro h h' a b hlt hlt'
    have hle := abs_le.mp (octetShift_abs_le h hlt)
    have hle' := abs_le.mp (octetShift_abs_le h' hlt')
    exact abs_le.mpr ⟨by omega, by omega⟩
  -- the collision as a congruence
  have hsub := absorbAll_sub p [(a₀, b₀), (a₁, b₁), (a₂, b₂), (a₃, b₃)] h h
  simp only [List.map_cons, List.map_nil, heq, sub_self, drift, zero_add, hp] at hsub
  have hcoprime : IsCoprime (2 ^ 64 : ℤ) 1099511628211 :=
    Int.isCoprime_iff_gcd_eq_one.mpr (by decide +kernel)
  have hmod := hcoprime.dvd_of_dvd_mul_left (Int.modEq_zero_iff_dvd.mp hsub.symm)
  obtain ⟨e₀, e₁, e₂, e₃⟩ := smallSolution (hshift h h ha₀ hb₀) (hshift _ _ ha₁ hb₁)
    (hshift _ _ ha₂ hb₂) (hshift _ _ ha₃ hb₃) hmod
  -- the first shifts agree from one state, so the first octets do, and so on
  obtain rfl := octetShift_inj (sub_eq_zero.mp e₀)
  obtain rfl := octetShift_inj (sub_eq_zero.mp e₁)
  obtain rfl := octetShift_inj (sub_eq_zero.mp e₂)
  obtain rfl := octetShift_inj (sub_eq_zero.mp e₃)
  rfl

/-! ## The hash -/

/-- Different numbers below `2 ^ 32` have different hashes. -/
theorem fnvHash64_inj {x y : UInt64} (hx : x < 2 ^ 32) (hy : y < 2 ^ 32)
    (heq : fnvHash64 x = fnvHash64 y) : x = y := by
  have hfour : octets 4 x = octets 4 y := by
    unfold fnvHash64 at heq
    rw [iterate_fnvRound, iterate_fnvRound, octets_eight hx, octets_eight hy, absorbAll,
      absorbAll, List.foldl_append, List.foldl_append] at heq
    exact absorbAll_four_injective toNat_kFNVPrime64 _ (octet_lt 4 x) (octet_lt 4 y)
      (absorbAll_left_injective kFNVPrime64_mul_inv _ heq)
  exact octets_inj 4 hx hy hfour

end YcsbC.Utils
