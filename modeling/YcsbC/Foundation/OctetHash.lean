import Mathlib.Data.Int.ModEq
import Mathlib.Tactic.Ring
import Mathlib.Tactic.Linarith

/-!
# Hashing by xor with an octet and a multiplication

A 64-bit hash state absorbs an octet by xor and is then multiplied by a constant
`p` modulo `2 ^ 64`.  As an integer, a xor with an octet moves the state by less
than 256 (`octetShift_abs_le`).  So two states that absorb octets stay related
by an equation over the integers modulo `2 ^ 64` with small unknowns
(`absorb_sub`), and a collision after several rounds is a small solution of one
linear congruence.  Whether there are such solutions depends on `p`.
-/

namespace OctetHash

/-- One round. -/
def absorb (p h o : UInt64) : UInt64 := (h ^^^ o) * p

/-- How far a xor with an octet moves the state. -/
def octetShift (h o : UInt64) : ℤ := (h ^^^ o).toNat - h.toNat

theorem octetShift_abs_le (h : UInt64) {o : UInt64} (ho : o.toNat < 256) :
    |octetShift h o| ≤ 255 := by
  have hdiv : (h ^^^ o).toNat / 2 ^ 8 = h.toNat / 2 ^ 8 := by
    have hzero : o.toNat / 2 ^ 8 = 0 := Nat.div_eq_of_lt ho
    rw [UInt64.toNat_xor, Nat.xor_div_two_pow, hzero, Nat.xor_zero]
  unfold octetShift
  rw [abs_le]
  omega

/-- From one state, the shift determines the octet. -/
theorem octetShift_inj {h a b : UInt64} (heq : octetShift h a = octetShift h b) : a = b := by
  unfold octetShift at heq
  have hxor : h ^^^ a = h ^^^ b := UInt64.toNat_inj.mp (by omega)
  have := congrArg (h ^^^ ·) hxor
  simpa [← UInt64.xor_assoc] using this

/-- The difference of two states after a round, in terms of the difference before
it and the two shifts. -/
theorem absorb_sub (p h h' o o' : UInt64) :
    ((absorb p h o).toNat : ℤ) - (absorb p h' o').toNat ≡
      p.toNat * ((h.toNat - h'.toNat) + (octetShift h o - octetShift h' o')) [ZMOD 2 ^ 64] := by
  have hround : ∀ h o, ((absorb p h o).toNat : ℤ) ≡ (h ^^^ o).toNat * p.toNat [ZMOD 2 ^ 64] := by
    intro h o
    rw [absorb, UInt64.toNat_mul]
    push_cast
    exact Int.mod_modEq _ _
  have hsum : ((h ^^^ o).toNat * p.toNat : ℤ) - (h' ^^^ o').toNat * p.toNat =
      p.toNat * ((h.toNat - h'.toNat) + (octetShift h o - octetShift h' o')) := by
    unfold octetShift
    ring
  exact hsum ▸ (hround h o).sub (hround h' o')

/-- With an invertible multiplier, a round with a fixed octet loses nothing. -/
theorem absorb_left_injective {p q : UInt64} (hpq : p * q = 1) (o : UInt64) {h h' : UInt64}
    (heq : absorb p h o = absorb p h' o) : h = h' := by
  have hxor : h ^^^ o = h' ^^^ o := by
    calc h ^^^ o = (h ^^^ o) * p * q := by rw [UInt64.mul_assoc, hpq, UInt64.mul_one]
      _ = (h' ^^^ o) * p * q := congrArg (· * q) heq
      _ = h' ^^^ o := by rw [UInt64.mul_assoc, hpq, UInt64.mul_one]
  have := congrArg (· ^^^ o) hxor
  simpa [UInt64.xor_assoc] using this

/-! ## Several rounds -/

/-- The state after a list of octets. -/
def absorbAll (p h : UInt64) (os : List UInt64) : UInt64 := os.foldl (absorb p) h

/-- The difference of two states after several rounds with the octets paired up,
as a polynomial in `p` whose coefficients are differences of shifts.  `d` is the
difference to start with. -/
def drift (p : UInt64) : (h h' : UInt64) → ℤ → List (UInt64 × UInt64) → ℤ
  | _, _, d, [] => d
  | h, h', d, (o, o') :: os =>
      drift p (absorb p h o) (absorb p h' o')
        (p.toNat * (d + (octetShift h o - octetShift h' o'))) os

theorem drift_congr (p : UInt64) :
    ∀ (os : List (UInt64 × UInt64)) (h h' : UInt64) {d d' : ℤ}, d ≡ d' [ZMOD 2 ^ 64] →
      drift p h h' d os ≡ drift p h h' d' os [ZMOD 2 ^ 64]
  | [], _, _, _, _, hd => hd
  | _ :: os, _, _, _, _, hd => drift_congr p os _ _ ((hd.add_right _).mul_left _)

/-- Two chains of rounds differ by their drift. -/
theorem absorbAll_sub (p : UInt64) :
    ∀ (os : List (UInt64 × UInt64)) (h h' : UInt64),
      ((absorbAll p h (os.map Prod.fst)).toNat : ℤ) - (absorbAll p h' (os.map Prod.snd)).toNat ≡
        drift p h h' (h.toNat - h'.toNat) os [ZMOD 2 ^ 64]
  | [], _, _ => Int.ModEq.refl _
  | (o, o') :: os, h, h' =>
      (absorbAll_sub p os (absorb p h o) (absorb p h' o')).trans
        (drift_congr p os _ _ (absorb_sub p h h' o o'))

/-- A chain of rounds with the same octets loses nothing. -/
theorem absorbAll_left_injective {p q : UInt64} (hpq : p * q = 1) :
    ∀ (os : List UInt64) {h h' : UInt64}, absorbAll p h os = absorbAll p h' os → h = h'
  | [], _, _, heq => heq
  | o :: os, _, _, heq => absorb_left_injective hpq o (absorbAll_left_injective hpq os heq)

end OctetHash
