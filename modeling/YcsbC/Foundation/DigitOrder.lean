import Mathlib.Data.Nat.Notation
import Mathlib.Algebra.Order.Group.Nat

/-!
# The order of numerals

Decimal numerals compared as texts and as numbers.  Among numerals of one length the two
orders agree (`lt_iff_ofDigitChars_lt`).  Numerals of different lengths are brought to one
length by zeros on their left, which keep the number (`ofDigitChars_leftpad`), so the
lexicographic order of the padded numerals of two numbers is the order of the numbers
(`leftpad_lt_leftpad_iff`).
-/

namespace DigitOrder

/-- All characters are decimal digits. -/
def IsNumeral (text : List Char) : Prop := ∀ c ∈ text, c.isDigit

theorem isNumeral_toDigits (n : ℕ) : IsNumeral (Nat.toDigits 10 n) :=
  fun _ hc => Nat.isDigit_of_mem_toDigits (by decide) (by decide) hc

theorem IsNumeral.leftpad {text : List Char} (hnumeral : IsNumeral text) (width : ℕ) :
    IsNumeral (text.leftpad width '0') := by
  intro c hc
  rw [List.leftpad, List.mem_append] at hc
  cases hc with
  | inl hzero => rw [List.eq_of_mem_replicate hzero]; rfl
  | inr htext => exact hnumeral c htext

/-! ## Values of digits -/

theorem digit_le {c : Char} (hdigit : c.isDigit) : '0'.toNat ≤ c.toNat :=
  (Char.isDigit_iff_toNat.mp hdigit).1

/-- Digits are ordered as the numbers they stand for. -/
theorem digit_lt_iff {c d : Char} (hc : c.isDigit) (hd : d.isDigit) :
    c < d ↔ c.toNat - '0'.toNat < d.toNat - '0'.toNat := by
  have hlt : c < d ↔ c.toNat < d.toNat := Iff.rfl
  have hcle := digit_le hc
  have hdle := digit_le hd
  rw [hlt]
  omega

/-- The first digit counts the power of ten of the length behind it. -/
theorem ofDigitChars_lead (c : Char) (text : List Char) :
    Nat.ofDigitChars 10 (c :: text) 0 =
      10 ^ text.length * (c.toNat - '0'.toNat) + Nat.ofDigitChars 10 text 0 := by
  rw [Nat.ofDigitChars_cons, Nat.ofDigitChars_eq_ofDigitChars_zero, Nat.mul_zero, Nat.zero_add]

/-- A numeral stands for less than the power of ten above it. -/
theorem ofDigitChars_lt_pow {text : List Char} (hnumeral : IsNumeral text) :
    Nat.ofDigitChars 10 text 0 < 10 ^ text.length := by
  induction text with
  | nil => simp
  | cons c text ih =>
    have htail := ih fun d hd => hnumeral d (List.mem_cons_of_mem c hd)
    have hdigit := Char.isDigit_iff_toNat.mp (hnumeral c List.mem_cons_self)
    have hvalue : c.toNat - '0'.toNat ≤ 9 := by
      have hnine : '9'.toNat = '0'.toNat + 9 := rfl
      omega
    have hlead := Nat.mul_le_mul_left (10 ^ text.length) hvalue
    rw [ofDigitChars_lead, List.length_cons, Nat.pow_succ]
    omega

/-- Zeros on the left keep the number. -/
theorem ofDigitChars_leftpad (width : ℕ) (text : List Char) :
    Nat.ofDigitChars 10 (text.leftpad width '0') 0 = Nat.ofDigitChars 10 text 0 := by
  rw [List.leftpad, Nat.ofDigitChars_append, Nat.ofDigitChars_replicate_zero, Nat.mul_zero]

/-! ## The order -/

/-- Two leading digits decide the order of the numbers before what follows them. -/
theorem lead_lt_iff {bound x y u v : ℕ} (hu : u < bound) (hv : v < bound) :
    bound * x + u < bound * y + v ↔ x < y ∨ x = y ∧ u < v := by
  rcases lt_trichotomy x y with hlt | heq | hgt
  · have hstep := Nat.mul_le_mul_left bound (Nat.succ_le_of_lt hlt)
    rw [Nat.mul_succ] at hstep
    constructor
    · intro _
      exact Or.inl hlt
    · intro _
      omega
  · subst heq
    simp
  · have hstep := Nat.mul_le_mul_left bound (Nat.succ_le_of_lt hgt)
    rw [Nat.mul_succ] at hstep
    constructor
    · intro _
      omega
    · intro hor
      omega

/-- Numerals of one length are ordered as texts as they are as numbers. -/
theorem lt_iff_ofDigitChars_lt {a b : List Char} (ha : IsNumeral a) (hb : IsNumeral b)
    (hlength : a.length = b.length) :
    a < b ↔ Nat.ofDigitChars 10 a 0 < Nat.ofDigitChars 10 b 0 := by
  induction a generalizing b with
  | nil =>
    cases b with
    | nil => simp
    | cons d b => cases hlength
  | cons c a ih =>
    cases b with
    | nil => cases hlength
    | cons d b =>
      have htailA : IsNumeral a := fun e he => ha e (List.mem_cons_of_mem c he)
      have htailB : IsNumeral b := fun e he => hb e (List.mem_cons_of_mem d he)
      have hc := ha c List.mem_cons_self
      have hd := hb d List.mem_cons_self
      have hsame : a.length = b.length := Nat.succ.inj hlength
      have hheads : c = d ↔ c.toNat - '0'.toNat = d.toNat - '0'.toNat := by
        rw [← Char.toNat_inj]
        have hcle := digit_le hc
        have hdle := digit_le hd
        omega
      have hboundA := ofDigitChars_lt_pow htailA
      rw [hsame] at hboundA
      rw [List.cons_lt_cons_iff, ih htailA htailB hsame, digit_lt_iff hc hd, hheads,
        ofDigitChars_lead, ofDigitChars_lead, hsame,
        lead_lt_iff hboundA (ofDigitChars_lt_pow htailB)]

/-- Text order of padded numerals is the order of the numbers, as far as the padding
reaches. -/
theorem leftpad_lt_leftpad_iff {width a b : ℕ} (ha : (Nat.toDigits 10 a).length ≤ width)
    (hb : (Nat.toDigits 10 b).length ≤ width) :
    (Nat.toDigits 10 a).leftpad width '0' < (Nat.toDigits 10 b).leftpad width '0' ↔ a < b := by
  have hlength : ((Nat.toDigits 10 a).leftpad width '0').length =
      ((Nat.toDigits 10 b).leftpad width '0').length := by
    rw [List.length_leftpad, List.length_leftpad, max_eq_left ha, max_eq_left hb]
  rw [lt_iff_ofDigitChars_lt ((isNumeral_toDigits a).leftpad width)
    ((isNumeral_toDigits b).leftpad width) hlength, ofDigitChars_leftpad, ofDigitChars_leftpad,
    Nat.ofDigitChars_ten_toDigits, Nat.ofDigitChars_ten_toDigits]

/-- What two texts begin with in common does not matter for their order. -/
theorem append_lt_append_iff {text a b : List Char} : text ++ a < text ++ b ↔ a < b := by
  induction text with
  | nil => rfl
  | cons c text ih => rw [List.cons_append, List.cons_append, List.cons_lt_cons_self, ih]

end DigitOrder
