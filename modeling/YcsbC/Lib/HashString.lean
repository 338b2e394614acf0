import YcsbC.Core.Utils
import Mathlib.Data.List.TakeWhile

/-!
# Hashed C strings

`vmp::String` pairs a C string with its hash and length.  A C string is read up to its
terminating NUL, so a wrapped string holds no NUL and its hash and length are those of
its text: `HashString` carries these facts.  Two of them are equal for the table when
hash and text agree, which is when they are the same (`eqv_iff`).
-/

namespace YcsbC

/-- What a C string function reads of `s.c_str()`: the text up to the first NUL. -/
def cStr (s : Str) : Str := s.takeWhile (· != '\x00')

/-- A string without NUL, which a C string function reads as a whole. -/
def NulFree (s : Str) : Prop := '\x00' ∉ s

instance (s : Str) : Decidable (NulFree s) := inferInstanceAs (Decidable (_ ∉ s))

theorem nulFree_cStr (s : Str) : NulFree (cStr s) := by
  intro hmem
  have hne := List.mem_takeWhile_imp hmem
  revert hne
  decide

theorem cStr_eq_self {s : Str} (hs : NulFree s) : cStr s = s := by
  rw [cStr, List.takeWhile_eq_self_iff]
  intro c hc
  rw [bne_iff_ne]
  rintro rfl
  exact hs hc

theorem nulFree_append {s t : Str} : NulFree (s ++ t) ↔ NulFree s ∧ NulFree t := by
  rw [NulFree, List.mem_append, not_or]
  rfl

/-- A `char` converted to `uint64_t`: the byte is signed. -/
def charToUInt64 (c : Char) : UInt64 := c.toNat.toUInt8.toInt8.toInt64.toUInt64

/-- `SDBMHash`. -/
def sdbmHash (cstr : Str) : UInt64 :=
  cstr.foldl (fun hash c => charToUInt64 c + (hash <<< 6) + (hash <<< 16) - hash) 0

/-- `vmp::String`. -/
structure HashString where
  /-- The text that `value_` points to, without the terminating NUL. -/
  value : Str
  /-- `hash_`. -/
  hash : UInt64
  /-- `len_`. -/
  len : ℕ
  nulFree : NulFree value
  hash_eq : hash = sdbmHash value
  len_eq : len = value.length
deriving DecidableEq

namespace HashString

/-- `String::Wrap` and `String::Copy` of `s.c_str()`, by `set_value`. -/
def wrap (s : Str) : HashString where
  value := cStr s
  hash := sdbmHash (cStr s)
  len := (cStr s).length
  nulFree := nulFree_cStr s
  hash_eq := rfl
  len_eq := rfl

/-- `operator==`. -/
def eqv (a b : HashString) : Bool := if a.hash != b.hash then false else a.value == b.value

theorem ext {a b : HashString} (hvalue : a.value = b.value) : a = b := by
  cases a with
  | mk value hash len nulFree hash_eq len_eq =>
      cases b with
      | mk value' hash' len' nulFree' hash_eq' len_eq' =>
          cases hvalue
          subst hash_eq len_eq hash_eq' len_eq'
          rfl

/-- The comparison of the table is equality. -/
theorem eqv_iff {a b : HashString} : a.eqv b = true ↔ a = b := by
  constructor
  · intro h
    rw [eqv] at h
    split at h
    · cases h
    · exact ext (beq_iff_eq.mp h)
  · rintro rfl
    rw [eqv, bne_self_eq_false, if_neg Bool.false_ne_true, beq_self_eq_true]

@[simp] theorem wrap_value (a : HashString) : wrap a.value = a := ext (cStr_eq_self a.nulFree)

theorem value_wrap {s : Str} (hs : NulFree s) : (wrap s).value = s := cStr_eq_self hs

theorem wrap_inj {s t : Str} (hs : NulFree s) (ht : NulFree t) : wrap s = wrap t ↔ s = t := by
  refine ⟨fun h => ?_, congrArg wrap⟩
  rw [← value_wrap hs, h, value_wrap ht]

/-- Wrapped strings agree when the texts up to their NUL do. -/
theorem wrap_eq_wrap_iff {s t : Str} : wrap s = wrap t ↔ cStr s = cStr t :=
  ⟨fun h => congrArg value h, fun h => ext h⟩

end HashString

end YcsbC
