import YcsbC.Core.CoreWorkload
import YcsbC.Db.RecordWrites

/-!
# The fields that a workload writes

The names, keys and values that `CoreWorkload` builds are texts without NUL, so the
database stores them as they are.  An `Insert` of the values of `BuildValues` gives a
new record the fields `field0`, `field1`, … up to the field count, and an `Update` with
what `BuildValues` or `BuildUpdate` has built leaves a record with these fields.
-/

namespace YcsbC

/-! ## Texts -/

theorem toStr_injective : Function.Injective toStr := by
  intro m n heq
  have htext := congrArg (fun digits => Nat.ofDigitChars 10 digits 0) heq
  simpa only [toStr, Nat.ofDigitChars_ten_toDigits] using htext

theorem nulFree_toStr (n : ℕ) : NulFree (toStr n) := by
  intro hmem
  have hdigit := Nat.isDigit_of_mem_toDigits (by decide) (by decide) hmem
  revert hdigit
  decide

theorem Utils.randomPrintChar_ne_nul (rand : ℕ) : randomPrintChar rand ≠ '\x00' := by
  have hall : ∀ k < 94, Char.ofNat (k + 33) ≠ '\x00' := by decide
  exact hall (rand % 94) (Nat.mod_lt rand (by decide))

namespace CoreWorkload

theorem nulFree_keyName (wl : CoreWorkload) (keyNum : UInt64) : NulFree (wl.keyName keyNum) := by
  rw [keyName, buildKeyName, nulFree_append, nulFree_append]
  refine ⟨⟨by decide, fun hmem => ?_⟩, nulFree_toStr _⟩
  exact absurd (List.eq_of_mem_replicate hmem) (by decide)

theorem ValueDraw.nulFree_value (draw : ValueDraw) : NulFree draw.value := fun hmem =>
  Utils.randomPrintChar_ne_nul draw.rand (List.eq_of_mem_replicate hmem).symm

/-! ## Field names -/

/-- The name of the field with this number. -/
def fieldName (i : ℕ) : Str := "field".toList ++ toStr i

/-- `field0`, `field1`, … up to the field count. -/
def fieldNames (wl : CoreWorkload) : List Str :=
  (List.range wl.fieldCount.toInt.toNat).map fieldName

theorem fieldName_injective : Function.Injective fieldName := fun _ _ heq =>
  toStr_injective (List.append_cancel_left heq)

theorem nulFree_fieldName (i : ℕ) : NulFree (fieldName i) :=
  nulFree_append.mpr ⟨by decide, nulFree_toStr i⟩

theorem nodup_fieldNames (wl : CoreWorkload) : wl.fieldNames.Nodup :=
  List.nodup_range.map fieldName_injective

theorem map_fst_buildValues (wl : CoreWorkload) (draw : ℕ → ValueDraw) :
    (wl.buildValues draw).map Prod.fst = wl.fieldNames := by
  rw [buildValues, List.map_map]
  rfl

theorem nulFreeValues_buildValues (wl : CoreWorkload) (draw : ℕ → ValueDraw) :
    HashtableDB.NulFreeValues (wl.buildValues draw) := by
  intro pair hmem
  obtain ⟨i, -, rfl⟩ := List.mem_map.mp hmem
  exact ⟨nulFree_fieldName i, (draw i).nulFree_value⟩

theorem nulFreeValues_buildUpdate (field : UInt64) (draw : ValueDraw) :
    HashtableDB.NulFreeValues (buildUpdate field draw) := by
  intro pair hmem
  rw [List.mem_singleton.mp hmem]
  exact ⟨nulFree_fieldName _, draw.nulFree_value⟩

theorem nextFieldName_mem_fieldNames {wl : CoreWorkload} {field : UInt64}
    (hfield : field.toNat < wl.fieldCount.toInt.toNat) : nextFieldName field ∈ wl.fieldNames :=
  List.mem_map_of_mem (List.mem_range.mpr hfield)

end CoreWorkload

/-! ## Records -/

namespace HashtableDB

/-- A field table holds values for exactly these fields. -/
def HasFields (fieldTable : FieldHashtable) (names : List Str) : Prop :=
  ∃ log, Holds fieldTable log ∧ ∀ field, field ∈ log.map Prod.fst ↔ field ∈ names

variable {fieldTable : FieldHashtable} {values : List KVPair} {names : List Str}

/-- `Insert` on a new field table succeeds and gives it the fields of its pairs. -/
theorem hasFields_insertFields (hvalues : NulFreeValues values)
    (hnodup : (values.map Prod.fst).Nodup) :
    (insertFields .empty values).1 = kOK ∧
      HasFields (insertFields .empty values).2 (values.map Prod.fst) := by
  obtain ⟨hholds, hstatus⟩ := holds_insertFields holds_empty hvalues hnodup
  refine ⟨hstatus.mpr fun _ _ => rfl, _, hholds, fun field => ?_⟩
  have hall : insertedPairs [] values = values :=
    List.takeWhile_eq_self_iff.mpr fun _ _ => rfl
  rw [hall, List.nil_append]

/-- `Update` with pairs for fields that are there adds no field. -/
theorem HasFields.updateFields (hfields : HasFields fieldTable names)
    (hvalues : NulFreeValues values) (hnames : ∀ pair ∈ values, pair.1 ∈ names) :
    HasFields (updateFields fieldTable values) names := by
  obtain ⟨log, hholds, hlog⟩ := hfields
  refine ⟨_, holds_updateFields hholds hvalues, fun field => ?_⟩
  rw [List.map_append, List.mem_append, hlog]
  refine or_iff_left_of_imp fun hmem => ?_
  obtain ⟨pair, hpair, rfl⟩ := List.mem_map.mp hmem
  exact hnames pair hpair

/-- All entries of a field table list each of its fields once. -/
theorem HasFields.perm_entries (hfields : HasFields fieldTable names) (hnames : names.Nodup)
    (order : IterationOrder) : ((fieldTable.entries order none none).map Prod.fst).Perm names := by
  obtain ⟨log, hholds, hlog⟩ := hfields
  obtain ⟨hnodup, hentries⟩ := hholds.readFields_none order
  refine (List.perm_ext_iff_of_nodup hnodup hnames).mpr fun field => ?_
  have hlast : field ∈ names ↔ (log.last field).isSome :=
    (WriteLog.isSome_last.trans (hlog field)).symm
  rw [hlast, Option.isSome_iff_exists, List.mem_map]
  constructor
  · rintro ⟨⟨field, value⟩, hmem, rfl⟩
    exact ⟨value, (hentries field value).mp hmem⟩
  · rintro ⟨value, hlast⟩
    exact ⟨(field, value), (hentries field value).mpr hlast, rfl⟩

end HashtableDB

end YcsbC
