import YcsbC.Db.EngineWrites
import Mathlib.Data.List.TakeWhile

/-!
# What the adapters read

`Read` returns `kOK` whether the key is there or not, and leaves the value that it has
got in a variable of its own.  `Scan` goes through the records from its key on and keeps
none of them.  So `Read` does not return the record of any key, and `Scan` returns the
records asked for only when there are none (`scansRecords_iff`).
-/

namespace YcsbC

namespace EngineDB

variable {σ ι : Type} (E : Engine σ ι) (records : σ → Records) (adapter : Adapter)

/-- `Read` returns zero exactly when the key is there, and then leaves its value in the
result. -/
def ReadsRecord (s : EngineDB σ) (table key : Str) (fields : Option (List Str)) : Prop :=
  ∃ code result s', adapter.read E s table key fields = some (code, result, s') ∧
    (code = kOK ↔ Present records s key) ∧
    ∀ value, (records s.db)[key]? = some value → ∃ pair ∈ result, pair.2 = value

/-- `Scan` leaves in the result one entry, with the value, for each of the first `len`
records from the key on, in key order. -/
def ScansRecords (s : EngineDB σ) (table key : Str) (len : Int32) (fields : Option (List Str)) :
    Prop :=
  ∃ code result s', adapter.scan E s table key len fields = some (code, result, s') ∧
    List.Forall₂ (fun entry record => ∃ pair ∈ entry, pair.2 = record.2) result
      (((records s.db).startingAt key).take len.toInt.toNat)

variable {E records} {adapter}

/-- `Read` returns `kOK` and no pairs. -/
theorem exists_readValue (hgets : E.Gets records) (s : EngineDB σ) (key : Str) :
    ∃ s', s.readValue E key = some (kOK, [], s') := by
  cases hvalue : (records s.db)[key]? with
  | some value =>
      refine ⟨s, ?_⟩
      rw [readValue, hgets.found hvalue]
  | none =>
      have hmissing := hgets.missing hvalue
      cases hget : E.get s.db key with
      | mk status value =>
          rw [hget] at hmissing
          subst hmissing
          simp [readValue, hget]

/-- No call of `Read` does what is asked: it finds no value, or returns zero for a key
that is missing. -/
theorem not_readsRecord (hgets : E.Gets records) (s : EngineDB σ) (table key : Str)
    (fields : Option (List Str)) : ¬ ReadsRecord E records adapter s table key fields := by
  rintro ⟨code, result, s', hread, hcode, hvalue⟩
  obtain ⟨s₁, hspec⟩ := exists_readValue hgets s key
  rw [Adapter.read_eq, hspec] at hread
  cases hread
  obtain ⟨value, hpresent⟩ := Option.isSome_iff_exists.mp (hcode.mp rfl)
  obtain ⟨pair, hmem, -⟩ := hvalue value hpresent
  cases hmem

/-- The loop of `Scan` passes as many records as it has turns, as long as there are any,
and counts those with an empty value. -/
theorem exists_scanLoop {ahead : ι → List (Str × Str)} (hiter : E.Iterates records ahead)
    (turns : ℕ) (loop : ScanLoop ι) : ∃ loop', scanLoop E turns loop = some loop' ∧
      loop'.i = loop.i + min turns (ahead loop.it).length ∧
      loop'.cnt = loop.cnt + ((ahead loop.it).take turns).countP (·.2.isEmpty) ∧
      ahead loop'.it = (ahead loop.it).drop turns := by
  induction turns generalizing loop with
  | zero => exact ⟨loop, rfl, by simp, by simp, by simp⟩
  | succ turns ih =>
      cases hahead : ahead loop.it with
      | nil =>
          refine ⟨loop, ?_, by simp, by simp, by simp [hahead]⟩
          simp [scanLoop, hiter.valid_eq_false hahead]
      | cons record rest =>
          obtain ⟨hvalid, hkey, hval, it, hnext, hrest⟩ := hiter.at_cons hahead
          obtain ⟨loop', hloop, hi, hcnt, hdrop⟩ := ih ⟨it, record.1, record.2, loop.i + 1,
            if record.2.isEmpty then loop.cnt + 1 else loop.cnt⟩
          rw [hrest] at hi hcnt hdrop
          refine ⟨loop', ?_, ?_, ?_, ?_⟩
          · rw [scanLoop, if_pos hvalid, hkey, hval, hnext]
            exact hloop
          · simp [hi]
            omega
          · simp [hcnt, List.countP_cons]
            split <;> omega
          · simp [hdrop]

/-- `Scan` returns `kOK` and no entries. -/
theorem exists_scanRecords {ahead : ι → List (Str × Str)} (hiter : E.Iterates records ahead)
    (s : EngineDB σ) (key : Str) (len : Int32) :
    ∃ s', s.scanRecords E key len = some (kOK, [], s') := by
  obtain ⟨loop, hloop, -⟩ := exists_scanLoop hiter len.toInt.toNat
    ⟨E.seek (E.newIterator s.db) key, [], [], 0, 0⟩
  rw [scanRecords]
  dsimp only
  rw [hloop]
  exact ⟨_, rfl⟩

end EngineDB

/-- There are no records from a key on when all keys are before it. -/
theorem Records.startingAt_eq_nil_iff {records : Records} {key : Str} :
    records.startingAt key = [] ↔
      ∀ other, records[other]?.isSome → compare other key = .lt := by
  rw [startingAt, List.dropWhile_eq_nil_iff]
  constructor
  · intro hbefore other hpresent
    obtain ⟨value, hvalue⟩ := Option.isSome_iff_exists.mp hpresent
    have hlt := hbefore _ (Std.ExtTreeMap.mem_toList_iff_getElem?_eq_some.mpr hvalue)
    simpa using hlt
  · rintro hbefore ⟨other, value⟩ hmem
    have hvalue := Std.ExtTreeMap.mem_toList_iff_getElem?_eq_some.mp hmem
    simpa using hbefore other (by simp [hvalue])

namespace EngineDB

variable {σ ι : Type} {E : Engine σ ι} {records : σ → Records} {adapter : Adapter}

/-- `Read` never returns the record, and `Scan` returns the records exactly when none are
asked for or none are there. -/
theorem scansRecords_iff (hgets : E.Gets records) {ahead : ι → List (Str × Str)}
    (hiter : E.Iterates records ahead) (s : EngineDB σ) (table key : Str) (len : Int32)
    (fields : Option (List Str)) :
    ¬ ReadsRecord E records adapter s table key fields ∧
      (ScansRecords E records adapter s table key len fields ↔
        len.toInt ≤ 0 ∨ ∀ other, Present records s other → compare other key = .lt) := by
  refine ⟨not_readsRecord hgets s table key fields, ?_⟩
  obtain ⟨s', hspec⟩ := exists_scanRecords hiter s key len
  have hnone : ScansRecords E records adapter s table key len fields ↔
      ((records s.db).startingAt key).take len.toInt.toNat = [] := by
    constructor
    · rintro ⟨code, result, s₁, hscan, hentries⟩
      rw [Adapter.scan_eq, hspec] at hscan
      cases hscan
      exact List.forall₂_nil_left_iff.mp hentries
    · intro hnil
      refine ⟨kOK, [], s', ?_, ?_⟩
      · rw [Adapter.scan_eq, hspec]
      · rw [hnil]
        exact List.Forall₂.nil
  rw [hnone, List.take_eq_nil_iff, Int.toNat_eq_zero, Records.startingAt_eq_nil_iff]
  rfl

/-- Three records, one of them with an empty value. -/
def threeEngineRecords : EngineDB Records :=
  { db := ((Std.ExtTreeMap.empty.insert ['a'] ['u']).insert ['k'] []).insert ['m'] ['v'] }

/-- The theorem at these records, of which one is before the key. -/
theorem scansRecords_iff_threeEngineRecords :
    ¬ ReadsRecord treeEngine id .rocksdb threeEngineRecords ['t'] ['k'] none ∧
      (ScansRecords treeEngine id .rocksdb threeEngineRecords ['t'] ['k'] 3 none ↔
        (3 : Int32).toInt ≤ 0 ∨
          ∀ other, Present id threeEngineRecords other → compare other ['k'] = .lt) :=
  scansRecords_iff gets_treeEngine iterates_treeEngine threeEngineRecords ['t'] ['k'] 3 none

/-- One record. -/
def oneEngineRecord : EngineDB Records := { db := Std.ExtTreeMap.empty.insert ['k'] ['v'] }

/-- `Read` returns zero for a key that is there and for one that is not, and does not
leave the value of the first in the result.  `Scan` does not leave the record. -/
theorem not_scansRecords_oneEngineRecord :
    (∀ adapter : Adapter,
      (∃ s, adapter.read treeEngine oneEngineRecord ['t'] ['k'] none = some (kOK, [], s)) ∧
      (∃ s, adapter.read treeEngine oneEngineRecord ['t'] ['j'] none = some (kOK, [], s)) ∧
      ∃ s, adapter.scan treeEngine oneEngineRecord ['t'] ['k'] 1 none = some (kOK, [], s)) ∧
    ∀ adapter : Adapter,
      ¬ ReadsRecord treeEngine id adapter oneEngineRecord ['t'] ['k'] none ∧
      ¬ ReadsRecord treeEngine id adapter oneEngineRecord ['t'] ['j'] none ∧
      ¬ ScansRecords treeEngine id adapter oneEngineRecord ['t'] ['k'] 1 none := by
  refine ⟨fun adapter => ⟨?_, ?_, ?_⟩, fun adapter => ⟨?_, ?_, ?_⟩⟩
  · rw [Adapter.read_eq]
    exact exists_readValue gets_treeEngine oneEngineRecord ['k']
  · rw [Adapter.read_eq]
    exact exists_readValue gets_treeEngine oneEngineRecord ['j']
  · rw [Adapter.scan_eq]
    exact exists_scanRecords iterates_treeEngine oneEngineRecord ['k'] 1
  · exact not_readsRecord gets_treeEngine oneEngineRecord ['t'] ['k'] none
  · exact not_readsRecord gets_treeEngine oneEngineRecord ['t'] ['j'] none
  · rintro ⟨code, result, s, hscan, hentries⟩
    obtain ⟨s₁, hspec⟩ := exists_scanRecords iterates_treeEngine oneEngineRecord ['k'] 1
    rw [Adapter.scan_eq, hspec] at hscan
    cases hscan
    have hone : ((id oneEngineRecord.db).startingAt ['k']).take (1 : Int32).toInt.toNat =
        [(['k'], ['v'])] := by decide +kernel
    rw [hone] at hentries
    cases hentries

end EngineDB

end YcsbC
