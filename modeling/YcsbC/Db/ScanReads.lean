import YcsbC.Db.TableFrames
import YcsbC.Core.CounterGenerator

/-!
# Scans and reads

`HashtableDB::Scan` walks over the records in the order of the map, from the start record
on.  It picks the fields of each record with a copy of the code of `Read`, so each entry of
its result is what `Read` returns for that record (`scan_agrees`).
-/

namespace YcsbC

namespace HashtableDB

/-- The index strings that have a record, in the order in which the map visits them. -/
def recordsInOrder (order : IterationOrder) (db : HashtableDB) : List Str :=
  (order.visit db.keyTable.table.entries).map fun pair => pair.1.value

/-- Those from the record of an index on, none if there is no such record. -/
def recordsFrom (order : IterationOrder) (db : HashtableDB) (index : Str) : List Str :=
  (recordsInOrder order db).dropWhile fun index' => index' ≠ cStr index

/-- `Read` on a table and a key of this index returns the entry, whatever the result vector
holds. -/
def ReadsEntry (order : IterationOrder) (db : HashtableDB) (fields : Option (List Str))
    (index : Str) (entry : List KVPair) : Prop :=
  ∀ table key result, cStr (table ++ key) = index →
    db.read order table key fields result = some (kOK, entry)

/-- What `Scan` returns: nothing if the start record is not there, and else the entries of
the records from it on, up to the length. -/
def ScanAgrees (order : IterationOrder) (db : HashtableDB) (table key : Str) (len : Int32)
    (fields : Option (List Str)) : Prop :=
  ∃ result, (asDB order).scan db table key len fields = some (kOK, result, db) ∧
    (db.recordTable (table ++ key) = none → result = []) ∧
    ((db.recordTable (table ++ key)).isSome →
      (recordsFrom order db (table ++ key)).head? = some (cStr (table ++ key))) ∧
    (recordsFrom order db (table ++ key)).Nodup ∧
    (result.length : ℤ) = min len.toInt (recordsFrom order db (table ++ key)).length ∧
    List.Forall₂ (ReadsEntry order db fields)
      ((recordsFrom order db (table ++ key)).take len.toInt.toNat) result

/-! ## The records in the order of the map -/

section Order

variable (order : IterationOrder) {db : HashtableDB}

theorem recordsInOrder_eq (db : HashtableDB) :
    recordsInOrder order db = (db.keyTable.entries order none none).map Prod.fst := by
  rw [recordsInOrder, StlHashtable.entries, List.map_map]
  rfl

theorem nodup_recordsInOrder (db : HashtableDB) : (recordsInOrder order db).Nodup := by
  rw [recordsInOrder_eq]
  exact StlHashtable.nodup_keys_entries db.keyTable order

/-- The map visits the records. -/
theorem mem_recordsInOrder (hdb : db.WellFormed) {index : Str} :
    index ∈ recordsInOrder order db ↔ NulFree index ∧ (db.recordTable index).isSome := by
  rw [recordsInOrder_eq, List.mem_map]
  constructor
  · rintro ⟨⟨index, handle⟩, hmem, rfl⟩
    obtain ⟨hindex, hget⟩ := StlHashtable.mem_entries.mp hmem
    obtain ⟨fieldTable, -, hrecord⟩ := exists_recordTable hdb hget
    exact ⟨hindex, by rw [hrecord]; rfl⟩
  · rintro ⟨hindex, hsome⟩
    cases hget : db.keyTable.get index with
    | none =>
        rw [recordTable_of_none hget] at hsome
        cases hsome
    | some handle => exact ⟨(index, handle), StlHashtable.mem_entries.mpr ⟨hindex, hget⟩, rfl⟩

/-- `Entries` lists the records from the start on. -/
theorem map_fst_entries (db : HashtableDB) (index : Str) (n : UInt64) :
    (db.keyTable.entries order (some index) (some n)).map Prod.fst =
      (recordsFrom order db index).take n.toNat := by
  have hstop : (fun index' => decide (index' ≠ cStr index)) ∘
      (fun pair : Sigma fun _ : HashString => Handle => pair.1.value) =
      fun pair => !(pair.1.eqv (.wrap index)) := by
    funext pair
    rw [Function.comp_apply, Bool.eq_iff_iff, decide_eq_true_iff, Bool.not_eq_true',
      ← Bool.not_eq_true, HashString.eqv_iff, ne_eq, not_iff_not]
    exact ⟨fun h => HashString.ext h, fun h => congrArg HashString.value h⟩
  rw [recordsFrom, recordsInOrder, List.dropWhile_map, hstop, StlHashtable.entries, List.map_take,
    List.map_map]
  rfl

theorem cStr_mem_recordsInOrder (hdb : db.WellFormed) {index : Str} :
    cStr index ∈ recordsInOrder order db ↔ (db.recordTable index).isSome := by
  have hcStr : cStr (cStr index) = cStr index := cStr_eq_self (nulFree_cStr index)
  rw [mem_recordsInOrder order hdb, recordTable_congr hcStr]
  exact and_iff_right (nulFree_cStr index)

theorem recordsFrom_of_none (hdb : db.WellFormed) {index : Str}
    (hrecord : db.recordTable index = none) : recordsFrom order db index = [] := by
  rw [recordsFrom, List.dropWhile_eq_nil_iff]
  intro index' hmem
  rw [decide_eq_true_iff]
  rintro rfl
  rw [cStr_mem_recordsInOrder order hdb, hrecord] at hmem
  cases hmem

theorem head?_recordsFrom (hdb : db.WellFormed) {index : Str}
    (hrecord : (db.recordTable index).isSome) :
    (recordsFrom order db index).head? = some (cStr index) := by
  have hmem := (cStr_mem_recordsInOrder order hdb).mpr hrecord
  have hstop := List.head?_dropWhile_not (fun index' => decide (index' ≠ cStr index))
    (recordsInOrder order db)
  rw [← recordsFrom] at hstop
  cases hhead : (recordsFrom order db index).head? with
  | none =>
      rw [List.head?_eq_none_iff, recordsFrom, List.dropWhile_eq_nil_iff] at hhead
      simpa using hhead _ hmem
  | some index' =>
      rw [hhead] at hstop
      simpa using hstop

theorem nodup_recordsFrom (db : HashtableDB) (index : Str) : (recordsFrom order db index).Nodup :=
  (nodup_recordsInOrder order db).sublist (List.dropWhile_sublist _)

end Order

/-! ## The entries of the result -/

/-- An entry of the result is what `Read` finds under the same handle. -/
theorem readsEntry_of_get {order : IterationOrder} {db : HashtableDB}
    {fields : Option (List Str)} {index : Str} {handle : Handle} {entry : List KVPair}
    (hget : db.keyTable.get index = some handle)
    (hentry : (db.fieldTable handle).map (fun fieldTable => readFields order fieldTable fields) =
      some entry) : ReadsEntry order db fields index entry := by
  rintro table key result rfl
  have hindex : cStr (cStr (table ++ key)) = cStr (table ++ key) := cStr_eq_self (nulFree_cStr _)
  rw [StlHashtable.get_congr hindex] at hget
  obtain ⟨fieldTable, hfields, rfl⟩ := Option.map_eq_some_iff.mp hentry
  simp only [read, hget, hfields, Option.map_some]

/-- In every reachable state and order of the maps, `Scan` with a length that is not
negative agrees with `Read`: it returns nothing for an absent start record, and otherwise
what `Read` returns for each of the records from the start on, up to the length, the start
record first and none twice.  It leaves the state as it is. -/
theorem scan_agrees {db : HashtableDB} (hreaches : calls.Reaches empty db)
    (order : IterationOrder) (table key : Str) {len : Int32} (hlen : 0 ≤ len.toInt)
    (fields : Option (List Str)) : ScanAgrees order db table key len fields := by
  have hdb := wellFormed_of_reaches hreaches
  obtain ⟨result, hscan, hall⟩ := exists_scan hdb table key order len fields
  have hrecords := map_fst_entries order db (table ++ key) (sizeOfInt len)
  rw [toNat_sizeOfInt hlen] at hrecords
  have hentries : List.Forall₂ (ReadsEntry order db fields)
      ((recordsFrom order db (table ++ key)).take len.toInt.toNat) result := by
    rw [← hrecords, List.forall₂_map_left_iff]
    refine hall.imp ?_
    rintro ⟨index, handle⟩ entry ⟨hget, hentry⟩
    exact readsEntry_of_get hget hentry
  have hlength := hentries.length_eq
  rw [List.length_take] at hlength
  refine ⟨result, ?_, ?_, head?_recordsFrom order hdb, nodup_recordsFrom order db _, by omega,
    hentries⟩
  · rw [asDB_scan, hscan]
    rfl
  · intro hrecord
    rw [recordsFrom_of_none order hdb hrecord, List.length_nil, Nat.min_zero] at hlength
    exact List.length_eq_zero_iff.mp hlength.symm

/-- Two records. -/
def twoRecords : List Call :=
  [.insert "t".toList "b".toList [("f".toList, "1".toList)],
    .insert "t".toList "a".toList [("f".toList, "2".toList)]]

/-- The theorem at a scan from the record that is visited first. -/
theorem scan_agrees_twoRecords : ∃ db, calls.run empty twoRecords = some db ∧
    ScanAgrees .latestFirst db "t".toList "a".toList 2 none :=
  ⟨_, rfl, scan_agrees ⟨twoRecords, rfl⟩ .latestFirst "t".toList "a".toList
    (show 0 ≤ (2 : Int32).toInt by decide) none⟩

end HashtableDB

end YcsbC
