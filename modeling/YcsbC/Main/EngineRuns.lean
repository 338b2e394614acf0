import YcsbC.Db.EngineReads
import YcsbC.Main.WrittenRecords

/-!
# A load and a run through the adapters

The adapters for RocksDB and LevelDB simulate `WrittenRecords`, so a benchmark finds
every record that it reads or updates, and leaves each with the value that was put last
(`adapter_load_then_run`).
-/

namespace YcsbC

namespace EngineDB

variable {σ ι : Type} {E : Engine σ ι} {records : σ → Records} (adapter : Adapter)

variable (records) in
/-- The engine has the values of the log, and `Read` has missed as often as before. -/
def Holds (missed : UInt32) (s : EngineDB σ) (log : WrittenRecords) : Prop :=
  s.noResult = missed ∧ ∀ key, (records s.db)[key]? = log.last key

/-- A write of an adapter is one of the log. -/
theorem Holds.insertValues (hputs : E.Puts records) {missed : UInt32} {s : EngineDB σ}
    {log log' : WrittenRecords} (hs : Holds records missed s log) (options : WriteOptions)
    {key : Str} {values : List KVPair} {code : ℤ}
    (hwrite : log.write key values = some (code, log')) :
    ∃ s', s.insertValues E options key values = some (code, s') ∧
      Holds records missed s' log' := by
  obtain ⟨pair, hlast, rfl, rfl⟩ := WrittenRecords.write_eq_some hwrite
  obtain ⟨db', hput, hself, hother⟩ := exists_putValues hputs options key values s.db
  refine ⟨{ s with db := db' }, ?_, hs.1, fun key' => ?_⟩
  · rw [EngineDB.insertValues, hput, Option.map_some]
  · rw [WriteLog.last_append_singleton]
    by_cases hkey : key' = key
    · rw [hkey, if_pos rfl, hself, hlast]
      rfl
    · rw [if_neg (Ne.symm hkey), hother key' hkey, hs.2]

/-- The adapters can do what the log can. -/
theorem simulates_writtenRecords (hputs : E.Puts records) (hgets : E.Gets records)
    {ahead : ι → List (Str × Str)} (hiter : E.Iterates records ahead) (missed : UInt32) :
    (adapter.asDB E).Simulates (fun _ => True) WrittenRecords.asDB (Holds records missed) where
  read := by
    intro s log _ key _ _ _ log' hs _ hread
    obtain ⟨hpresent, heq⟩ := Option.ite_none_right_eq_some.mp hread
    cases heq
    obtain ⟨value, hvalue⟩ := Option.isSome_iff_exists.mp hpresent
    refine ⟨[], s, ?_, hs⟩
    rw [show (adapter.asDB E).read = adapter.read E from rfl, Adapter.read_eq, readValue,
      hgets.found ((hs.2 key).trans hvalue)]
  scan := by
    intro s log _ key len _ _ _ log' hs _ hscan
    cases hscan
    obtain ⟨s', hscan, hdb, hmissed⟩ : ∃ s', s.scanRecords E key len = some (kOK, [], s') ∧
        s'.db = s.db ∧ s'.noResult = s.noResult := by
      obtain ⟨loop, hloop, -⟩ := exists_scanLoop hiter len.toInt.toNat
        ⟨E.seek (E.newIterator s.db) key, [], [], 0, 0⟩
      rw [scanRecords]
      dsimp only
      rw [hloop]
      exact ⟨_, rfl, rfl, rfl⟩
    refine ⟨[], s', ?_, hmissed.trans hs.1, fun key' => ?_⟩
    · rw [show (adapter.asDB E).scan = adapter.scan E from rfl, Adapter.scan_eq, hscan]
    · rw [hdb, hs.2]
  update := by
    intro s log _ key values _ log' hs _ hupdate
    obtain ⟨-, hwrite⟩ := Option.ite_none_right_eq_some.mp hupdate
    obtain ⟨s', hinsert, hs'⟩ := hs.insertValues hputs (adapter.options s) hwrite
    exact ⟨s', (Adapter.update_eq ..).trans hinsert, hs'⟩
  insert := by
    intro s log _ key values _ log' hs _ hinsert
    obtain ⟨-, hwrite⟩ := Option.ite_none_right_eq_some.mp hinsert
    obtain ⟨s', hinsert, hs'⟩ := hs.insertValues hputs (adapter.options s) hwrite
    exact ⟨s', (Adapter.insert_eq ..).trans hinsert, hs'⟩

end EngineDB

namespace Bench

variable {χ δ : Type} {next : χ → δ → Option (UInt64 × χ)} {p : Properties}

/-- Keys of a map that are those of the first `n` key numbers. -/
theorem keys_perm {p : Properties} {n : ℕ} (hn : n ≤ 2 ^ 32) {records : Records}
    (hkeys : ∀ key, records[key]?.isSome ↔ ∃ j < n, key = (CoreWorkload.init p).keyName (.ofNat j)) :
    records.keys.Perm ((List.range n).map fun j => (CoreWorkload.init p).keyName (.ofNat j)) := by
  refine (List.perm_ext_iff_of_nodup Std.ExtTreeMap.nodup_keys ?_).mpr fun key => ?_
  · refine List.nodup_range.map_on fun i hi j hj heq => ?_
    rw [List.mem_range] at hi hj
    exact keyName_inj (by omega) (by omega) heq
  · rw [Std.ExtTreeMap.mem_keys, Std.ExtTreeMap.mem_iff_isSome_getElem?, hkeys]
    simp [eq_comm]

/-- After a load of all records and any transactions through an adapter, whose `Init` is
that of `DB`, all database calls have returned `kOK`, no `Read` has missed, and the engine
has the records that have been inserted, each with the value that it was given last. -/
theorem adapter_load_then_run {σ ι : Type} {E : Engine σ ι} {records : σ → Records}
    (hputs : E.Puts records) (hgets : E.Gets records) {ahead : ι → List (Str × Str)}
    (hiter : E.Iterates records ahead) (adapter : Adapter) {store : EngineDB σ}
    (hempty : records store.db = ∅) (hstart : p.insertStart = 0)
    (hrecords : 1 ≤ p.recordCount.toInt)
    (hfields : 1 ≤ (CoreWorkload.init p).fieldCount.toInt) (keyChooser : χ)
    {loads : List (Option (ℕ → CoreWorkload.ValueDraw))}
    (hloads : loads.countP Option.isSome = p.recordCount.toInt.toNat)
    {transactions : List (Option (TransactionDraws δ))}
    (htransactions : transactions.countP Option.isSome < 2 ^ 31)
    (hends : (threadCalls (adapter.asDB E) id next).Along (DrawsEnd next)
      ⟨store, .init p, keyChooser, []⟩
      (loads.map (Option.map .doInsert) ++ transactions.map (Option.map .doTransaction))) :
    ∃ s t, (threadCalls (adapter.asDB E) id next).run ⟨store, .init p, keyChooser, []⟩
        (loads.map (Option.map .doInsert) ++ transactions.map (Option.map .doTransaction)) =
          some s ∧
      (threadCalls WrittenRecords.asDB id next).run ⟨[], .init p, keyChooser, []⟩
        (loads.map (Option.map .doInsert) ++ transactions.map (Option.map .doTransaction)) =
          some t ∧
      (∀ code ∈ s.codes, code = kOK) ∧ s.store.noResult = store.noResult ∧
      (records s.store.db).keys.Perm ((List.range (p.recordCount.toInt.toNat +
        transactions.countP (·.any (·.op = .INSERT)))).map fun j =>
          (CoreWorkload.init p).keyName (.ofNat j)) ∧
      ∀ key, (records s.store.db)[key]? = t.store.last key := by
  have hlt := Int32.toInt_lt p.recordCount
  have hstore : EngineDB.Holds records store.noResult store [] := by
    refine ⟨rfl, fun key => ?_⟩
    rw [hempty]
    simp
  obtain ⟨s, t, hrun, hrun', hst, ht⟩ := load_then_run_of_simulates
    (EngineDB.simulates_writtenRecords adapter hputs hgets hiter store.noResult)
    (fun _ _ => trivial) id hstore hstart hrecords hfields keyChooser hloads htransactions hends
  refine ⟨s, t, hrun, hrun', by rw [hst.codes]; exact ht.codes, hst.store.1, ?_, hst.store.2⟩
  have hle : transactions.countP (·.any (·.op = .INSERT)) ≤ transactions.countP Option.isSome :=
    List.countP_mono_left fun draws _ hany => by
      cases draws with
      | none => cases hany
      | some draws => rfl
  refine keys_perm (by omega) fun key => ?_
  rw [hst.store.2, ht.keys]

/-- The theorem at a record of two fields, an update and an insert, through LevelDB. -/
theorem adapter_load_then_run_oneRecord :
    ∃ s t, (threadCalls (Adapter.leveldb.asDB treeEngine) id nextDrawn).run
        ⟨{ db := ∅ }, .init oneRecord, (), []⟩
        ([none, some oneChar].map (Option.map .doInsert) ++ [none, some (transactionZero .UPDATE).2,
          some (transactionZero .INSERT).2].map (Option.map .doTransaction)) = some s ∧
      (threadCalls WrittenRecords.asDB id nextDrawn).run ⟨[], .init oneRecord, (), []⟩
        ([none, some oneChar].map (Option.map .doInsert) ++ [none, some (transactionZero .UPDATE).2,
          some (transactionZero .INSERT).2].map (Option.map .doTransaction)) = some t ∧
      (∀ code ∈ s.codes, code = kOK) ∧ s.store.noResult = 0 ∧
      (id s.store.db : Records).keys.Perm ((List.range (oneRecord.recordCount.toInt.toNat +
        [none, some (transactionZero .UPDATE).2, some (transactionZero .INSERT).2].countP
          (·.any (·.op = .INSERT)))).map fun j => (CoreWorkload.init oneRecord).keyName (.ofNat j)) ∧
      ∀ key : Str, (id s.store.db : Records)[key]? = t.store.last key := by
  refine adapter_load_then_run puts_treeEngine gets_treeEngine iterates_treeEngine .leveldb rfl
    (by decide) (by decide) (by decide) () (by decide) (by decide)
    ⟨trivial, fun _ _ => ⟨trivial, fun _ _ => ⟨trivial, fun s _ => ⟨fun _ => ?_, fun _ _ =>
      ⟨fun hop => ?_, fun _ _ => trivial⟩⟩⟩⟩⟩
  · exact isSome_keyLoop_zero s.wl
  · exact absurd rfl hop

end Bench

end YcsbC
