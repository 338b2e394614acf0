import YcsbC.Db.BasicDB
import YcsbC.Main.WrittenRecords

/-!
# A load and a run on the basic database

`BasicDB` stores nothing, but what it prints says what a store would hold: the calls that
are read off it can be made on an empty `WrittenRecords` one after the other.  So its
output is a log of a benchmark in which each record is inserted once, before it is read
or updated (`basic_load_then_run`).
-/

namespace YcsbC

namespace WrittenRecords

/-- What a call does to a log, if it can be made. -/
def apply (log : WrittenRecords) : DBCall → Option WrittenRecords
  | .init => some log
  | .read table key fields => (asDB.read log table key fields).map fun (_, _, log) => log
  | .scan table key len fields => (asDB.scan log table key len fields).map fun (_, _, log) => log
  | .update table key values => (asDB.update log table key values).map Prod.snd
  | .insert table key values => (asDB.insert log table key values).map Prod.snd
  | .delete _ _ => none

/-- The log after calls on an empty one. -/
def replay (calls : List DBCall) : Option WrittenRecords := calls.foldlM apply []

theorem replay_append {calls : List DBCall} {call : DBCall} {log log' : WrittenRecords}
    (hcalls : replay calls = some log) (hcall : log.apply call = some log') :
    replay (calls ++ [call]) = some log' := by
  rw [replay, List.foldlM_append, show calls.foldlM apply [] = some log from hcalls]
  simp [hcall]

end WrittenRecords

namespace BasicDB

/-- The calls that have been printed lead to the log. -/
def Records (db : BasicDB) (log : WrittenRecords) : Prop :=
  ∃ calls, Printed db calls ∧ WrittenRecords.replay calls = some log

theorem records_nil : Records ⟨[]⟩ [] := ⟨[], printed_nil, rfl⟩

theorem Records.perform {db : BasicDB} {log log' : WrittenRecords} (hdb : Records db log)
    {call : DBCall} (hcall : Printable call) (hlog : log.apply call = some log') :
    Records (db.perform call) log' := by
  obtain ⟨calls, hprinted, hreplay⟩ := hdb
  exact ⟨calls ++ [call], hprinted.perform hcall, WrittenRecords.replay_append hreplay hlog⟩

theorem Records.init {db : BasicDB} {log : WrittenRecords} (hdb : Records db log) :
    Records db.init log :=
  show Records (db.perform .init) log from hdb.perform trivial rfl

/-- The basic database can do what the log can. -/
theorem simulates_writtenRecords :
    BasicDB.asDB.Simulates Printable WrittenRecords.asDB Records where
  read := by
    intro db log table key fields code result log' hdb hgood hread
    have hlog : log.apply (.read table key fields) = some log' := by
      rw [WrittenRecords.apply, hread, Option.map_some]
    obtain ⟨-, heq⟩ := Option.ite_none_right_eq_some.mp hread
    cases heq
    exact ⟨[], _, rfl, hdb.perform hgood hlog⟩
  scan := by
    intro db log table key len fields code result log' hdb hgood hscan
    have hlog : log.apply (.scan table key len fields) = some log' := by
      rw [WrittenRecords.apply, hscan, Option.map_some]
    cases hscan
    exact ⟨[], _, rfl, hdb.perform hgood hlog⟩
  update := by
    intro db log table key values code log' hdb hgood hupdate
    have hlog : log.apply (.update table key values) = some log' := by
      rw [WrittenRecords.apply, hupdate, Option.map_some]
    obtain ⟨-, hwrite⟩ := Option.ite_none_right_eq_some.mp hupdate
    obtain ⟨_, -, rfl, -⟩ := WrittenRecords.write_eq_some hwrite
    exact ⟨_, rfl, hdb.perform hgood hlog⟩
  insert := by
    intro db log table key values code log' hdb hgood hinsert
    have hlog : log.apply (.insert table key values) = some log' := by
      rw [WrittenRecords.apply, hinsert, Option.map_some]
    obtain ⟨-, hwrite⟩ := Option.ite_none_right_eq_some.mp hinsert
    obtain ⟨_, -, rfl, -⟩ := WrittenRecords.write_eq_some hwrite
    exact ⟨_, rfl, hdb.perform hgood hlog⟩

/-! ## The calls of a client are printable -/

theorem word_keyName (wl : CoreWorkload) (keyNum : UInt64) : Word (wl.keyName keyNum) := by
  rw [CoreWorkload.keyName, CoreWorkload.buildKeyName, word_append, word_append]
  refine ⟨⟨by decide, ?_, ?_⟩, word_toStr _⟩
  · intro hmem
    exact absurd (List.eq_of_mem_replicate hmem) (by decide)
  · intro hmem
    exact absurd (List.eq_of_mem_replicate hmem) (by decide)

theorem word_nextFieldName (draw : UInt64) : Word (CoreWorkload.nextFieldName draw) :=
  word_append.mpr ⟨by decide, word_toStr _⟩

/-- The generator draws from the printable characters. -/
theorem randomPrintChar_ne (rand : ℕ) :
    Utils.randomPrintChar rand ≠ ' ' ∧ Utils.randomPrintChar rand ≠ '\n' := by
  have hall : ∀ k < 94, Char.ofNat (k + 33) ≠ ' ' ∧ Char.ofNat (k + 33) ≠ '\n' := by decide
  exact hall (rand % 94) (Nat.mod_lt _ (by decide))

theorem word_value (draw : CoreWorkload.ValueDraw) : Word draw.value := by
  obtain ⟨hblank, hbreak⟩ := randomPrintChar_ne draw.rand
  exact ⟨fun hmem => hblank (List.eq_of_mem_replicate hmem).symm,
    fun hmem => hbreak (List.eq_of_mem_replicate hmem).symm⟩

theorem printablePair_field (number : ℕ) (draw : CoreWorkload.ValueDraw) :
    PrintablePair ("field".toList ++ toStr number, draw.value) := by
  refine ⟨word_append.mpr ⟨by decide, word_toStr _⟩, ?_, word_value draw⟩
  intro hmem
  rcases List.mem_append.mp hmem with hmem | hmem
  · exact absurd hmem (by decide)
  · have hdigit := Nat.isDigit_of_mem_toDigits (by decide) (by decide) hmem
    exact absurd hdigit (by decide)

theorem printable_of_makes {p : Properties} (htable : Word p.table) {call : DBCall}
    (hmakes : (CoreWorkload.init p).Makes call) : Printable call := by
  have hbuild : ∀ draw, ∀ pair ∈ (CoreWorkload.init p).buildValues draw, PrintablePair pair := by
    intro draw pair hmem
    obtain ⟨i, -, rfl⟩ := List.mem_map.mp hmem
    exact printablePair_field i (draw i)
  have hasks : ∀ {fields}, AsksFor fields → ∀ fs ∈ fields, ∀ f ∈ fs, Word f := by
    rintro _ hasks fs ⟨⟩ f hf
    obtain ⟨draw, rfl⟩ := hasks
    rw [List.mem_singleton.mp hf]
    exact word_append.mpr ⟨by decide, word_nextFieldName draw⟩
  cases call with
  | init | delete => cases hmakes
  | read table key fields | scan table key len fields =>
      obtain ⟨rfl, ⟨keyNum, rfl⟩, hfields⟩ := hmakes
      rw [CoreWorkload.tableName_init]
      exact ⟨htable, word_keyName _ keyNum, hasks hfields⟩
  | update table key values =>
      obtain ⟨rfl, ⟨keyNum, rfl⟩, hvalues⟩ := hmakes
      rw [CoreWorkload.tableName_init]
      refine ⟨htable, word_keyName _ keyNum, ?_⟩
      rcases hvalues with ⟨draw, rfl⟩ | ⟨field, draw, rfl⟩
      · exact hbuild draw
      · intro pair hmem
        rw [List.mem_singleton.mp hmem]
        exact printablePair_field field.toNat draw
  | insert table key values =>
      obtain ⟨rfl, ⟨keyNum, rfl⟩, draw, rfl⟩ := hmakes
      rw [CoreWorkload.tableName_init]
      exact ⟨htable, word_keyName _ keyNum, hbuild draw⟩

end BasicDB

namespace Bench

variable {χ δ : Type} {next : χ → δ → Option (UInt64 × χ)} {p : Properties}

/-- What `BasicDB` prints in a load of all records and any transactions can be read back as
calls on a store: each record is inserted once, none is read or updated before it is
inserted, and in the end the records are those of the load and the inserts. -/
theorem basic_load_then_run (htable : BasicDB.Word p.table) (hstart : p.insertStart = 0)
    (hrecords : 1 ≤ p.recordCount.toInt)
    (hfields : 1 ≤ (CoreWorkload.init p).fieldCount.toInt) (keyChooser : χ)
    {loads : List (Option (ℕ → CoreWorkload.ValueDraw))}
    (hloads : loads.countP Option.isSome = p.recordCount.toInt.toNat)
    {transactions : List (Option (TransactionDraws δ))}
    (htransactions : transactions.countP Option.isSome < 2 ^ 31)
    (hends : (threadCalls BasicDB.asDB BasicDB.init next).Along (DrawsEnd next)
      ⟨⟨[]⟩, .init p, keyChooser, []⟩
      (loads.map (Option.map .doInsert) ++ transactions.map (Option.map .doTransaction))) :
    ∃ s calls log, (threadCalls BasicDB.asDB BasicDB.init next).run
        ⟨⟨[]⟩, .init p, keyChooser, []⟩
        (loads.map (Option.map .doInsert) ++ transactions.map (Option.map .doTransaction)) =
          some s ∧
      (∀ code ∈ s.codes, code = kOK) ∧
      BasicDB.parseTrace s.store.cout = some calls ∧ WrittenRecords.replay calls = some log ∧
      ∀ key, (log.last key).isSome ↔
        ∃ j < p.recordCount.toInt.toNat + transactions.countP (·.any (·.op = .INSERT)),
          key = (CoreWorkload.init p).keyName (.ofNat j) := by
  obtain ⟨s, t, hrun, -, hst, ht⟩ := load_then_run_of_simulates
    BasicDB.simulates_writtenRecords (fun _ => BasicDB.printable_of_makes htable)
    BasicDB.Records.init BasicDB.records_nil hstart hrecords hfields keyChooser hloads
    htransactions hends
  obtain ⟨calls, hprinted, hreplay⟩ := hst.store
  refine ⟨s, calls, t.store, hrun, ?_, hprinted.parseTrace, hreplay, ht.keys⟩
  rw [hst.codes]
  exact ht.codes

/-- The theorem at a record of two fields, an update and an insert. -/
theorem basic_load_then_run_oneRecord :
    ∃ s calls log, (threadCalls BasicDB.asDB BasicDB.init nextDrawn).run
        ⟨⟨[]⟩, .init oneRecord, (), []⟩
        ([none, some oneChar].map (Option.map .doInsert) ++ [none, some (transactionZero .UPDATE).2,
          some (transactionZero .INSERT).2].map (Option.map .doTransaction)) = some s ∧
      (∀ code ∈ s.codes, code = kOK) ∧
      BasicDB.parseTrace s.store.cout = some calls ∧ WrittenRecords.replay calls = some log ∧
      ∀ key, (log.last key).isSome ↔
        ∃ j < oneRecord.recordCount.toInt.toNat + [none, some (transactionZero .UPDATE).2,
            some (transactionZero .INSERT).2].countP (·.any (·.op = .INSERT)),
          key = (CoreWorkload.init oneRecord).keyName (.ofNat j) := by
  refine basic_load_then_run (by decide) (by decide) (by decide) (by decide) () (by decide)
    (by decide) ⟨trivial, fun _ _ => ⟨trivial, fun _ _ => ⟨trivial, fun s _ => ⟨fun _ => ?_,
      fun _ _ => ⟨fun hop => ?_, fun _ _ => trivial⟩⟩⟩⟩⟩
  · exact isSome_keyLoop_zero s.wl
  · exact absurd rfl hop

end Bench

end YcsbC
