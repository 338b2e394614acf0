import YcsbC.Db.SharedSteps

/-!
# How a shared database grows

No step of `Insert`, `Update` or `Read` removes a record or moves one to another field
table (`Grows`).  This needs no care of the clients: a call whose `key_table_->Insert` has
failed goes on with a field table that no index has, and its steps change no record.
-/

namespace YcsbC

open HashtableDB

namespace HashtableDB

/-- Field tables stay, and so do the handles that are published; only a new handle is
published later. -/
structure Grows (db db' : HashtableDB) : Prop where
  wellFormed : db'.WellFormed
  live : ∀ {handle : Handle} {fieldTable : FieldHashtable}, db.fieldTable handle = some fieldTable →
    ∃ fieldTable', db'.fieldTable handle = some fieldTable'
  published : ∀ {index : Str} {handle : Handle}, db.keyTable.get index = some handle →
    db'.keyTable.get index = some handle
  unpublished : ∀ {index : Str} {handle : Handle} {fieldTable : FieldHashtable},
    db.fieldTable handle = some fieldTable → db'.keyTable.get index = some handle →
      db.keyTable.get index = some handle

variable {db : HashtableDB} {index : Str} {handle : Handle} {fieldTable : FieldHashtable}

theorem WellFormed.grows_refl (hdb : db.WellFormed) : Grows db db :=
  ⟨hdb, fun hlive => ⟨_, hlive⟩, id, fun _ => id⟩

/-- Changing a field table, also one that no index has. -/
theorem WellFormed.grows_setFieldTable (hdb : db.WellFormed)
    (hfields : db.fieldTable handle = some fieldTable) (fieldTable' : FieldHashtable) :
    Grows db (db.setFieldTable handle fieldTable') := by
  have hlive : ∀ {handle' : Handle} {old : FieldHashtable}, db.fieldTable handle' = some old →
      ∃ new, (db.setFieldTable handle fieldTable').fieldTable handle' = some new := by
    intro handle' old hold
    by_cases hne : handle' = handle
    · rw [hne]
      exact ⟨fieldTable', fieldTable_setFieldTable fieldTable' hfields⟩
    · exact ⟨old, (fieldTable_set_ne hne _).trans hold⟩
  refine ⟨⟨fun hget => ?_, hdb.inj⟩, hlive, id, fun _ => id⟩
  obtain ⟨old, hold⟩ := hdb.live hget
  exact hlive hold

/-- Publishing a new field table, or failing to. -/
theorem WellFormed.grows_publish (hdb : db.WellFormed) (index : Str) :
    Grows db (db.publish index) := by
  have hlive : ∀ {handle : Handle} {old : FieldHashtable}, db.fieldTable handle = some old →
      (db.publish index).fieldTable handle = some old := fun hold => fieldTable_new_of_some hold
  cases hget : db.keyTable.get index with
  | none =>
      obtain ⟨hsets, hself⟩ := sets_publish hdb hget
      have hother : ∀ {index' : Str}, cStr index' ≠ cStr index →
          (db.publish index).keyTable.get index' = db.keyTable.get index' := fun hne =>
        StlHashtable.get_insert_ne fun hwrap => hne (HashString.wrap_eq_wrap_iff.mp hwrap)
      refine ⟨hsets.wellFormed, fun hold => ⟨_, hlive hold⟩, fun {index'} _ hhandle => ?_,
        fun {index'} handle _ hold hhandle => ?_⟩
      · by_cases heq : cStr index' = cStr index
        · rw [StlHashtable.get_congr heq, hget] at hhandle
          cases hhandle
        · rw [hother heq, hhandle]
      · by_cases heq : cStr index' = cStr index
        · rw [StlHashtable.get_congr heq, hself] at hhandle
          cases hhandle
          exact absurd (lt_of_fieldTable hold) (lt_irrefl _)
        · rwa [hother heq] at hhandle
  | some old =>
      have hsame : (db.publish index).keyTable = db.keyTable := by
        rw [publish, StlHashtable.insert_of_get hget]
      refine ⟨⟨fun hhandle => ?_, ?_⟩, fun hold => ⟨_, hlive hold⟩, fun hhandle => ?_,
        fun _ hhandle => ?_⟩
      · rw [hsame] at hhandle
        obtain ⟨fields, hfields⟩ := hdb.live hhandle
        exact ⟨fields, hlive hfields⟩
      · rw [hsame]
        exact hdb.inj
      · rwa [hsame]
      · rwa [hsame] at hhandle

/-- Records stay. -/
theorem Grows.isSome_recordTable {db' : HashtableDB} (hgrows : Grows db db')
    (hrecord : (db.recordTable index).isSome) : (db'.recordTable index).isSome := by
  cases hget : db.keyTable.get index with
  | none =>
      rw [recordTable_of_none hget] at hrecord
      cases hrecord
  | some handle =>
      obtain ⟨fields, -, hfields⟩ := exists_recordTable hgrows.wellFormed (hgrows.published hget)
      rw [hfields]
      rfl

/-! ## Values of fields -/

/-- A changed field table is that of the indexes that have its handle. -/
theorem fieldValue_setFieldTable (hfields : db.fieldTable handle = some fieldTable)
    (fieldTable' : FieldHashtable) (index field : Str) :
    (db.setFieldTable handle fieldTable').fieldValue index field =
      if db.keyTable.get index = some handle then fieldTable'.get field
      else db.fieldValue index field := by
  rw [fieldValue, recordTable, fieldValue, recordTable]
  change ((db.keyTable.get index).bind _).bind _ = _
  split
  · rename_i hget
    rw [hget, Option.bind_some, fieldTable_setFieldTable fieldTable' hfields, Option.bind_some]
  · rename_i hget
    cases hindex : db.keyTable.get index with
    | none => rfl
    | some handle' =>
        have hne : handle' ≠ handle := fun heq => hget (heq ▸ hindex)
        rw [Option.bind_some, Option.bind_some, setFieldTable, fieldTable_set_ne hne]

/-- A field table that is published has no fields. -/
theorem WellFormed.fieldValue_of_publish (hdb : db.WellFormed) {index' field value : Str}
    (hvalue : (db.publish index).fieldValue index' field = some value) :
    db.fieldValue index' field = some value := by
  obtain ⟨record, hpublished, hfield⟩ := Option.bind_eq_some_iff.mp hvalue
  obtain ⟨handle, hhandle, hfields⟩ := Option.bind_eq_some_iff.mp hpublished
  by_cases hnew : handle = db.newFieldHashtable.1
  · rw [hnew, show (db.publish index).fieldTable db.newFieldHashtable.1 = some .empty from
      fieldTable_new_self] at hfields
    cases hfields
    rw [StlHashtable.get_empty] at hfield
    cases hfield
  · have hlt : handle < db.heap.length := by
      have hlen := lt_of_fieldTable hfields
      rw [publish, newFieldHashtable, List.length_append, List.length_singleton] at hlen
      exact Nat.lt_of_le_of_ne (Nat.lt_succ_iff.mp hlen) hnew
    have hold : db.fieldTable handle = some record := by
      rw [← hfields, fieldTable, fieldTable, publish, newFieldHashtable,
        List.getElem?_append_left hlt]
    have hrecord : db.recordTable index' = some record := by
      rw [recordTable, (hdb.grows_publish index).unpublished hold hhandle, Option.bind_some, hold]
    rw [fieldValue_of_recordTable hrecord, hfield]

end HashtableDB

/-! ## What a step of a call does -/

/-- The handle and the pairs that a call still works on. -/
def WritePc.work : WritePc → Option (Handle × List KVPair)
  | .get | .publish | .done _ => none
  | .insertField handle rest | .updateNewField handle rest | .updateField handle rest =>
      some (handle, rest)
  | .insertMissing handle pair rest => some (handle, pair :: rest)

/-- A step of `Insert` or `Update`: it looks for the record, makes one, returns, or sets at
most the field of its next pair. -/
inductive WriteMove (call : WriteCall) (db : HashtableDB) : WritePc → HashtableDB → WritePc → Prop
  | missing : db.keyTable.get call.index = none → WriteMove call db .get db .publish
  | found {handle : Handle} {pc : WritePc} : db.keyTable.get call.index = some handle →
      pc.work = some (handle, call.values) → WriteMove call db .get db pc
  | publish {pc : WritePc} : pc.work = some (db.newFieldHashtable.1, call.values) →
      WriteMove call db .publish (db.publish call.index) pc
  | finish {handle : Handle} {pc : WritePc} : pc.work = some (handle, []) →
      WriteMove call db pc db (.done kOK)
  | set {handle : Handle} {pair : KVPair} {rest : List KVPair} {fieldTable fieldTable' : FieldHashtable}
      {pc pc' : WritePc} : pc.work = some (handle, pair :: rest) →
      db.fieldTable handle = some fieldTable →
      (∀ {field value : Str}, fieldTable'.get field = some value → fieldTable.get field = some value ∨
        cStr field = cStr pair.1 ∧ value = cStr pair.2) →
      (pc'.work = some (handle, rest) ∨ pc'.work = some (handle, pair :: rest) ∨
        ∃ status, pc' = .done status) →
      WriteMove call db pc (db.setFieldTable handle fieldTable') pc'

section Moves

variable {call : WriteCall} {db : HashtableDB} {handle : Handle} {pair : KVPair}
  {rest : List KVPair} {pc next other : WritePc} {step : WriteStep}

theorem WriteMove.of_insertStep (hwork : pc.work = some (handle, pair :: rest))
    (hnext : next.work = some (handle, rest))
    (hother : other.work = some (handle, rest) ∨ ∃ status, other = .done status)
    (hstep : insertStep db handle pair next other = some step) :
    WriteMove call db pc step.db step.pc := by
  obtain ⟨fieldTable, hfields, rfl⟩ := Option.map_eq_some_iff.mp hstep
  refine .set hwork hfields (fun {field value} hget => ?_) ?_
  · cases hfield : fieldTable.get pair.1 with
    | none =>
        rw [StlHashtable.get_insert hfield] at hget
        split at hget
        · rename_i heq
          cases hget
          exact Or.inr ⟨heq, rfl⟩
        · exact Or.inl hget
    | some old =>
        rw [StlHashtable.insert_of_get hfield] at hget
        exact Or.inl hget
  · dsimp only
    split
    · exact Or.inl hnext
    · exact hother.imp id Or.inr

theorem WriteMove.of_updateStep (hwork : pc.work = some (handle, pair :: rest))
    (hnext : next.work = some (handle, rest)) (hother : other.work = some (handle, pair :: rest))
    (hstep : updateStep db handle pair next other = some step) :
    WriteMove call db pc step.db step.pc := by
  obtain ⟨fieldTable, hfields, rfl⟩ := Option.map_eq_some_iff.mp hstep
  refine .set hwork hfields (fun {field value} hget => ?_) ?_
  · cases hfield : fieldTable.get pair.1 with
    | none =>
        rw [StlHashtable.update_of_get hfield] at hget
        exact Or.inl hget
    | some old =>
        rw [StlHashtable.get_update hfield] at hget
        split at hget
        · rename_i heq
          cases hget
          exact Or.inr ⟨heq, rfl⟩
        · exact Or.inl hget
  · dsimp only
    split
    · exact Or.inl hnext
    · exact Or.inr (Or.inl hother)

/-- Every step is one of these. -/
theorem WriteCall.move_of_step (hstep : call.step db pc = some step) :
    WriteMove call db pc step.db step.pc := by
  cases pc with
  | get =>
      rw [WriteCall.step] at hstep
      cases hget : db.keyTable.get call.index with
      | none =>
          rw [hget] at hstep
          cases hstep
          exact .missing hget
      | some handle =>
          rw [hget] at hstep
          cases hop : call.op <;> rw [hop] at hstep <;> cases hstep <;> exact .found hget rfl
  | publish =>
      rw [WriteCall.step] at hstep
      cases hop : call.op <;> simp only [hop] at hstep <;> cases hstep <;> exact .publish rfl
  | insertField handle rest =>
      cases rest with
      | nil =>
          cases hstep
          exact .finish rfl
      | cons pair rest => exact .of_insertStep rfl rfl (Or.inr ⟨_, rfl⟩) hstep
  | updateNewField handle rest =>
      cases rest with
      | nil =>
          cases hstep
          exact .finish rfl
      | cons pair rest => exact .of_insertStep rfl rfl (Or.inl rfl) hstep
  | updateField handle rest =>
      cases rest with
      | nil =>
          cases hstep
          exact .finish rfl
      | cons pair rest => exact .of_updateStep rfl rfl rfl hstep
  | insertMissing handle pair rest => exact .of_insertStep rfl rfl (Or.inl rfl) hstep
  | done status => cases hstep

/-- A step lets the database grow. -/
theorem WriteMove.grows {db' : HashtableDB} {pc' : WritePc} (hdb : db.WellFormed)
    (hmove : WriteMove call db pc db' pc') : Grows db db' := by
  cases hmove with
  | missing | found | finish => exact hdb.grows_refl
  | publish => exact hdb.grows_publish _
  | set _ hfields => exact hdb.grows_setFieldTable hfields _

end Moves

namespace SharedDB

variable {ι : Type*} [DecidableEq ι]

section Threads

variable {s : SharedDB ι} {client c : ι} {thread : Thread} {begun : ℕ} {call : WriteCall}
  {step : WriteStep}

@[simp] theorem thread_tick_self : (s.tick client thread).thread client = thread :=
  Function.update_self ..

theorem thread_tick_of_ne (hc : c ≠ client) : (s.tick client thread).thread c = s.thread c :=
  Function.update_of_ne hc ..

@[simp] theorem thread_afterWriteStep_self :
    (s.afterWriteStep client begun call step).thread client = .writing begun call step.pc :=
  Function.update_self ..

theorem thread_afterWriteStep_of_ne (hc : c ≠ client) :
    (s.afterWriteStep client begun call step).thread c = s.thread c :=
  Function.update_of_ne hc ..

end Threads

/-- What an event does. -/
inductive Moved (s : SharedDB ι) : SharedEvent ι → SharedDB ι → Prop
  | beginWrite {client : ι} (call : WriteCall) : s.thread client = .idle →
      Moved s (.write client call) (s.tick client (.writing s.now call .get))
  | beginRead {client : ι} (call : ReadCall) : s.thread client = .idle →
      Moved s (.read client call) (s.tick client (.reading s.now call .get))
  | write {client : ι} {begun : ℕ} {call : WriteCall} {pc : WritePc} {step : WriteStep} :
      s.thread client = .writing begun call pc → call.step s.db pc = some step →
      Moved s (.step client) (s.afterWriteStep client begun call step)
  | returnWrite {client : ι} {begun : ℕ} {call : WriteCall} {status : ℤ} :
      s.thread client = .writing begun call (.done status) →
      Moved s (.step client) { s.tick client .idle with
        returned := s.returned ++ [⟨begun, call, s.now, status⟩] }
  | read {client : ι} {begun : ℕ} {call : ReadCall} {pc pc' : ReadPc} :
      s.thread client = .reading begun call pc → call.step s.db pc = some pc' →
      Moved s (.step client) (s.tick client (.reading begun call pc'))
  | returnRead {client : ι} {begun : ℕ} {call : ReadCall} {status : ℤ} {result : List KVPair} :
      s.thread client = .reading begun call (.done status result) →
      Moved s (.step client) { s.tick client .idle with
        reads := s.reads ++ [⟨begun, call, status, result⟩] }

theorem moved_of_step {s s' : SharedDB ι} {e : SharedEvent ι} (hstep : machine.step s e = some s') :
    s.Moved e s' := by
  cases e with
  | write client call =>
      cases hthread : s.thread client with
      | idle =>
          simp only [machine, hthread] at hstep
          cases hstep
          exact .beginWrite call hthread
      | writing | reading =>
          simp only [machine, hthread] at hstep
          cases hstep
  | read client call =>
      cases hthread : s.thread client with
      | idle =>
          simp only [machine, hthread] at hstep
          cases hstep
          exact .beginRead call hthread
      | writing | reading =>
          simp only [machine, hthread] at hstep
          cases hstep
  | step client =>
      cases hthread : s.thread client with
      | idle =>
          simp only [machine, hthread] at hstep
          cases hstep
      | writing begun call pc =>
          by_cases hdone : ∃ status, pc = .done status
          · obtain ⟨status, rfl⟩ := hdone
            simp only [machine, hthread] at hstep
            cases hstep
            exact .returnWrite hthread
          · rw [step_writing hthread fun status hpc => hdone ⟨status, hpc⟩] at hstep
            obtain ⟨step, hcall, rfl⟩ := Option.map_eq_some_iff.mp hstep
            exact .write hthread hcall
      | reading begun call pc =>
          by_cases hdone : ∃ status result, pc = .done status result
          · obtain ⟨status, result, rfl⟩ := hdone
            simp only [machine, hthread] at hstep
            cases hstep
            exact .returnRead hthread
          · rw [step_reading hthread fun status result hpc => hdone ⟨status, result, hpc⟩] at hstep
            obtain ⟨pc', hcall, rfl⟩ := Option.map_eq_some_iff.mp hstep
            exact .read hthread hcall

theorem Moved.grows {s s' : SharedDB ι} {e : SharedEvent ι} (hdb : s.db.WellFormed)
    (hmoved : s.Moved e s') : Grows s.db s'.db := by
  cases hmoved with
  | beginWrite | beginRead | returnWrite | read | returnRead => exact hdb.grows_refl
  | write _ hcall => exact (WriteCall.move_of_step hcall).grows hdb

/-- Records stay. -/
theorem isSome_recordTable_of_reaches {s s' : SharedDB ι} {index : Str} (hdb : s.db.WellFormed)
    (hrecord : (s.db.recordTable index).isSome) (hreaches : machine.Reaches s s') :
    (s'.db.recordTable index).isSome := by
  suffices hboth : s'.db.WellFormed ∧ (s'.db.recordTable index).isSome from hboth.2
  refine hreaches.invariant
    (I := fun s => s.db.WellFormed ∧ (s.db.recordTable index).isSome) ?_ ⟨hdb, hrecord⟩
  rintro s e s' ⟨hdb, hrecord⟩ hstep
  have hgrows := (moved_of_step hstep).grows hdb
  exact ⟨hgrows.wellFormed, hgrows.isSome_recordTable hrecord⟩

end SharedDB

end YcsbC
