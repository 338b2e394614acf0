import YcsbC.Db.EngineDB
import YcsbC.Foundation.Machine

/-!
# What the adapters write

An `Insert` or `Update` sets the record of its key to the last value of its list, and
leaves the record alone when the list is empty.  `Delete` is an `Insert` of an empty
list: it returns `kOK` and its record stays.  So the keys that the engine has are those
ever written with a value, which are the keys written since their last `Delete` exactly
when each key ever written has been written again after every `Delete` of it
(`implementsWrites_iff`).
-/

namespace YcsbC

/-- A call that writes. -/
inductive WriteSideCall where
  | insert (table key : Str) (values : List KVPair)
  | update (table key : Str) (values : List KVPair)
  | delete (table key : Str)

namespace WriteSideCall

/-- The key of a call. -/
def key : WriteSideCall → Str
  | insert _ key _ | update _ key _ | delete _ key => key

/-- The call is an `Insert` or `Update` of a key with a value list that is not empty. -/
def Writes (call : WriteSideCall) (key : Str) : Prop :=
  match call with
  | insert _ key' values | update _ key' values => key' = key ∧ values ≠ []
  | delete _ _ => False

/-- The call is a `Delete` of a key. -/
def Deletes (call : WriteSideCall) (key : Str) : Prop :=
  match call with
  | insert .. | update .. => False
  | delete _ key' => key' = key

/-- What an adapter does at a call. -/
def apply {σ ι : Type} (E : Engine σ ι) (adapter : Adapter) (s : EngineDB σ) :
    WriteSideCall → Option (ℤ × EngineDB σ)
  | insert table key values => adapter.insert E s table key values
  | update table key values => adapter.update E s table key values
  | delete table key => adapter.delete E s table key

/-- The value list that the call puts. -/
def values : WriteSideCall → List KVPair
  | insert _ _ values | update _ _ values => values
  | delete _ _ => []

theorem writes_iff {call : WriteSideCall} {key : Str} :
    call.Writes key ↔ call.key = key ∧ call.values ≠ [] := by
  cases call <;> simp [Writes, WriteSideCall.key, values]

end WriteSideCall

namespace EngineDB

/-- Some call of a history has written a key with a value. -/
def EverWritten (key : Str) (history : List WriteSideCall) : Prop :=
  ∃ call ∈ history, call.Writes key

/-- A call has written a key with a value, and there has been no `Delete` of the key
after it. -/
def WrittenSinceDelete (key : Str) (history : List WriteSideCall) : Prop :=
  ∃ (before : List WriteSideCall) (call : WriteSideCall) (after : List WriteSideCall),
    history = before ++ call :: after ∧ call.Writes key ∧ ∀ later ∈ after, ¬ later.Deletes key

theorem EverWritten.of_sinceDelete {key : Str} {history : List WriteSideCall}
    (hwritten : WrittenSinceDelete key history) : EverWritten key history := by
  obtain ⟨before, call, after, rfl, hwrites, -⟩ := hwritten
  exact ⟨call, by simp, hwrites⟩

variable {σ ι : Type} (E : Engine σ ι) (records : σ → Records) (adapter : Adapter)

/-- The machine of calls that return `kOK`. -/
def writeCalls : Machine (EngineDB σ) WriteSideCall where
  step s call := (call.apply E adapter s).bind fun (code, s') => if code = kOK then some s' else none

/-- The engine has a record under a key. -/
def Present (s : EngineDB σ) (key : Str) : Prop := (records s.db)[key]?.isSome

/-- After a history of calls, all of which return `kOK`, the engine has the keys that
have been written since their last `Delete`, and no call of the history has changed the
record of another key. -/
def ImplementsWrites (s₀ : EngineDB σ) (history : List WriteSideCall) : Prop :=
  (∃ s, (writeCalls E adapter).run s₀ history = some s ∧
    ∀ key, Present records s key ↔ WrittenSinceDelete key history) ∧
  (writeCalls E adapter).Along (fun s call => ∀ s', (writeCalls E adapter).step s call = some s' →
    ∀ key, key ≠ call.key → (records s'.db)[key]? = (records s.db)[key]?) s₀ history

section Puts

variable {E records} (hputs : E.Puts records)

include hputs

/-- The loop of `Insert` leaves the last value of the list. -/
theorem exists_putValues (options : WriteOptions) (key : Str) (values : List KVPair) (db : σ) :
    ∃ db', putValues E options key values db = some db' ∧
      (records db')[key]? = (values.getLast?.map Prod.snd).or (records db)[key]? ∧
      ∀ key', key' ≠ key → (records db')[key']? = (records db)[key']? := by
  induction values generalizing db with
  | nil => exact ⟨db, rfl, by simp, fun _ _ => rfl⟩
  | cons pair values ih =>
      obtain ⟨hok, hput⟩ := hputs options db key pair.2
      obtain ⟨db', hrest, hself, hother⟩ := ih (E.put options db key pair.2).2
      refine ⟨db', ?_, ?_, ?_⟩
      · simp [putValues, hok, hrest]
      · rw [hself, hput]
        cases values with
        | nil => simp
        | cons pair' values => simp [List.getLast?_cons]
      · intro key' hne
        rw [hother key' hne, hput, Std.ExtTreeMap.getElem?_insert,
          if_neg (by simpa using hne.symm)]

/-- A call returns `kOK` and puts the last of its values. -/
theorem exists_step (s : EngineDB σ) (call : WriteSideCall) :
    ∃ s', (writeCalls E adapter).step s call = some s' ∧
      (records s'.db)[call.key]? =
        (call.values.getLast?.map Prod.snd).or (records s.db)[call.key]? ∧
      ∀ key, key ≠ call.key → (records s'.db)[key]? = (records s.db)[key]? := by
  obtain ⟨db', hput, hself, hother⟩ :=
    exists_putValues hputs (adapter.options s) call.key call.values s.db
  refine ⟨{ s with db := db' }, ?_, hself, hother⟩
  cases call <;>
    simp [writeCalls, WriteSideCall.apply, insertValues, WriteSideCall.key,
      WriteSideCall.values] at hput ⊢ <;>
    simp [hput]

/-- A call adds its key if it writes a value. -/
theorem present_of_step {s s' : EngineDB σ} {call : WriteSideCall}
    (hstep : (writeCalls E adapter).step s call = some s') (key : Str) :
    Present records s' key ↔ Present records s key ∨ call.Writes key := by
  obtain ⟨s₁, hstep₁, hself, hother⟩ := exists_step adapter hputs s call
  cases hstep.symm.trans hstep₁
  rw [WriteSideCall.writes_iff, Present, Present]
  by_cases hkey : key = call.key
  · rw [hkey, hself]
    cases hlast : call.values.getLast? with
    | none => simp [List.getLast?_eq_none_iff.mp hlast]
    | some pair =>
        have hne : call.values ≠ [] := by
          intro hnil
          simp [hnil] at hlast
        simp [hne]
  · rw [hother key hkey]
    simp [Ne.symm hkey]

/-- The engine has the keys ever written with a value. -/
theorem present_of_run {s₀ s : EngineDB σ} {history : List WriteSideCall}
    (hrun : (writeCalls E adapter).run s₀ history = some s) (key : Str) :
    Present records s key ↔ Present records s₀ key ∨ EverWritten key history := by
  refine (writeCalls E adapter).run_trace (I := fun history s =>
    Present records s key ↔ Present records s₀ key ∨ EverWritten key history) ?_ ?_ hrun
  · intro history s call s' hs hstep
    rw [present_of_step adapter hputs hstep, hs, or_assoc]
    simp [EverWritten, or_and_right, exists_or]
  · simp [EverWritten]

/-- Every history runs to its end. -/
theorem exists_run (s₀ : EngineDB σ) (history : List WriteSideCall) :
    ∃ s, (writeCalls E adapter).run s₀ history = some s := by
  induction history generalizing s₀ with
  | nil => exact ⟨s₀, rfl⟩
  | cons call history ih =>
      obtain ⟨s₁, hstep, -⟩ := exists_step adapter hputs s₀ call
      obtain ⟨s, hrun⟩ := ih s₁
      exact ⟨s, (writeCalls E adapter).run_cons_eq_some.mpr ⟨s₁, hstep, hrun⟩⟩

/-- On an empty engine an adapter keeps the records that the calls ask for exactly when
every key that has been written with a value has been so since its last `Delete`. -/
theorem implementsWrites_iff {s₀ : EngineDB σ} (hempty : records s₀.db = ∅)
    (history : List WriteSideCall) :
    ImplementsWrites E records adapter s₀ history ↔
      ∀ key, EverWritten key history → WrittenSinceDelete key history := by
  obtain ⟨s, hrun⟩ := exists_run adapter hputs s₀ history
  have hkeys : ∀ key, Present records s key ↔ EverWritten key history := by
    intro key
    rw [present_of_run adapter hputs hrun key, Present, hempty]
    simp
  constructor
  · rintro ⟨⟨s', hrun', htracks⟩, -⟩ key hwritten
    cases hrun.symm.trans hrun'
    exact (htracks key).mp ((hkeys key).mpr hwritten)
  · intro hsince
    refine ⟨⟨s, hrun, fun key => ?_⟩, ?_⟩
    · rw [hkeys key]
      exact ⟨hsince key, EverWritten.of_sinceDelete⟩
    · refine (writeCalls E adapter).along_of_invariant (I := fun _ => True)
        (fun _ _ _ _ _ => trivial) ?_ trivial history
      intro s call _ s' hstep
      obtain ⟨s₁, hstep₁, -, hother⟩ := exists_step adapter hputs s call
      cases hstep.symm.trans hstep₁
      exact hother

end Puts

/-- After a `Delete` its key has not been written. -/
theorem not_writtenSinceDelete {key : Str} {history : List WriteSideCall} {call : WriteSideCall}
    (hdeletes : call.Deletes key) : ¬ WrittenSinceDelete key (history ++ [call]) := by
  rintro ⟨before, written, after, hsplit, hwrites, hafter⟩
  induction after using List.reverseRecOn with
  | nil =>
      cases (List.append_inj' hsplit rfl).2
      cases call with
      | delete => exact hwrites
      | insert | update => exact hdeletes
  | append_singleton after last =>
      rw [← List.cons_append, ← List.append_assoc] at hsplit
      cases (List.append_inj' hsplit rfl).2
      exact hafter _ (by simp) hdeletes

/-- A record is inserted and deleted. -/
def insertDelete : List WriteSideCall :=
  [.insert ['t'] ['k'] [(['f'], ['v'])], .delete ['t'] ['k']]

/-- The theorem at these calls. -/
theorem implementsWrites_iff_insertDelete :
    ImplementsWrites treeEngine id .rocksdb { db := ∅ } insertDelete ↔
      ∀ key, EverWritten key insertDelete → WrittenSinceDelete key insertDelete :=
  implementsWrites_iff .rocksdb puts_treeEngine rfl insertDelete

/-- Both calls return `kOK`, and the record is still there. -/
theorem not_implementsWrites_insertDelete :
    ¬ ImplementsWrites treeEngine id .rocksdb { db := ∅ } insertDelete ∧
      ¬ ImplementsWrites treeEngine id .leveldb { db := ∅ } insertDelete := by
  have hfails : ∀ adapter, ¬ ImplementsWrites treeEngine id adapter { db := ∅ } insertDelete := by
    rintro adapter ⟨⟨s, hrun, htracks⟩, -⟩
    have hdeleted : ¬ WrittenSinceDelete ['k'] ([.insert ['t'] ['k'] [(['f'], ['v'])]] ++
        [.delete ['t'] ['k']]) := not_writtenSinceDelete rfl
    refine hdeleted ((htracks ['k']).mp ?_)
    rw [present_of_run adapter puts_treeEngine hrun]
    exact Or.inr ⟨_, List.mem_cons_self, rfl, by simp⟩
  exact ⟨hfails .rocksdb, hfails .leveldb⟩

end EngineDB

end YcsbC
