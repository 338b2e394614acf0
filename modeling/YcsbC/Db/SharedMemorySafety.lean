import YcsbC.Db.SharedMemoryWrites
import Mathlib.Logic.Function.Basic

/-!
# No value is freed twice

Whatever the clients do, a step of `Insert` or `Update` can be made, and so no value is
freed twice.  A step of `Read` or `Scan` can be made unless it makes the string of a
value that has been freed (`Stands.freed_of_fails`).  Only an `Update` frees values that
others can know of, so that does not happen either as long as no `Update` of a record
overlaps a `Read` or a `Scan` that may read it (`apart_neverFails`).
-/

namespace YcsbC

/-! ## What a read call works on -/

namespace MemReadPc

/-- The field tables that a read call is still to read, and the one it reads. -/
def toRead : MemReadPc → List Ptr
  | .start | .done => []
  | .tables rest => rest
  | .get table _ rest | .value _ table _ rest | .pairs table _ rest => table :: rest

/-- The field table that has returned the pointers in the hands of a read call. -/
def current : MemReadPc → Option Ptr
  | .value _ table _ _ | .pairs table _ _ => some table
  | .start | .tables _ | .get .. | .done => none

/-- The keys whose strings are still to be made. -/
def keyPtrs : MemReadPc → List Ptr
  | .pairs _ listed _ => listed.map Prod.fst
  | .start | .tables _ | .get .. | .value .. | .done => []

/-- The values whose strings are still to be made. -/
def values : MemReadPc → List Ptr
  | .value found .. => [found]
  | .pairs _ listed _ => listed.map Prod.snd
  | .start | .tables _ | .get .. | .done => []

/-- The value whose string the next step makes. -/
def next (pc : MemReadPc) : Option Ptr := pc.values.head?

/-- The keys in the hands of a read call are in the table. -/
def Keyed (m : LockStlDB) (pc : MemReadPc) : Prop :=
  ∀ table ∈ pc.current, ∃ t, m.fieldTables.read table = some t ∧ pc.keyPtrs ⊆ t.keyPtrs

/-- The values in the hands of a read call are in the table. -/
def Valued (m : LockStlDB) (pc : MemReadPc) : Prop :=
  ∀ table ∈ pc.current, ∃ t, m.fieldTables.read table = some t ∧ pc.values ⊆ t.values

end MemReadPc

namespace LockStlDB

/-- A read call may read the field table. -/
structure Listed (m : LockStlDB) (db : HashtableDB) (call : MemRead) (table : Ptr) : Prop where
  exists_read : ∃ t, m.fieldTables.read table = some t
  ofIndex : call.len = none → db.keyTable.get call.index = some table

section Reading

variable {m m' : LockStlDB} {db db' : HashtableDB} {keys values tables : List Ptr}
  {call : MemRead} {pc pc' : MemReadPc} {exchanged : Option Ptr}

theorem Listed.mono {table : Ptr} (hlisted : Listed m db call table)
    (hgrows : Grows m m' exchanged)
    (hpublished : ∀ {i : Str} {table : Ptr}, db.keyTable.get i = some table →
      db'.keyTable.get i = some table) : Listed m' db' call table where
  exists_read := by
    obtain ⟨t, hread⟩ := hlisted.exists_read
    obtain ⟨t', hread', -⟩ := hgrows hread
    exact ⟨t', hread'⟩
  ofIndex hlen := hpublished (hlisted.ofIndex hlen)

theorem Grows.keyed (hgrows : Grows m m' exchanged) (hkeyed : pc.Keyed m) : pc.Keyed m' := by
  intro table htable
  obtain ⟨t, hread, hkeys⟩ := hkeyed table htable
  obtain ⟨t', hread', hkeys', -⟩ := hgrows hread
  exact ⟨t', hread', List.Subset.trans hkeys hkeys'⟩

theorem Grows.valued (hgrows : Grows m m' exchanged)
    (hne : ∀ table ∈ pc.current, exchanged ≠ some table) (hvalued : pc.Valued m) :
    pc.Valued m' := by
  intro table htable
  obtain ⟨t, hread, hvalues⟩ := hvalued table htable
  obtain ⟨t', hread', -, hvalues'⟩ := hgrows hread
  exact ⟨t', hread', List.Subset.trans hvalues (hvalues' (hne table htable))⟩

/-- The next step of a read call can be made unless the value that it needs has been freed. -/
theorem Accounts.exists_readStep (hacc : Accounts m db keys values tables) (hpc : pc ≠ .done)
    (hlisted : ∀ table ∈ pc.toRead, Listed m db call table) (hkeyed : pc.Keyed m)
    (hvalues : ∀ value ∈ pc.next, m.values.read value ≠ none) :
    ∃ pc', call.step m pc = some pc' := by
  cases pc with
  | start =>
      cases hlen : call.len with
      | none =>
          cases hget : db.keyTable.get call.index <;>
            simp [MemRead.step, hlen, hacc.keyGet, hget]
      | some len =>
          obtain ⟨pairs, hentries, -⟩ := MemHashtable.entries_spec hacc.keyTable
            call.looksAtKeys (some call.index) (some (sizeOfInt len))
          simp [MemRead.step, hlen, hentries]
  | tables ts =>
      cases ts with
      | nil => exact ⟨.done, rfl⟩
      | cons table ts =>
          obtain ⟨t, hread⟩ := (hlisted table List.mem_cons_self).exists_read
          cases hfields : call.fields with
          | some fields => simp [MemRead.step, hfields]
          | none =>
              obtain ⟨_, -, href⟩ := hacc.fieldTables.exists_right hread
              obtain ⟨pairs, hentries, -⟩ := MemHashtable.entries_spec href call.looksAtKeys
                none none
              simp [MemRead.step, hfields, hread, hentries]
  | get table fields ts =>
      cases fields with
      | nil => exact ⟨.tables ts, rfl⟩
      | cons field fields =>
          obtain ⟨t, hread⟩ := (hlisted table List.mem_cons_self).exists_read
          obtain ⟨fields', hfields, -⟩ := hacc.fieldTables.exists_right hread
          obtain ⟨found, hget, -⟩ := hacc.fieldGet hfields field
          cases found <;> simp [MemRead.step, hget]
  | value value table fields ts =>
      obtain ⟨str, hread⟩ := Option.ne_none_iff_exists'.mp (hvalues value rfl)
      simp [MemRead.step, hread]
  | pairs table pairs ts =>
      cases pairs with
      | nil => exact ⟨.tables ts, rfl⟩
      | cons pair pairs =>
          obtain ⟨t, hread, hkeys⟩ := hkeyed table rfl
          have hmem : pair.1 ∈ m.fieldTables.contents.flatMap MemHashtable.keyPtrs :=
            List.mem_flatMap.mpr
              ⟨t, Heap.mem_contents.mpr ⟨table, hread⟩, hkeys List.mem_cons_self⟩
          obtain ⟨field, hfield⟩ := hacc.ownsKeys.read
            (List.mem_append_right _ (List.mem_append_right _ hmem))
          obtain ⟨str, hvalue⟩ := Option.ne_none_iff_exists'.mp
            (hvalues pair.2 rfl)
          simp [MemRead.step, readPair, hfield, hvalue]
  | done => exact absurd rfl hpc

/-- The first step of a read call finds field tables that it may read. -/
theorem Accounts.readStep_start (hacc : Accounts m db keys values tables)
    (hstep : call.step m .start = some pc') :
    (∀ table ∈ pc'.toRead, Listed m db call table) ∧ pc'.current = none := by
  cases hlen : call.len with
  | none =>
      cases hget : db.keyTable.get call.index with
      | none =>
          simp only [MemRead.step, hlen, hacc.keyGet, hget, Option.bind_eq_bind,
            Option.bind_some] at hstep
          cases hstep
          exact ⟨nofun, rfl⟩
      | some table =>
          simp only [MemRead.step, hlen, hacc.keyGet, hget, Option.bind_eq_bind,
            Option.bind_some] at hstep
          cases hstep
          refine ⟨fun table' htable' => ?_, rfl⟩
          cases List.mem_singleton.mp htable'
          obtain ⟨_, hmem, rfl⟩ := hacc.keyTable.exists_value hget
          exact ⟨hacc.ownsTables.read (List.mem_append_right _ hmem), fun _ => hget⟩
  | some len =>
      simp only [MemRead.step, hlen, Option.bind_eq_bind, Option.bind_eq_some_iff] at hstep
      obtain ⟨pairs, hentries, hpairs⟩ := hstep
      cases hpairs
      refine ⟨fun table htable => ?_, rfl⟩
      obtain ⟨pair, hpair, rfl⟩ := List.mem_map.mp htable
      obtain ⟨-, hmem⟩ := MemHashtable.mem_of_entries hentries hpair
      exact ⟨hacc.ownsTables.read (List.mem_append_right _ hmem), by simp [hlen]⟩

/-- A read call goes on to field tables that it may read, and to keys and values that are
in them. -/
theorem Accounts.readStep (hacc : Accounts m db keys values tables)
    (hlisted : ∀ table ∈ pc.toRead, Listed m db call table) (hkeyed : pc.Keyed m)
    (hstep : call.step m pc = some pc') :
    (∀ table ∈ pc'.toRead, Listed m db call table) ∧ pc'.Keyed m ∧
      (pc.Valued m → pc'.Valued m) := by
  -- Without pointers in its hands there is nothing to say of them.
  have hnone {pc' : MemReadPc} (hcurrent : pc'.current = none) :
      pc'.Keyed m ∧ (pc.Valued m → pc'.Valued m) := by
    simp [MemReadPc.Keyed, MemReadPc.Valued, hcurrent]
  cases pc with
  | start =>
      obtain ⟨hlisted', hcurrent⟩ := hacc.readStep_start hstep
      exact ⟨hlisted', hnone hcurrent⟩
  | tables ts =>
      cases ts with
      | nil =>
          cases hstep
          exact ⟨fun _ hmem => absurd hmem List.not_mem_nil, hnone rfl⟩
      | cons table ts =>
          cases hfields : call.fields with
          | some fields =>
              simp only [MemRead.step, hfields] at hstep
              cases hstep
              exact ⟨hlisted, hnone rfl⟩
          | none =>
              simp only [MemRead.step, hfields, Option.bind_eq_bind,
                Option.bind_eq_some_iff] at hstep
              obtain ⟨t, hread, pairs, hentries, hpairs⟩ := hstep
              cases hpairs
              refine ⟨hlisted, ?_, fun _ => ?_⟩
              · rintro _ ⟨⟩
                refine ⟨t, hread, fun ptr hptr => ?_⟩
                obtain ⟨pair, hpair, rfl⟩ := List.mem_map.mp hptr
                exact (MemHashtable.mem_of_entries hentries hpair).1
              · rintro _ ⟨⟩
                refine ⟨t, hread, fun ptr hptr => ?_⟩
                obtain ⟨pair, hpair, rfl⟩ := List.mem_map.mp hptr
                exact (MemHashtable.mem_of_entries hentries hpair).2
  | get table fields ts =>
      cases fields with
      | nil =>
          cases hstep
          exact ⟨fun table' hmem => hlisted table' (List.mem_cons_of_mem _ hmem), hnone rfl⟩
      | cons field fields =>
          simp only [MemRead.step, Option.bind_eq_bind, Option.bind_eq_some_iff] at hstep
          obtain ⟨found, hget, hfound⟩ := hstep
          cases found with
          | none =>
              cases hfound
              exact ⟨hlisted, hnone rfl⟩
          | some value =>
              cases hfound
              rw [LockStlDB.fieldGet, Option.bind_eq_bind, Option.bind_eq_some_iff] at hget
              obtain ⟨t, hread, hget⟩ := hget
              refine ⟨hlisted, ?_, fun _ => ?_⟩
              · rintro _ ⟨⟩
                exact ⟨t, hread, List.nil_subset _⟩
              · rintro _ ⟨⟩
                exact ⟨t, hread, by simpa [MemReadPc.values] using MemHashtable.mem_of_get hget⟩
  | value value table fields ts =>
      simp only [MemRead.step, Option.bind_eq_bind, Option.bind_eq_some_iff] at hstep
      obtain ⟨str, -, hstep⟩ := hstep
      cases hstep
      exact ⟨hlisted, hnone rfl⟩
  | pairs table pairs ts =>
      cases pairs with
      | nil =>
          cases hstep
          exact ⟨fun table' hmem => hlisted table' (List.mem_cons_of_mem _ hmem), hnone rfl⟩
      | cons pair pairs =>
          simp only [MemRead.step, Option.bind_eq_bind, Option.bind_eq_some_iff] at hstep
          obtain ⟨_, -, hstep⟩ := hstep
          cases hstep
          refine ⟨hlisted, ?_, fun hvalued => ?_⟩
          · rintro _ ⟨⟩
            obtain ⟨t, hread, hkeys⟩ := hkeyed table rfl
            exact ⟨t, hread, (List.cons_subset.mp hkeys).2⟩
          · rintro _ ⟨⟩
            obtain ⟨t, hread, hvalues⟩ := hvalued table rfl
            exact ⟨t, hread, (List.cons_subset.mp hvalues).2⟩
  | done => cases hstep

theorem mem_contents_of_valued (hvalued : pc.Valued m) {value : Ptr}
    (hmem : value ∈ pc.values) :
    value ∈ m.fieldTables.contents.flatMap MemHashtable.values := by
  have hcurrent : ∃ table, pc.current = some table := by
    cases pc with
    | value _ table _ _ | pairs table _ _ => exact ⟨table, rfl⟩
    | _ => cases hmem
  obtain ⟨table, hcurrent⟩ := hcurrent
  obtain ⟨t, hread, hvalues⟩ := hvalued table hcurrent
  exact List.mem_flatMap.mpr ⟨t, Heap.mem_contents.mpr ⟨table, hread⟩, hvalues hmem⟩

/-- The values of a table have not been freed. -/
theorem Accounts.read_of_valued (hacc : Accounts m db keys values tables) (hvalued : pc.Valued m)
    {value : Ptr} (hmem : value ∈ pc.values) : m.values.read value ≠ none := by
  obtain ⟨str, hstr⟩ :=
    hacc.ownsValues.read (List.mem_append_right _ (mem_contents_of_valued hvalued hmem))
  rw [hstr]
  exact Option.some_ne_none str

/-- The values of a table are not in nobody's table. -/
theorem Accounts.notMem_of_valued (hacc : Accounts m db keys values tables)
    (hvalued : pc.Valued m) {value : Ptr} (hmem : value ∈ pc.values) : value ∉ values :=
  fun hvalue => (List.nodup_append.mp hacc.ownsValues.nodup).2.2 value hvalue value
    (mem_contents_of_valued hvalued hmem) rfl

end Reading

end LockStlDB

/-! ## Runs -/

open LockStlDB

namespace MemThread

/-- The value in the hands of a client that writes. -/
def held : MemThread → Option Ptr
  | writing _ pc => pc.held
  | idle | reading .. => none

/-- What a client has in its hands is what it may work on. -/
def Works (m : LockStlDB) (db : HashtableDB) (values tables : List Ptr) : MemThread → Prop
  | idle => True
  | writing call pc => (∀ table ∈ pc.table, AtHand db tables call.index table) ∧
      (∀ value ∈ pc.held, value ∈ values) ∧ (pc.OfUpdate → call.op = .update)
  | reading call pc => (∀ table ∈ pc.toRead, Listed m db call table) ∧ pc.Keyed m

/-- A client may work on what it could after a step of another one. -/
theorem Works.mono {m m' : LockStlDB} {db db' : HashtableDB}
    {keys' values values' tables tables' : List Ptr} {index : Str} {pc pc' : MemWritePc}
    {thread : MemThread} (hworks : thread.Works m db values tables)
    (houtcome : WriteOutcome m db values tables index pc m' pc' db' keys' values' tables')
    (hapart : ∀ value, thread.held = some value → pc.held ≠ some value) :
    thread.Works m' db' values' tables' := by
  cases thread with
  | idle => trivial
  | writing call pc₁ =>
      obtain ⟨hatHand, hheld, hop⟩ := hworks
      refine ⟨fun table htable => ?_, fun value hvalue => ?_, hop⟩
      · exact (hatHand table htable).imp houtcome.published fun hmem => houtcome.tables hmem
      · exact houtcome.kept value (hheld value hvalue) (hapart value hvalue)
  | reading call pc₁ =>
      obtain ⟨hlisted, hkeyed⟩ := hworks
      refine ⟨fun table htable => ?_, houtcome.grows.keyed hkeyed⟩
      exact (hlisted table htable).mono houtcome.grows houtcome.published

end MemThread

namespace SharedMemory

variable {ι : Type*}

/-- The memory stands for a database, every client may work on what it has in its hands,
and no two have the same value. -/
structure Stands (s : SharedMemory ι) (db : HashtableDB) (keys values tables : List Ptr) :
    Prop where
  accounts : Accounts s.mem db keys values tables
  works : ∀ client, (s.thread client).Works s.mem db values tables
  apart : ∀ client other value, (s.thread client).held = some value →
    (s.thread other).held = some value → client = other

theorem stands_start : (start : SharedMemory ι).Stands .empty [] [] [] where
  accounts := Accounts.new
  works _ := trivial
  apart _ _ _ hheld := by cases hheld

variable [DecidableEq ι] {s s' : SharedMemory ι} {db : HashtableDB} {keys values tables : List Ptr}
  {client : ι}

@[simp] theorem move_mem (s : SharedMemory ι) (client : ι) (m : LockStlDB) (thread : MemThread) :
    (s.move client m thread).mem = m := rfl

@[simp] theorem move_thread_self (s : SharedMemory ι) (client : ι) (m : LockStlDB)
    (thread : MemThread) : (s.move client m thread).thread client = thread :=
  Function.update_self ..

theorem move_thread_ne {other : ι} (hne : other ≠ client) (m : LockStlDB) (thread : MemThread) :
    (s.move client m thread).thread other = s.thread other :=
  Function.update_of_ne hne ..

/-- A step that leaves the memory as it is. -/
theorem Stands.move (hs : s.Stands db keys values tables) {thread : MemThread}
    (hworks : thread.Works s.mem db values tables) (hheld : thread.held = none) :
    (s.move client s.mem thread).Stands db keys values tables where
  accounts := hs.accounts
  works := (Function.forall_update_iff s.thread
    fun _ thread => MemThread.Works s.mem db values tables thread).mpr
      ⟨hworks, fun other _ => hs.works other⟩
  apart := by
    intro one other value hone hother
    by_cases heq : one = client
    · subst heq
      rw [move_thread_self, hheld] at hone
      cases hone
    · rw [move_thread_ne heq] at hone
      by_cases heq' : other = client
      · subst heq'
        rw [move_thread_self, hheld] at hother
        cases hother
      · rw [move_thread_ne heq'] at hother
        exact hs.apart one other value hone hother

/-- A step of a write call. -/
theorem Stands.move_writing (hs : s.Stands db keys values tables) {call : MemWrite}
    {pc pc' : MemWritePc} (hthread : s.thread client = .writing call pc)
    {m' : LockStlDB} {db' : HashtableDB} {keys' values' tables' : List Ptr}
    (houtcome : WriteOutcome s.mem db values tables call.index pc m' pc' db' keys' values' tables')
    (hop : pc'.OfUpdate → call.op = .update) :
    (s.move client m' (.writing call pc')).Stands db' keys' values' tables' := by
  have hheld : ∀ other ≠ client, ∀ value, (s.thread other).held = some value →
      pc.held ≠ some value := by
    intro other hne value hother hpc
    refine hne (hs.apart other client value hother ?_)
    rw [hthread]
    exact hpc
  -- A value that the call has now was in nobody's hands, or in its own.
  have hnew : ∀ other ≠ client, ∀ value ∈ pc'.held, (s.thread other).held ≠ some value := by
    intro other hne value hvalue hother
    refine hheld other hne value hother ((houtcome.held value hvalue).2 ?_)
    have hworks := hs.works other
    cases hthread' : s.thread other with
    | writing call₁ pc₁ =>
        rw [hthread'] at hworks hother
        exact hworks.2.1 value hother
    | idle | reading =>
        rw [hthread'] at hother
        cases hother
  refine ⟨houtcome.accounts, ?_, ?_⟩
  · refine (Function.forall_update_iff s.thread
      fun _ thread => MemThread.Works m' db' values' tables' thread).mpr ⟨?_, ?_⟩
    · exact ⟨houtcome.atHand, fun value hvalue => (houtcome.held value hvalue).1, hop⟩
    · intro other hne
      exact (hs.works other).mono houtcome (hheld other hne)
  · intro one other value hone hother
    by_cases heq : one = client
    · by_cases heq' : other = client
      · rw [heq, heq']
      · rw [heq, move_thread_self] at hone
        rw [move_thread_ne heq'] at hother
        exact absurd hother (hnew other heq' value hone)
    · rw [move_thread_ne heq] at hone
      by_cases heq' : other = client
      · rw [heq', move_thread_self] at hother
        exact absurd hone (hnew one heq value hother)
      · rw [move_thread_ne heq'] at hother
        exact hs.apart one other value hone hother

theorem step_writing {call : MemWrite} {pc : MemWritePc}
    (hthread : s.thread client = .writing call pc) (hpc : pc ≠ .done) :
    machine.step s (.step client) =
      (call.step s.mem pc).map fun (m, pc) => s.move client m (.writing call pc) := by
  cases pc with
  | done => exact absurd rfl hpc
  | _ => simp only [machine, hthread]

theorem step_reading {call : MemRead} {pc : MemReadPc}
    (hthread : s.thread client = .reading call pc) (hpc : pc ≠ .done) :
    machine.step s (.step client) =
      (call.step s.mem pc).map fun pc => s.move client s.mem (.reading call pc) := by
  cases pc with
  | done => exact absurd rfl hpc
  | _ => simp only [machine, hthread]

/-- What an event does. -/
inductive StepCase (s : SharedMemory ι) : MemEvent ι → SharedMemory ι → Prop where
  | write {client : ι} {call : MemWrite} : s.thread client = .idle →
      StepCase s (.write client call) (s.move client s.mem (.writing call .get))
  | read {client : ι} {call : MemRead} : s.thread client = .idle →
      StepCase s (.read client call) (s.move client s.mem (.reading call .start))
  | finish {client : ι} : StepCase s (.step client) (s.move client s.mem .idle)
  | writing {client : ι} {call : MemWrite} {pc pc' : MemWritePc} {m' : LockStlDB} :
      s.thread client = .writing call pc → call.step s.mem pc = some (m', pc') →
      StepCase s (.step client) (s.move client m' (.writing call pc'))
  | reading {client : ι} {call : MemRead} {pc pc' : MemReadPc} :
      s.thread client = .reading call pc → call.step s.mem pc = some pc' →
      StepCase s (.step client) (s.move client s.mem (.reading call pc'))

theorem step_cases {e : MemEvent ι} (hstep : machine.step s e = some s') : StepCase s e s' := by
  cases e with
  | write client call =>
      cases hthread : s.thread client with
      | idle =>
          simp only [machine, hthread] at hstep
          cases hstep
          exact .write hthread
      | writing | reading => simp [machine, hthread] at hstep
  | read client call =>
      cases hthread : s.thread client with
      | idle =>
          simp only [machine, hthread] at hstep
          cases hstep
          exact .read hthread
      | writing | reading => simp [machine, hthread] at hstep
  | step client =>
      cases hthread : s.thread client with
      | idle => simp [machine, hthread] at hstep
      | writing call pc =>
          by_cases hpc : pc = .done
          · subst hpc
            simp only [machine, hthread] at hstep
            cases hstep
            exact .finish
          · rw [step_writing hthread hpc] at hstep
            obtain ⟨⟨m', pc'⟩, hcall, rfl⟩ := Option.map_eq_some_iff.mp hstep
            exact .writing hthread hcall
      | reading call pc =>
          by_cases hpc : pc = .done
          · subst hpc
            simp only [machine, hthread] at hstep
            cases hstep
            exact .finish
          · rw [step_reading hthread hpc] at hstep
            obtain ⟨pc', hcall, rfl⟩ := Option.map_eq_some_iff.mp hstep
            exact .reading hthread hcall

/-- The next step of a write call can be made. -/
theorem Stands.writeStep (hs : s.Stands db keys values tables) {call : MemWrite}
    {pc : MemWritePc} (hthread : s.thread client = .writing call pc) (hpc : pc ≠ .done) :
    ∃ m' pc' db' keys' values' tables', call.step s.mem pc = some (m', pc') ∧
      Grows s.mem m' pc.exchanges ∧
      (s.move client m' (.writing call pc')).Stands db' keys' values' tables' := by
  have hworks := hs.works client
  rw [hthread] at hworks
  obtain ⟨hatHand, hheld, hop⟩ := hworks
  obtain ⟨m', pc', db', keys', values', tables', hstep, houtcome⟩ :=
    hs.accounts.writeStep hpc hatHand hheld
  exact ⟨m', pc', db', keys', values', tables', hstep, houtcome.grows,
    hs.move_writing hthread houtcome (MemWrite.ofUpdate_step hop hstep)⟩

theorem Stands.step {e : MemEvent ι} (hs : s.Stands db keys values tables)
    (hstep : machine.step s e = some s') :
    ∃ db' keys' values' tables', s'.Stands db' keys' values' tables' := by
  cases step_cases hstep with
  | write hthread =>
      exact ⟨db, keys, values, tables, hs.move ⟨nofun, nofun, nofun⟩ rfl⟩
  | read hthread =>
      exact ⟨db, keys, values, tables, hs.move ⟨nofun, nofun⟩ rfl⟩
  | finish => exact ⟨db, keys, values, tables, hs.move trivial rfl⟩
  | @writing client call pc pc' m' hthread hcall =>
      have hpc : pc ≠ .done := by
        rintro rfl
        cases hcall
      obtain ⟨_, _, db', keys', values', tables', hcall', -, hs'⟩ := hs.writeStep hthread hpc
      cases hcall.symm.trans hcall'
      exact ⟨db', keys', values', tables', hs'⟩
  | @reading client call pc pc' hthread hcall =>
      have hworks := hs.works client
      rw [hthread] at hworks
      obtain ⟨hlisted, hkeyed, -⟩ := hs.accounts.readStep hworks.1 hworks.2 hcall
      exact ⟨db, keys, values, tables, hs.move ⟨hlisted, hkeyed⟩ rfl⟩

/-- The memory stands for a database at any time. -/
theorem stands_of_run {es : List (MemEvent ι)} (hrun : machine.run start es = some s) :
    ∃ db keys values tables, s.Stands db keys values tables := by
  refine machine.run_invariant (I := fun s => ∃ db keys values tables,
    s.Stands db keys values tables) ?_ ⟨_, _, _, _, stands_start⟩ hrun
  rintro s e s' ⟨db, keys, values, tables, hs⟩ hstep
  exact hs.step hstep

/-- Whoever fails is about to make the string of a value that has been freed. -/
theorem Stands.freed_of_fails (hs : s.Stands db keys values tables) (hfails : s.Fails client) :
    ∃ call pc, s.thread client = .reading call pc ∧
      ∃ value ∈ pc.next, s.mem.values.read value = none := by
  obtain ⟨hthread, hstep⟩ := hfails
  have hworks := hs.works client
  cases hthread' : s.thread client with
  | idle => exact absurd hthread' hthread
  | writing call pc =>
      exfalso
      by_cases hpc : pc = .done
      · simp [machine, hthread', hpc] at hstep
      · obtain ⟨m', pc', _, _, _, _, hcall, -⟩ := hs.writeStep hthread' hpc
        simp [step_writing hthread' hpc, hcall] at hstep
  | reading call pc =>
      refine ⟨call, pc, rfl, ?_⟩
      by_contra hvalues
      push Not at hvalues
      by_cases hpc : pc = .done
      · simp [machine, hthread', hpc] at hstep
      · rw [hthread'] at hworks
        obtain ⟨pc', hcall⟩ := hs.accounts.exists_readStep hpc hworks.1 hworks.2 hvalues
        simp [step_reading hthread' hpc, hcall] at hstep

/-! ## Runs in which no `Update` disturbs a read call -/

end SharedMemory

/-- A read call may read the record of an index. -/
def MemRead.MayRead (call : MemRead) (index : Str) : Prop :=
  call.len = none → cStr call.index = cStr index

instance (call : MemRead) (index : Str) : Decidable (call.MayRead index) :=
  inferInstanceAs (Decidable (_ → _))

namespace MemThread

/-- The client is in a read call that may read the record of the index. -/
def MayRead (index : Str) : MemThread → Prop
  | reading call _ => call.MayRead index
  | idle | writing .. => False

/-- The client is in a call of `Update` of a record that the read call may read. -/
def Disturbs (call : MemRead) : MemThread → Prop
  | writing write _ => write.op = .update ∧ call.MayRead write.index
  | idle | reading .. => False

instance (index : Str) : ∀ thread : MemThread, Decidable (thread.MayRead index)
  | reading call _ => inferInstanceAs (Decidable (call.MayRead index))
  | idle | writing .. => isFalse id

instance (call : MemRead) : ∀ thread : MemThread, Decidable (thread.Disturbs call)
  | writing .. => inferInstanceAs (Decidable (_ ∧ _))
  | idle | reading .. => isFalse id

end MemThread

theorem MemReadPc.mem_toRead {pc : MemReadPc} {table : Ptr} (hcurrent : pc.current = some table) :
    table ∈ pc.toRead := by
  cases pc with
  | value | pairs =>
      cases hcurrent
      exact List.mem_cons_self
  | _ => cases hcurrent

namespace LockStlDB.Accounts

variable {m : LockStlDB} {db : HashtableDB} {keys values tables : List Ptr} {table : Ptr}
  {index index' : Str}

/-- Two indices have two field tables. -/
theorem cStr_eq (hacc : Accounts m db keys values tables)
    (hget : db.keyTable.get index = some table) (hget' : db.keyTable.get index' = some table) :
    cStr index = cStr index' :=
  hacc.keyTable.cStr_eq (List.nodup_append.mp hacc.ownsTables.nodup).2.1
    (fun hv hv' => hv.trans hv'.symm) hget hget'

theorem notMem_tables (hacc : Accounts m db keys values tables)
    (hget : db.keyTable.get index = some table) : table ∉ tables := by
  intro hmem
  obtain ⟨_, hvalue, rfl⟩ := hacc.keyTable.exists_value hget
  exact (List.nodup_append.mp hacc.ownsTables.nodup).2.2 _ hmem _ hvalue rfl

end LockStlDB.Accounts

namespace SharedMemory

variable {ι : Type*}

/-- No `Update` begins while a call is open that may read its record, and no call that may
read a record while an `Update` of it is open. -/
def Apart (s : SharedMemory ι) : MemEvent ι → Prop
  | .write _ call => call.op = .update → ∀ other, ¬ (s.thread other).MayRead call.index
  | .read _ call => ∀ other, ¬ (s.thread other).Disturbs call
  | .step _ => True

/-- No open `Update` disturbs an open read call, and what read calls have in their hands
is in the field tables. -/
structure Undisturbed (s : SharedMemory ι) : Prop where
  separated : ∀ client call pc other, s.thread client = .reading call pc →
    ¬ (s.thread other).Disturbs call
  valued : ∀ client call pc, s.thread client = .reading call pc → pc.Valued s.mem

variable {s s' : SharedMemory ι} {db : HashtableDB} {keys values tables : List Ptr} {client : ι}

/-- The field table whose values `field_table->Update` exchanges is none that is read. -/
theorem Stands.exchanges_ne (hs : s.Stands db keys values tables) {write : MemWrite}
    {pc : MemWritePc} (hthread : s.thread client = .writing write pc) {other : ι} {read : MemRead}
    {pc' : MemReadPc} (hthread' : s.thread other = .reading read pc')
    (hnot : ¬ (s.thread client).Disturbs read) {table : Ptr} (htable : pc'.current = some table) :
    pc.exchanges ≠ some table := by
  intro hexchanges
  obtain ⟨hofUpdate, hpc⟩ := MemWritePc.ofUpdate_of_exchanges hexchanges
  have hworks := hs.works client
  have hworks' := hs.works other
  rw [hthread] at hworks hnot
  rw [hthread'] at hworks'
  refine hnot ⟨hworks.2.2 hofUpdate, fun hlen => ?_⟩
  have hget := (hworks'.1 table (MemReadPc.mem_toRead htable)).ofIndex hlen
  rcases hworks.1 table hpc with hget' | hmem
  · exact hs.accounts.cStr_eq hget hget'
  · exact absurd hmem (hs.accounts.notMem_tables hget)

variable [DecidableEq ι]

/-- A client has moved on, in a call that reads or not, and the others have what they had. -/
theorem Undisturbed.move (hundisturbed : s.Undisturbed) {m' : LockStlDB} {thread : MemThread}
    (hself : ∀ call pc, thread = .reading call pc →
      (∀ other ≠ client, ¬ (s.thread other).Disturbs call) ∧ pc.Valued m')
    (hothers : ∀ other ≠ client, ∀ call pc, s.thread other = .reading call pc →
      ¬ thread.Disturbs call ∧ pc.Valued m') : (s.move client m' thread).Undisturbed where
  separated := by
    intro one call pc other hone
    by_cases heq : one = client
    · rw [heq, move_thread_self] at hone
      by_cases heq' : other = client
      · rw [heq', move_thread_self, hone]
        exact id
      · rw [move_thread_ne heq']
        exact (hself call pc hone).1 other heq'
    · rw [move_thread_ne heq] at hone
      by_cases heq' : other = client
      · rw [heq', move_thread_self]
        exact (hothers one heq call pc hone).1
      · rw [move_thread_ne heq']
        exact hundisturbed.separated one call pc other hone
  valued := by
    intro one call pc hone
    by_cases heq : one = client
    · rw [heq, move_thread_self] at hone
      exact (hself call pc hone).2
    · rw [move_thread_ne heq] at hone
      exact (hothers one heq call pc hone).2

theorem Undisturbed.step (hs : s.Stands db keys values tables) (hundisturbed : s.Undisturbed)
    {e : MemEvent ι} (hapart : s.Apart e) (hstep : machine.step s e = some s') :
    s'.Undisturbed := by
  cases step_cases hstep with
  | @write client call hidle =>
      refine hundisturbed.move nofun fun other _ read pc hother => ⟨?_, ?_⟩
      · rintro ⟨hop, hmayRead⟩
        refine hapart hop other ?_
        rw [hother]
        exact hmayRead
      · exact hundisturbed.valued other read pc hother
  | @read client call hidle =>
      refine hundisturbed.move ?_ fun other _ read pc hother =>
        ⟨id, hundisturbed.valued other read pc hother⟩
      rintro _ _ ⟨⟩
      exact ⟨fun other _ => hapart other, nofun⟩
  | @finish client =>
      exact hundisturbed.move nofun fun other _ read pc hother =>
        ⟨id, hundisturbed.valued other read pc hother⟩
  | @writing client call pc pc' m' hthread hcall =>
      have hpc : pc ≠ .done := by
        rintro rfl
        cases hcall
      obtain ⟨_, _, _, _, _, _, hcall', hgrows, -⟩ := hs.writeStep hthread hpc
      cases hcall.symm.trans hcall'
      refine hundisturbed.move nofun fun other _ read pc₁ hother => ?_
      have hnot := hundisturbed.separated other read pc₁ client hother
      refine ⟨?_, hgrows.valued ?_ (hundisturbed.valued other read pc₁ hother)⟩
      · rw [hthread] at hnot
        exact hnot
      · intro table htable
        exact hs.exchanges_ne hthread hother hnot htable
  | @reading client call pc pc' hthread hcall =>
      refine hundisturbed.move ?_ fun other _ read pc₁ hother =>
        ⟨id, hundisturbed.valued other read pc₁ hother⟩
      rintro _ _ ⟨⟩
      have hworks := hs.works client
      rw [hthread] at hworks
      obtain ⟨-, -, hvalued⟩ := hs.accounts.readStep hworks.1 hworks.2 hcall
      exact ⟨fun other _ => hundisturbed.separated client call pc other hthread,
        hvalued (hundisturbed.valued client call pc hthread)⟩

/-- A call fails in no run in which no `Update` of a record overlaps a `Read` of it, and
none a `Scan`. -/
theorem apart_neverFails {es : List (MemEvent ι)} (hapart : machine.Along Apart start es)
    (hrun : machine.run start es = some s) (client : ι) : ¬ s.Fails client := by
  have hinv : (∃ db keys values tables, s.Stands db keys values tables) ∧ s.Undisturbed := by
    refine machine.run_invariant_of_along
      (I := fun s => (∃ db keys values tables, s.Stands db keys values tables) ∧ s.Undisturbed)
      ?_ ⟨⟨_, _, _, _, stands_start⟩, nofun, nofun⟩ hapart hrun
    rintro s e s' ⟨⟨db, keys, values, tables, hs⟩, hundisturbed⟩ hevent hstep
    exact ⟨hs.step hstep, hundisturbed.step hs hevent hstep⟩
  obtain ⟨⟨db, keys, values, tables, hs⟩, hundisturbed⟩ := hinv
  intro hfails
  obtain ⟨call, pc, hthread, value, hmem, hfreed⟩ := hs.freed_of_fails hfails
  exact hs.accounts.read_of_valued (hundisturbed.valued client call pc hthread)
    (List.mem_of_mem_head? hmem) hfreed

instance decidableApart [Fintype ι] (s : SharedMemory ι) : ∀ e, Decidable (s.Apart e)
  | .write _ _ => inferInstanceAs (Decidable (_ → ∀ _, _))
  | .read _ _ => inferInstanceAs (Decidable (∀ _, _))
  | .step _ => isTrue trivial

/-- Client `true` reads a record while client `false` updates another one. -/
def overlap : List (MemEvent Bool) :=
  [.write false ⟨.insert, "a".toList, [("f".toList, "1".toList)]⟩,
    .step false, .step false, .step false, .step false, .step false,
    .write false ⟨.update, "b".toList, [("f".toList, "2".toList)]⟩,
    .read true ⟨"a".toList, none, some ["f".toList], .latestFirst,
      IterationOrder.looksAtKeys_latestFirst⟩,
    .step true, .step true, .step false, .step true,
    .step false, .step false]

theorem apart_neverFails_overlap :
    ∃ s : SharedMemory Bool, machine.Along Apart start overlap ∧
      machine.run start overlap = some s ∧ s.thread true ≠ .idle ∧ ¬ s.Fails true := by
  have hapart : machine.Along Apart start overlap := by decide
  have hrun : machine.run start overlap = some ((machine.run start overlap).get rfl) :=
    (Option.some_get _).symm
  exact ⟨_, hapart, hrun, nofun, apart_neverFails hapart hrun true⟩

end SharedMemory

end YcsbC
