import YcsbC.Db.SharedMemorySafety
import YcsbC.Foundation.Moments

/-!
# Which values a client misses

A client that reads has pointers in its hands from the step that has found them in a field
table, when they pointed to values.  A value that nobody can find any more is freed by
`Update`, which has taken it out of its table, or by `Insert`, which has made it and put it
nowhere.  So a value that a client misses has been freed since it looked it up, by an `Update`
of another client (`fails_only_on_freed`).
-/

namespace YcsbC

/-! ## What steps do to the values -/

namespace MemWritePc

/-- The value that the next step frees. -/
def frees : MemWritePc → Option Ptr
  | deleteValue value | deleteOld value _ _ => some value
  | get | publish | insertField .. | updateNewField .. | updateField .. | insertMissing .. | done =>
      none

/-- The value that the call has made and found no place for. -/
def unplaced : MemWritePc → Option Ptr
  | deleteValue value => some value
  | get | publish | insertField .. | updateNewField .. | updateField .. | insertMissing ..
  | deleteOld .. | done => none

end MemWritePc

namespace LockStlDB

variable {m m' : LockStlDB} {table value : Ptr} {field index : Str}

theorem values_keyInsert (hinsert : m.keyInsert index table = some m') : m'.values = m.values := by
  simp only [keyInsert, Option.bind_eq_bind, Option.bind_eq_some_iff] at hinsert
  obtain ⟨_, -, heq⟩ := hinsert
  cases heq
  rfl

theorem values_fieldInsert {ok : Bool} (hinsert : m.fieldInsert table field value = some (ok, m')) :
    m'.values = m.values := by
  simp only [fieldInsert, Option.bind_eq_bind, Option.bind_eq_some_iff] at hinsert
  obtain ⟨_, -, _, -, _, -, heq⟩ := hinsert
  cases heq
  rfl

theorem values_fieldUpdate {old : Option Ptr}
    (hupdate : m.fieldUpdate table field value = some (old, m')) : m'.values = m.values := by
  simp only [fieldUpdate, Option.bind_eq_bind, Option.bind_eq_some_iff] at hupdate
  obtain ⟨_, -, _, -, _, -, heq⟩ := hupdate
  cases heq
  rfl

theorem values_deleteString (hdelete : m.deleteString value = some m') :
    m.values.free value = some m'.values := by
  obtain ⟨_, hfree, rfl⟩ := Option.map_eq_some_iff.mp hdelete
  exact hfree

end LockStlDB

/-- What a step does to the values. -/
inductive ValuesStep (values : Heap Str) (pc : MemWritePc) : Heap Str → MemWritePc → Prop where
  | same {pc' : MemWritePc} : pc'.unplaced = none → ValuesStep values pc values pc'
  | alloc (str : Str) {pc' : MemWritePc} :
      pc'.unplaced = none ∨ pc'.unplaced = some (values.alloc str).1 →
      ValuesStep values pc (values.alloc str).2 pc'
  | free {value : Ptr} {values' : Heap Str} {pc' : MemWritePc} : pc.frees = some value →
      values.free value = some values' → pc'.unplaced = none → ValuesStep values pc values' pc'

theorem MemWrite.valuesStep {call : MemWrite} {m m' : LockStlDB} {pc pc' : MemWritePc}
    (hstep : call.step m pc = some (m', pc')) : ValuesStep m.values pc m'.values pc' := by
  cases pc with
  | get =>
      simp only [step, Option.bind_eq_bind, Option.bind_eq_some_iff] at hstep
      obtain ⟨found, -, hstep⟩ := hstep
      cases found with
      | none =>
          cases hstep
          exact .same rfl
      | some table =>
          cases hop : call.op <;> rw [hop] at hstep <;> cases hstep <;> exact .same rfl
  | publish =>
      simp only [step, Option.bind_eq_bind, Option.bind_eq_some_iff] at hstep
      obtain ⟨m₁, hinsert, hstep⟩ := hstep
      have hvalues : m₁.values = m.values := (LockStlDB.values_keyInsert hinsert).trans rfl
      cases hop : call.op <;> rw [hop] at hstep <;> cases hstep <;> rw [hvalues] <;>
        exact .same rfl
  | insertField table pairs =>
      cases pairs with
      | nil =>
          cases hstep
          exact .same rfl
      | cons pair pairs =>
          simp only [step, Option.bind_eq_bind, Option.bind_eq_some_iff] at hstep
          obtain ⟨⟨ok, m₁⟩, hinsert, hstep⟩ := hstep
          have hvalues := LockStlDB.values_fieldInsert hinsert
          cases hstep
          rw [hvalues]
          refine .alloc (cStr pair.2) ?_
          cases ok with
          | true => exact Or.inl rfl
          | false => exact Or.inr rfl
  | deleteValue value =>
      simp only [step, Option.bind_eq_bind, Option.bind_eq_some_iff] at hstep
      obtain ⟨m₁, hdelete, hstep⟩ := hstep
      cases hstep
      exact .free rfl (LockStlDB.values_deleteString hdelete) rfl
  | updateNewField table pairs =>
      cases pairs with
      | nil =>
          cases hstep
          exact .same rfl
      | cons pair pairs =>
          simp only [step, Option.bind_eq_bind, Option.bind_eq_some_iff] at hstep
          obtain ⟨⟨ok, m₁⟩, hinsert, hstep⟩ := hstep
          have hvalues := LockStlDB.values_fieldInsert hinsert
          cases hstep
          rw [hvalues]
          exact .alloc (cStr pair.2) (Or.inl rfl)
  | updateField table pairs =>
      cases pairs with
      | nil =>
          cases hstep
          exact .same rfl
      | cons pair pairs =>
          simp only [step, Option.bind_eq_bind, Option.bind_eq_some_iff] at hstep
          obtain ⟨⟨old, m₁⟩, hupdate, hstep⟩ := hstep
          have hvalues := LockStlDB.values_fieldUpdate hupdate
          cases old <;> cases hstep <;> rw [hvalues] <;> exact .alloc (cStr pair.2) (Or.inl rfl)
  | insertMissing table field value pairs =>
      simp only [step, Option.bind_eq_bind, Option.bind_eq_some_iff] at hstep
      obtain ⟨⟨ok, m₁⟩, hinsert, hstep⟩ := hstep
      have hvalues := LockStlDB.values_fieldInsert hinsert
      cases hstep
      rw [hvalues]
      exact .same rfl
  | deleteOld old table pairs =>
      simp only [step, Option.bind_eq_bind, Option.bind_eq_some_iff] at hstep
      obtain ⟨m₁, hdelete, hstep⟩ := hstep
      cases hstep
      exact .free rfl (LockStlDB.values_deleteString hdelete) rfl
  | done => cases hstep

/-- A read call has no pointers before it looks them up. -/
theorem MemRead.values_step {call : MemRead} {m : LockStlDB} {pc pc' : MemReadPc}
    (hstep : call.step m pc = some pc') : pc.current = none ∨ pc'.values ⊆ pc.values := by
  cases pc with
  | start | tables | get | done => exact Or.inl rfl
  | value value table fields ts =>
      simp only [step, Option.bind_eq_bind, Option.bind_eq_some_iff] at hstep
      obtain ⟨str, -, hstep⟩ := hstep
      cases hstep
      exact Or.inr (List.nil_subset _)
  | pairs table pairs ts =>
      right
      cases pairs with
      | nil =>
          cases hstep
          exact List.nil_subset _
      | cons pair pairs =>
          simp only [step, Option.bind_eq_bind, Option.bind_eq_some_iff] at hstep
          obtain ⟨_, -, hstep⟩ := hstep
          cases hstep
          exact List.subset_cons_self _ _

namespace SharedMemory

variable {ι : Type*} [DecidableEq ι] {es : List (MemEvent ι)} {s s' : SharedMemory ι}
  {db : HashtableDB} {keys values tables : List Ptr} {client other : ι} {call : MemRead}
  {value : Ptr} {time : ℕ}

/-! ## Looking up and freeing -/

/-- The client has looked the value up, then allocated, in an event of its call, and has had
it in its hands since. -/
structure LookedUp (es : List (MemEvent ι)) (client : ι) (call : MemRead) (value : Ptr)
    (time : ℕ) : Prop where
  event : es[time]? = some (.step client)
  found : ∃ s pc pc', machine.At start es time s ∧ s.thread client = .reading call pc ∧
    call.step s.mem pc = some pc' ∧ value ∉ pc.values ∧ value ∈ pc'.values ∧
    s.mem.values.read value ≠ none
  since : ∀ later s, time < later → machine.At start es later s →
    ∃ pc, s.thread client = .reading call pc ∧ value ∈ pc.values

/-- The client frees the value, which its `Update` has exchanged. -/
structure FreesOld (es : List (MemEvent ι)) (client : ι) (value : Ptr) (time : ℕ) : Prop where
  event : es[time]? = some (.step client)
  frees : ∃ s call table pairs m', machine.At start es time s ∧
    s.thread client = .writing call (.deleteOld value table pairs) ∧ call.op = .update ∧
    s.mem.deleteString value = some m'

omit [DecidableEq ι] in
theorem getElem?_concat {e e' : MemEvent ι} (hevent : es[time]? = some e) :
    (es ++ [e'])[time]? = some e := by
  obtain ⟨hlt, -⟩ := List.getElem?_eq_some_iff.mp hevent
  rw [List.getElem?_append_left hlt, hevent]

theorem FreesOld.concat (hfrees : FreesOld es client value time) (e : MemEvent ι) :
    FreesOld (es ++ [e]) client value time where
  event := getElem?_concat hfrees.event
  frees := by
    obtain ⟨s, call, table, pairs, m', hat, hrest⟩ := hfrees.frees
    exact ⟨s, call, table, pairs, m', hat.append [e], hrest⟩

theorem LookedUp.concat (hlooked : LookedUp es client call value time) {e : MemEvent ι}
    (hrun : machine.run start es = some s) (hstep : machine.step s e = some s')
    (hkeeps : ∃ pc, s'.thread client = .reading call pc ∧ value ∈ pc.values) :
    LookedUp (es ++ [e]) client call value time where
  event := getElem?_concat hlooked.event
  found := by
    obtain ⟨s, pc, pc', hat, hrest⟩ := hlooked.found
    exact ⟨s, pc, pc', hat.append [e], hrest⟩
  since later s₁ hlater hat := by
    rcases hat.of_concat hrun hstep with hat | ⟨-, rfl⟩
    · exact hlooked.since later s₁ hlater hat
    · exact hkeeps

/-- The values in the hands of a client that reads have been allocated, are not those that an
`Insert` has made and put nowhere, and have been looked up.  Those that are not allocated any
more have been freed since by an `Update` of another client. -/
structure Traced (es : List (MemEvent ι)) (s : SharedMemory ι) (client : ι) (call : MemRead)
    (value : Ptr) : Prop where
  lt_length : value < s.mem.values.blocks.length
  ne_deleteValue : ∀ other write, s.thread other ≠ .writing write (.deleteValue value)
  lookedUp : ∃ looked, LookedUp es client call value looked ∧
    (s.mem.values.read value = none →
      ∃ other freed, looked < freed ∧ other ≠ client ∧ FreesOld es other value freed)

/-- All values that clients read are traced. -/
def AllTraced (es : List (MemEvent ι)) (s : SharedMemory ι) : Prop :=
  ∀ client call pc, s.thread client = .reading call pc → ∀ value ∈ pc.values,
    Traced es s client call value

/-- A step of another client that leaves the memory as it is. -/
theorem Traced.move (htraced : Traced es s client call value) {e : MemEvent ι}
    (hrun : machine.run start es = some s) {mover : ι} {thread : MemThread}
    (hstep : machine.step s e = some (s.move mover s.mem thread))
    (hthread : ∀ write, thread ≠ .writing write (.deleteValue value))
    (hkeeps : ∃ pc, (s.move mover s.mem thread).thread client = .reading call pc ∧
      value ∈ pc.values) :
    Traced (es ++ [e]) (s.move mover s.mem thread) client call value where
  lt_length := htraced.lt_length
  ne_deleteValue other write := by
    by_cases heq : other = mover
    · rw [heq, move_thread_self]
      exact hthread write
    · rw [move_thread_ne heq]
      exact htraced.ne_deleteValue other write
  lookedUp := by
    obtain ⟨looked, hlooked, hfreed⟩ := htraced.lookedUp
    refine ⟨looked, hlooked.concat hrun hstep hkeeps, fun hread => ?_⟩
    obtain ⟨other, freed, hlt, hne, hfrees⟩ := hfreed hread
    exact ⟨other, freed, hlt, hne, hfrees.concat e⟩

/-- A step of a write call of another client. -/
theorem Traced.writing (hs : s.Stands db keys values tables)
    (htraced : Traced es s client call value) (hrun : machine.run start es = some s)
    {write : MemWrite} {pc pc' : MemWritePc} {m' : LockStlDB}
    (hthread : s.thread other = .writing write pc) (hcall : write.step s.mem pc = some (m', pc'))
    (hstep : machine.step s (.step other) = some (s.move other m' (.writing write pc')))
    (hkeeps : ∃ pc₁, s.thread client = .reading call pc₁ ∧ value ∈ pc₁.values) :
    Traced (es ++ [.step other]) (s.move other m' (.writing write pc')) client call value := by
  have hne : client ≠ other := by
    rintro rfl
    obtain ⟨_, hreading, -⟩ := hkeeps
    cases hthread.symm.trans hreading
  have hkeeps' : ∃ pc₁, (s.move other m' (.writing write pc')).thread client = .reading call pc₁ ∧
      value ∈ pc₁.values := by
    rw [move_thread_ne hne]
    exact hkeeps
  obtain ⟨looked, hlooked, hfreed⟩ := htraced.lookedUp
  have hlooked' := hlooked.concat hrun hstep hkeeps'
  have hothers (hpc' : pc'.unplaced ≠ some value) (third : ι) (write' : MemWrite) :
      (s.move other m' (.writing write pc')).thread third ≠
        .writing write' (.deleteValue value) := by
    by_cases heq : third = other
    · rw [heq, move_thread_self]
      rintro ⟨⟩
      exact hpc' rfl
    · rw [move_thread_ne heq]
      exact htraced.ne_deleteValue third write'
  -- what has been freed before
  have hbefore (hread : s.mem.values.read value = none) :
      ∃ third freed, looked < freed ∧ third ≠ client ∧
        FreesOld (es ++ [.step other]) third value freed := by
    obtain ⟨third, freed, hlt, hne', hfrees⟩ := hfreed hread
    exact ⟨third, freed, hlt, hne', hfrees.concat _⟩
  have hvalues := MemWrite.valuesStep hcall
  generalize hheap : m'.values = values' at hvalues
  cases hvalues with
  | same hpc' =>
      refine ⟨?_, hothers (by simp [hpc']), looked, hlooked', ?_⟩
      · rw [move_mem, hheap]
        exact htraced.lt_length
      · rw [move_mem, hheap]
        exact hbefore
  | alloc str hpc' =>
      have hfresh : value ≠ (s.mem.values.alloc str).1 := Nat.ne_of_lt htraced.lt_length
      refine ⟨?_, hothers fun heq => ?_, looked, hlooked', ?_⟩
      · rw [move_mem, hheap]
        simpa [Heap.alloc] using htraced.lt_length.trans (Nat.lt_succ_self _)
      · rcases hpc' with hnone | hnew
        · cases hnone.symm.trans heq
        · exact hfresh (Option.some.inj (heq.symm.trans hnew))
      · rw [move_mem, hheap, Heap.read_alloc_ne hfresh]
        exact hbefore
  | @free freed _ _ hpc hfree hpc' =>
      refine ⟨?_, hothers (by simp [hpc']), looked, hlooked', fun hread => ?_⟩
      · rw [move_mem, hheap, (Heap.free_eq_some.mp hfree).2]
        simpa using htraced.lt_length
      · by_cases heq : value = freed
        · subst heq
          cases pc with
          | deleteValue =>
              cases hpc
              exact absurd hthread (htraced.ne_deleteValue other write)
          | deleteOld old table pairs =>
              cases hpc
              have hworks := hs.works other
              rw [hthread] at hworks
              refine ⟨other, es.length, ?_, hne.symm, ?_, ?_⟩
              · exact (List.getElem?_eq_some_iff.mp hlooked.event).1
              · simp
              · refine ⟨s, write, table, pairs, { s.mem with values := values' },
                  (Machine.at_length hrun).append _, hthread, hworks.2.2 trivial, ?_⟩
                rw [LockStlDB.deleteString, hfree, Option.map_some]
          | _ => cases hpc
        · rw [move_mem, hheap, Heap.read_free_ne hfree heq] at hread
          exact hbefore hread

/-- The step of a read call: what it looks up is allocated and in no other client's hands. -/
theorem AllTraced.reading (hs : s.Stands db keys values tables) (htraced : AllTraced es s)
    (hrun : machine.run start es = some s) {pc pc' : MemReadPc}
    (hthread : s.thread client = .reading call pc) (hcall : call.step s.mem pc = some pc')
    (hstep : machine.step s (.step client) = some (s.move client s.mem (.reading call pc')))
    (hmem : value ∈ pc'.values) :
    Traced (es ++ [.step client]) (s.move client s.mem (.reading call pc')) client call value := by
  have hkeeps : ∃ pc₁, (s.move client s.mem (.reading call pc')).thread client =
      .reading call pc₁ ∧ value ∈ pc₁.values := ⟨pc', move_thread_self .., hmem⟩
  by_cases hold : value ∈ pc.values
  · exact (htraced client call pc hthread value hold).move hrun hstep nofun hkeeps
  · have hcurrent := (MemRead.values_step hcall).resolve_right fun hsubset => hold (hsubset hmem)
    have hworks := hs.works client
    rw [hthread] at hworks
    obtain ⟨-, -, hvalued⟩ := hs.accounts.readStep hworks.1 hworks.2 hcall
    have hvalued' : pc'.Valued s.mem := hvalued (by simp [MemReadPc.Valued, hcurrent])
    have hread := hs.accounts.read_of_valued hvalued' hmem
    obtain ⟨str, hstr⟩ := Option.ne_none_iff_exists'.mp hread
    refine ⟨Heap.lt_of_read hstr, ?_, es.length, ⟨?_, ?_, ?_⟩, fun hfreed => absurd hfreed hread⟩
    · intro other write hother
      by_cases heq : other = client
      · rw [heq, move_thread_self] at hother
        cases hother
      · rw [move_thread_ne heq] at hother
        have hworks' := hs.works other
        rw [hother] at hworks'
        exact hs.accounts.notMem_of_valued hvalued' hmem (hworks'.2.1 value rfl)
    · simp
    · exact ⟨s, pc, pc', (Machine.at_length hrun).append _, hthread, hcall, hold, hmem, hread⟩
    · intro later s₁ hlater hat
      rcases hat.of_concat hrun hstep with hat | ⟨-, rfl⟩
      · exact absurd hat.1 (by omega)
      · exact hkeeps

/-- A client that reads after a step that puts no client into a read call was reading before. -/
theorem reading_of_move {mover : ι} {m : LockStlDB} {thread : MemThread} {pc : MemReadPc}
    (hclient : (s.move mover m thread).thread client = .reading call pc)
    (hthread : ∀ pc, thread ≠ .reading call pc) :
    s.thread client = .reading call pc := by
  by_cases heq : client = mover
  · rw [heq, move_thread_self] at hclient
    exact absurd hclient (hthread pc)
  · rwa [move_thread_ne heq] at hclient

theorem AllTraced.step {e : MemEvent ι} (hs : s.Stands db keys values tables)
    (hrun : machine.run start es = some s) (htraced : AllTraced es s)
    (hstep : machine.step s e = some s') : AllTraced (es ++ [e]) s' := by
  intro client call pc hclient value hmem
  cases step_cases hstep with
  | write hidle =>
      have hbefore := htraced client call pc (reading_of_move hclient nofun) value hmem
      exact hbefore.move hrun hstep nofun ⟨pc, hclient, hmem⟩
  | @read mover read hidle =>
      by_cases heq : client = mover
      · rw [heq, move_thread_self] at hclient
        cases hclient
        cases hmem
      · have hclient' := (move_thread_ne heq _ _).symm.trans hclient
        exact (htraced client call pc hclient' value hmem).move hrun hstep nofun
          ⟨pc, hclient, hmem⟩
  | finish =>
      have hbefore := htraced client call pc (reading_of_move hclient nofun) value hmem
      exact hbefore.move hrun hstep nofun ⟨pc, hclient, hmem⟩
  | writing hthread hcall =>
      have hclient' := reading_of_move hclient nofun
      exact (htraced client call pc hclient' value hmem).writing hs hrun hthread hcall hstep
        ⟨pc, hclient', hmem⟩
  | @reading mover read pc₁ pc₁' hthread hcall =>
      by_cases heq : client = mover
      · subst heq
        rw [move_thread_self] at hclient
        cases hclient
        exact htraced.reading hs hrun hthread hcall hstep hmem
      · have hclient' := (move_thread_ne heq _ _).symm.trans hclient
        exact (htraced client call pc hclient' value hmem).move hrun hstep nofun
          ⟨pc, hclient, hmem⟩

theorem allTraced_of_run (hrun : machine.run start es = some s) : AllTraced es s := by
  have hstart : AllTraced [] (start : SharedMemory ι) := by
    intro client call pc hclient
    cases hclient
  refine Machine.run_history (I := AllTraced) ?_ hstart hrun
  intro es s e s' hrun htraced hstep
  obtain ⟨db, keys, values, tables, hs⟩ := stands_of_run hrun
  exact AllTraced.step hs hrun htraced hstep

/-- However the calls of the clients interleave, no value is freed twice and nothing but the
string of a freed value is missed: a call fails only when a `Read` or a `Scan` is about to make
the string of a value that was allocated when the call looked it up, and that an `Update` of
another client has freed since. -/
theorem fails_only_on_freed (hrun : machine.run start es = some s) (hfails : s.Fails client) :
    ∃ call pc value, s.thread client = .reading call pc ∧ pc.next = some value ∧
      s.mem.values.read value = none ∧
      ∃ looked other freed, LookedUp es client call value looked ∧ looked < freed ∧
        other ≠ client ∧ FreesOld es other value freed := by
  obtain ⟨db, keys, values, tables, hs⟩ := stands_of_run hrun
  obtain ⟨call, pc, hthread, value, hnext, hfreed⟩ := hs.freed_of_fails hfails
  have htraced := allTraced_of_run hrun client call pc hthread value (List.mem_of_mem_head? hnext)
  obtain ⟨looked, hlooked, hsince⟩ := htraced.lookedUp
  obtain ⟨other, freed, hlt, hne, hfrees⟩ := hsince hfreed
  exact ⟨call, pc, value, hthread, hnext, hfreed, looked, other, freed, hlooked, hlt, hne, hfrees⟩

/-- Client `true` has got the value of a field when client `false` exchanges it and frees it. -/
def race : List (MemEvent Bool) :=
  [.write false ⟨.insert, "a".toList, [("f".toList, "1".toList)]⟩,
    .step false, .step false, .step false, .step false, .step false,
    .read true ⟨"a".toList, none, some ["f".toList], .latestFirst,
      IterationOrder.looksAtKeys_latestFirst⟩,
    .step true, .step true, .step true,
    .write false ⟨.update, "a".toList, [("f".toList, "2".toList)]⟩,
    .step false, .step false, .step false]

theorem fails_only_on_freed_race :
    ∃ s : SharedMemory Bool, machine.run start race = some s ∧ s.Fails true ∧
      ∃ call pc value, s.thread true = .reading call pc ∧ pc.next = some value ∧
        s.mem.values.read value = none ∧
        ∃ looked other freed, LookedUp race true call value looked ∧ looked < freed ∧
          other ≠ true ∧ FreesOld race other value freed := by
  have hrun : machine.run start race = some ((machine.run start race).get rfl) :=
    (Option.some_get _).symm
  have hfails : ((machine.run start race).get rfl).Fails true := ⟨nofun, rfl⟩
  exact ⟨_, hrun, hfails, fails_only_on_freed hrun hfails⟩

end SharedMemory

end YcsbC
