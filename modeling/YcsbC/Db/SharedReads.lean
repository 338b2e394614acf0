import YcsbC.Db.SharedGrowth
import YcsbC.Foundation.Moments

/-!
# What concurrent reads return

A `Read` takes several steps, and other clients move between them.  Its result is about the
record at moments between its begin and its return.  A `Read` of all fields returns the
record as it is at one of them; a `Read` of chosen fields looks at each at a moment of its
own, in their order, and returns what it sees (`read_moments`).  What is seen in a field
has been written there by a call on the same record (`read_written`).
-/

namespace YcsbC

open HashtableDB

namespace SharedDB

variable {ι : Type*}

/-! ## Statements -/

/-- A pair of a call of `Insert` or `Update` on the index that has begun. -/
def Written (es : List (SharedEvent ι)) (index : Str) (pair : KVPair) : Prop :=
  ∃ client call, .write client call ∈ es ∧ call.index = index ∧ pair ∈ call.values

theorem Written.mono {es es' : List (SharedEvent ι)} {index : Str} {pair : KVPair}
    (hwritten : Written es index pair) (hsub : es ⊆ es') : Written es' index pair := by
  obtain ⟨client, call, hmem, hcall⟩ := hwritten
  exact ⟨client, call, hsub hmem, hcall⟩

variable [DecidableEq ι]

/-- A field of the record of an index. -/
def fieldOf (index : Str) (s : SharedDB ι) (field : Str) : Option Str :=
  s.db.fieldValue index field

/-- What a `Read` that began with event `begun` may return when the events `es` have
happened. -/
inductive SeenBy (es : List (SharedEvent ι)) (begun : ℕ) (call : ReadCall) :
    ℤ → List KVPair → Prop
  | noRecord {time : ℕ} {s : SharedDB ι} : begun < time → machine.At start es time s →
      s.db.recordTable call.index = none → SeenBy es begun call kErrorNoData []
  | allFields {time : ℕ} {s : SharedDB ι} {fieldTable : FieldHashtable} : call.fields = none →
      begun < time → machine.At start es time s →
      s.db.recordTable call.index = some fieldTable →
      SeenBy es begun call kOK (fieldTable.entries call.order none none)
  | chosenFields {time : ℕ} {s : SharedDB ι} {looks : List (Machine.Look Str Str)} :
      call.fields = some (looks.map Machine.Look.part) → begun < time →
      machine.At start es time s → (s.db.recordTable call.index).isSome →
      machine.Looks (fieldOf call.index) start es time looks →
      SeenBy es begun call kOK (looks.filterMap Machine.Look.found)

/-! ## The invariant -/

/-- A field table that a call works on: the index has a record, and no other index has this
field table. -/
structure WorksOn (db : HashtableDB) (index : Str) (handle : Handle) : Prop where
  live : ∃ fieldTable, db.fieldTable handle = some fieldTable
  record : (db.recordTable index).isSome
  own : ∀ {index' : Str}, NulFree index' → db.keyTable.get index' = some handle → index' = index

/-- How far a call of `Insert` or `Update` has come. -/
structure WriteOk (db : HashtableDB) (call : WriteCall) (pc : WritePc) : Prop where
  work : ∀ {handle : Handle} {rest : List KVPair}, pc.work = some (handle, rest) →
    WorksOn db call.index handle ∧ rest ⊆ call.values
  done : ∀ {status : ℤ}, pc = .done status → (db.recordTable call.index).isSome

/-- How far a call of `Read` has come. -/
def ReadOk (es : List (SharedEvent ι)) (db : HashtableDB) (begun : ℕ) (call : ReadCall) :
    ReadPc → Prop
  | .get => True
  | .entries handle => db.keyTable.get call.index = some handle ∧ call.fields = none
  | .getField handle rest result => db.keyTable.get call.index = some handle ∧
      ∃ time s looks, begun < time ∧ time < es.length ∧ machine.At start es time s ∧
        (s.db.recordTable call.index).isSome ∧
        machine.Looks (fieldOf call.index) start es time looks ∧
        call.fields = some (looks.map Machine.Look.part ++ rest) ∧
        result = looks.filterMap Machine.Look.found
  | .done status result => SeenBy es begun call status result

/-- A client in a call. -/
def ClientOk (es : List (SharedEvent ι)) (db : HashtableDB) : Thread → Prop
  | .idle => True
  | .writing _ call pc => (∃ client, .write client call ∈ es) ∧ WriteOk db call pc
  | .reading begun call pc => begun < es.length ∧ ReadOk es db begun call pc

/-- All values come from calls, and all calls have come as far as the events say. -/
structure Accounted (es : List (SharedEvent ι)) (s : SharedDB ι) : Prop where
  now : s.now = es.length
  wellFormed : s.db.WellFormed
  written : ∀ {index field value : Str}, NulFree index → s.db.fieldValue index field = some value →
    Written es index (cStr field, value)
  client : ∀ client, ClientOk es s.db (s.thread client)
  returned : ∀ ret ∈ s.returned, (s.db.recordTable ret.call.index).isSome

theorem accounted_start : Accounted [] (start : SharedDB ι) where
  now := rfl
  wellFormed := wellFormed_empty
  written _ hvalue := by
    rw [start, fieldValue, recordTable_empty] at hvalue
    cases hvalue
  client _ := trivial
  returned _ hmem := absurd hmem List.not_mem_nil

/-! ## Later events -/

section Later

variable {es es' : List (SharedEvent ι)} {db db' : HashtableDB} {begun : ℕ}

theorem SeenBy.append {call : ReadCall} {status : ℤ} {result : List KVPair}
    (hseen : SeenBy es begun call status result) (es' : List (SharedEvent ι)) :
    SeenBy (es ++ es') begun call status result := by
  cases hseen with
  | noRecord hbegun hat hrecord => exact .noRecord hbegun (hat.append es') hrecord
  | allFields hfields hbegun hat hrecord => exact .allFields hfields hbegun (hat.append es') hrecord
  | chosenFields hfields hbegun hat hrecord hlooks =>
      exact .chosenFields hfields hbegun (hat.append es') hrecord (hlooks.append es')

theorem WorksOn.mono {index : Str} {handle : Handle} (hworks : WorksOn db index handle)
    (hgrows : Grows db db') : WorksOn db' index handle := by
  obtain ⟨fieldTable, hfields⟩ := hworks.live
  exact ⟨hgrows.live hfields, hgrows.isSome_recordTable hworks.record,
    fun hindex hget => hworks.own hindex (hgrows.unpublished hfields hget)⟩

theorem WriteOk.mono {call : WriteCall} {pc : WritePc} (hok : WriteOk db call pc)
    (hgrows : Grows db db') : WriteOk db' call pc where
  work hwork := (hok.work hwork).imp_left fun hworks => hworks.mono hgrows
  done hdone := hgrows.isSome_recordTable (hok.done hdone)

/-- A client that has not moved. -/
theorem ClientOk.mono {thread : Thread} (hok : ClientOk es db thread) (hgrows : Grows db db')
    (e : SharedEvent ι) : ClientOk (es ++ [e]) db' thread := by
  have hlen : es.length < (es ++ [e]).length := by
    rw [List.length_append]
    exact Nat.lt_succ_self _
  cases thread with
  | idle => trivial
  | writing begun call pc =>
      obtain ⟨⟨client, hmem⟩, hwrite⟩ := hok
      exact ⟨⟨client, List.mem_append_left _ hmem⟩, hwrite.mono hgrows⟩
  | reading begun call pc =>
      obtain ⟨hbegun, hread⟩ := hok
      refine ⟨hbegun.trans hlen, ?_⟩
      cases pc with
      | get => trivial
      | entries handle => exact ⟨hgrows.published hread.1, hread.2⟩
      | getField handle rest result =>
          obtain ⟨hget, time, s, looks, htime, hlt, hat, hrecord, hlooks, hfields, hresult⟩ := hread
          exact ⟨hgrows.published hget, time, s, looks, htime, hlt.trans hlen, hat.append _, hrecord,
            hlooks.append _, hfields, hresult⟩
      | done status result => exact hread.append _

end Later

/-! ## Steps of writes -/

section WriteSteps

variable {es : List (SharedEvent ι)} {db db' : HashtableDB} {call : WriteCall} {pc pc' : WritePc}

/-- The field table that a call has looked up. -/
theorem worksOn_of_get (hdb : db.WellFormed) {handle : Handle}
    (hget : db.keyTable.get call.index = some handle) : WorksOn db call.index handle := by
  obtain ⟨fieldTable, hfields, hrecord⟩ := exists_recordTable hdb hget
  refine ⟨⟨fieldTable, hfields⟩, by rw [hrecord]; rfl, fun hindex hget' => ?_⟩
  exact (HashString.wrap_inj hindex call.nulFree_index).mp (hdb.inj hget' hget)

/-- The field table that a call has made, whether it was published or not. -/
theorem worksOn_publish (hdb : db.WellFormed) :
    WorksOn (db.publish call.index) call.index db.newFieldHashtable.1 := by
  have hgrows := hdb.grows_publish call.index
  cases hget : db.keyTable.get call.index with
  | none =>
      obtain ⟨hsets, hself⟩ := sets_publish hdb hget
      exact worksOn_of_get hsets.wellFormed hself
  | some old =>
      refine ⟨⟨.empty, fieldTable_new_self⟩, ?_, fun {index'} _ hget' => ?_⟩
      · obtain ⟨fieldTable, -, hrecord⟩ := exists_recordTable hdb hget
        exact hgrows.isSome_recordTable (by rw [hrecord]; rfl)
      · -- the handle is new, and nothing was published
        rw [publish, StlHashtable.insert_of_get hget] at hget'
        obtain ⟨fieldTable, hfields⟩ := hdb.live hget'
        exact absurd (lt_of_fieldTable hfields) (lt_irrefl _)

theorem WriteOk.step (hok : WriteOk db call pc) (hdb : db.WellFormed)
    (hmove : WriteMove call db pc db' pc') : WriteOk db' call pc' := by
  have hgrows := hmove.grows hdb
  cases hmove with
  | missing =>
      refine ⟨fun hwork => ?_, fun hdone => ?_⟩
      · cases hwork
      · cases hdone
  | found hget hwork =>
      refine ⟨fun {handle rest} hwork' => ?_, fun {status} hdone => ?_⟩
      · rw [hwork] at hwork'
        cases hwork'
        exact ⟨worksOn_of_get hdb hget, List.Subset.refl _⟩
      · rw [hdone] at hwork
        cases hwork
  | publish hwork =>
      refine ⟨fun {handle rest} hwork' => ?_, fun {status} hdone => ?_⟩
      · rw [hwork] at hwork'
        cases hwork'
        exact ⟨worksOn_publish hdb, List.Subset.refl _⟩
      · rw [hdone] at hwork
        cases hwork
  | finish hwork =>
      refine ⟨fun hwork' => ?_, fun _ => (hok.work hwork).1.record⟩
      cases hwork'
  | set hwork hfields hget hnext =>
      obtain ⟨hworks, hsub⟩ := hok.work hwork
      refine ⟨fun {handle rest} hwork' => ?_, fun _ => hgrows.isSome_recordTable hworks.record⟩
      rcases hnext with hnext | hnext | ⟨status, rfl⟩
      · rw [hnext] at hwork'
        cases hwork'
        exact ⟨hworks.mono hgrows, fun _ hmem => hsub (List.mem_cons_of_mem _ hmem)⟩
      · rw [hnext] at hwork'
        cases hwork'
        exact ⟨hworks.mono hgrows, hsub⟩
      · cases hwork'

/-- What a step has written is a pair of its call. -/
theorem WriteOk.fieldValue (hok : WriteOk db call pc) (hdb : db.WellFormed)
    (hmove : WriteMove call db pc db' pc') {index field value : Str} (hindex : NulFree index)
    (hvalue : db'.fieldValue index field = some value) :
    db.fieldValue index field = some value ∨
      index = call.index ∧ (cStr field, value) ∈ call.values := by
  cases hmove with
  | missing | found | finish => exact Or.inl hvalue
  | publish => exact Or.inl (hdb.fieldValue_of_publish hvalue)
  | @set handle pair rest fieldTable fieldTable' _ _ hwork hfields hget hnext =>
      obtain ⟨hworks, hsub⟩ := hok.work hwork
      rw [fieldValue_setFieldTable hfields] at hvalue
      split at hvalue
      · rename_i hhandle
        rcases hget hvalue with hold | ⟨hfield, hpair⟩
        · have hrecord : db.recordTable index = some fieldTable := by
            rw [recordTable, hhandle, Option.bind_some, hfields]
          exact Or.inl ((fieldValue_of_recordTable hrecord field).trans hold)
        · have hmem := hsub List.mem_cons_self
          have hfree := call.nulFree_values pair hmem
          refine Or.inr ⟨hworks.own hindex hhandle, ?_⟩
          rwa [hfield, hpair, cStr_eq_self hfree.1, cStr_eq_self hfree.2]
      · exact Or.inl hvalue

end WriteSteps

/-! ## Steps of reads -/

/-- A step of a `Read` looks at the record as it is now. -/
theorem ReadOk.step {es : List (SharedEvent ι)} {s : SharedDB ι} {begun : ℕ} {call : ReadCall}
    {pc pc' : ReadPc} (hrun : machine.run start es = some s) (hdb : s.db.WellFormed)
    (hbegun : begun < es.length) (hok : ReadOk es s.db begun call pc)
    (hstep : call.step s.db pc = some pc') (e : SharedEvent ι) :
    ReadOk (es ++ [e]) s.db begun call pc' := by
  have hat := (Machine.at_length hrun).append [e]
  have hlen : es.length < (es ++ [e]).length := by
    rw [List.length_append]
    exact Nat.lt_succ_self _
  cases pc with
  | get =>
      rw [ReadCall.step] at hstep
      cases hget : s.db.keyTable.get call.index with
      | none =>
          rw [hget] at hstep
          cases hstep
          exact .noRecord hbegun hat (recordTable_of_none hget)
      | some handle =>
          obtain ⟨fieldTable, -, hrecord⟩ := exists_recordTable hdb hget
          rw [hget] at hstep
          cases hfields : call.fields with
          | none =>
              rw [hfields] at hstep
              cases hstep
              exact ⟨hget, hfields⟩
          | some fields =>
              rw [hfields] at hstep
              cases hstep
              exact ⟨hget, es.length, s, [], hbegun, hlen, hat, by rw [hrecord]; rfl, .nil, hfields, rfl⟩
  | entries handle =>
      obtain ⟨hget, hfields⟩ := hok
      obtain ⟨fieldTable, hfieldTable, rfl⟩ := Option.map_eq_some_iff.mp hstep
      refine .allFields hfields hbegun hat ?_
      rw [recordTable, hget, Option.bind_some, hfieldTable]
  | getField handle rest result =>
      obtain ⟨hget, time, s₁, looks, htime, hlt, hat₁, hrecord, hlooks, hfields, rfl⟩ := hok
      cases rest with
      | nil =>
          cases hstep
          rw [List.append_nil] at hfields
          exact .chosenFields hfields htime (hat₁.append [e]) hrecord (hlooks.append [e])
      | cons field rest =>
          obtain ⟨fieldTable, hfieldTable, rfl⟩ := Option.map_eq_some_iff.mp hstep
          have hview : fieldOf call.index s field = fieldTable.get field := by
            refine fieldValue_of_recordTable ?_ field
            rw [recordTable, hget, Option.bind_some, hfieldTable]
          have hnext := hlooks.look hrun hlt e field
          have hparts : call.fields =
              some ((looks ++ [Machine.Look.mk es.length field (fieldOf call.index s field)]).map
                Machine.Look.part ++ rest) := by
            rw [hfields, List.map_append, List.append_assoc]
            rfl
          have hok : ReadOk (es ++ [e]) s.db begun call (.getField handle rest
              ((looks ++ [Machine.Look.mk es.length field (fieldOf call.index s field)]).filterMap
                Machine.Look.found)) :=
            ⟨hget, time, s₁, _, htime, hlt.trans hlen, hat₁.append [e], hrecord, hnext, hparts, rfl⟩
          rw [Machine.filterMap_found_concat, hview, Machine.Look.found] at hok
          cases hvalue : fieldTable.get field with
          | none => rwa [hvalue, Option.map_none, Option.toList_none, List.append_nil] at hok
          | some value => rwa [hvalue, Option.map_some, Option.toList_some] at hok
  | done status result => cases hstep

/-! ## Runs -/

section Runs

variable {es : List (SharedEvent ι)} {s s' : SharedDB ι}

/-- A client has moved. -/
theorem Accounted.move (hs : Accounted es s) {e : SharedEvent ι} {client : ι} {thread : Thread}
    (hnow : s'.now = s.now + 1) (hthread : s'.thread = Function.update s.thread client thread)
    (hgrows : Grows s.db s'.db)
    (hwritten : ∀ {index field value : Str}, NulFree index →
      s'.db.fieldValue index field = some value →
        s.db.fieldValue index field = some value ∨ Written es index (cStr field, value))
    (hclient : ClientOk (es ++ [e]) s'.db thread)
    (hreturned : ∀ ret ∈ s'.returned, ret ∈ s.returned ∨ (s'.db.recordTable ret.call.index).isSome) :
    Accounted (es ++ [e]) s' where
  now := by rw [hnow, hs.now, List.length_append, List.length_singleton]
  wellFormed := hgrows.wellFormed
  written hindex hvalue := by
    rcases hwritten hindex hvalue with hold | hnew
    · exact (hs.written hindex hold).mono (List.subset_append_left _ _)
    · exact hnew.mono (List.subset_append_left _ _)
  client c := by
    rw [hthread]
    by_cases hc : c = client
    · rw [hc, Function.update_self]
      exact hclient
    · rw [Function.update_of_ne hc]
      exact (hs.client c).mono hgrows e
  returned ret hmem := by
    rcases hreturned ret hmem with hold | hnew
    · exact hgrows.isSome_recordTable (hs.returned ret hold)
    · exact hnew

/-- A client has moved and left the database as it was. -/
theorem Accounted.tick (hs : Accounted es s) (e : SharedEvent ι) {client : ι} {thread : Thread}
    (hclient : ClientOk (es ++ [e]) s.db thread) : Accounted (es ++ [e]) (s.tick client thread) :=
  hs.move rfl rfl hs.wellFormed.grows_refl (fun _ hvalue => Or.inl hvalue) hclient
    fun _ hmem => Or.inl hmem

/-- Every event keeps the account. -/
theorem Accounted.step (hrun : machine.run start es = some s) (hs : Accounted es s)
    {e : SharedEvent ι} (hstep : machine.step s e = some s') : Accounted (es ++ [e]) s' := by
  have hlen : s.now < (es ++ [e]).length := by
    rw [hs.now, List.length_append]
    exact Nat.lt_succ_self _
  cases moved_of_step hstep with
  | beginWrite call hthread =>
      refine hs.tick _ ⟨⟨_, List.mem_append_right _ List.mem_cons_self⟩, ?_, ?_⟩
      · intro handle rest hwork
        cases hwork
      · intro status hdone
        cases hdone
  | beginRead call hthread => exact hs.tick _ ⟨hlen, trivial⟩
  | @write client begun call pc step hthread hcallStep =>
      have hclient := hs.client client
      rw [hthread] at hclient
      obtain ⟨⟨caller, hcall⟩, hwrite⟩ := hclient
      have hmove := WriteCall.move_of_step hcallStep
      refine hs.move rfl rfl (hmove.grows hs.wellFormed) (fun hindex hvalue => ?_)
        ⟨⟨caller, List.mem_append_left _ hcall⟩, hwrite.step hs.wellFormed hmove⟩
        fun _ hmem => Or.inl hmem
      refine (hwrite.fieldValue hs.wellFormed hmove hindex hvalue).imp_right ?_
      rintro ⟨rfl, hmem⟩
      exact ⟨caller, call, hcall, rfl, hmem⟩
  | @returnWrite client begun call status hthread =>
      have hclient := hs.client client
      rw [hthread] at hclient
      refine hs.move rfl rfl hs.wellFormed.grows_refl (fun _ hvalue => Or.inl hvalue) trivial
        fun ret hmem => (List.mem_append.mp hmem).imp_right fun hnew => ?_
      rw [List.mem_singleton.mp hnew]
      exact hclient.2.done rfl
  | @read client begun call pc pc' hthread hcallStep =>
      have hclient := hs.client client
      rw [hthread] at hclient
      obtain ⟨hbegun, hread⟩ := hclient
      refine hs.tick _ ⟨?_, hread.step hrun hs.wellFormed hbegun hcallStep _⟩
      rw [← hs.now] at hbegun
      exact hbegun.trans hlen
  | returnRead =>
      exact hs.move rfl rfl hs.wellFormed.grows_refl (fun _ hvalue => Or.inl hvalue) trivial
        fun _ hmem => Or.inl hmem

theorem accounted_of_run (hrun : machine.run start es = some s) : Accounted es s :=
  Machine.run_history (fun _ _ _ _ hrun hs hstep => hs.step hrun hstep) accounted_start hrun

/-- When a `Read` returns, it returns what it has seen: no record, or all fields of the record
at one moment after it began, or the fields asked for, each at a moment of its own. -/
theorem read_moments {client : ι} {begun : ℕ} {call : ReadCall} {status : ℤ}
    {result : List KVPair} (hrun : machine.run start es = some s)
    (hthread : s.thread client = .reading begun call (.done status result)) :
    SeenBy es begun call status result := by
  have hclient := (accounted_of_run hrun).client client
  rw [hthread] at hclient
  exact hclient.2

/-- What is in a record at a moment has been written there by then. -/
theorem written_of_at {time : ℕ} {index field value : Str} (hat : machine.At start es time s)
    (hindex : NulFree index) (hvalue : s.db.fieldValue index field = some value) :
    Written es index (cStr field, value) :=
  ((accounted_of_run hat.2).written hindex hvalue).mono (List.take_subset _ _)

/-- A `Read` returns pairs of the fields asked for that calls of `Insert` or `Update` on its
record have brought, and it finds the record if such a call had returned when it began. -/
theorem read_written {before : List (SharedEvent ι)} {client : ι} {begun : ℕ} {call : ReadCall}
    {status : ℤ} {result : List KVPair} (hbefore : machine.run start before = some s)
    (hrun : machine.run start (before ++ es) = some s') (hbegun : before.length ≤ begun)
    (hthread : s'.thread client = .reading begun call (.done status result)) :
    (∀ pair ∈ result, call.Asks pair.1 ∧
      Written (before ++ es) call.index (cStr pair.1, pair.2)) ∧
      ((∃ ret ∈ s.returned, ret.call.index = call.index) → status = kOK) := by
  cases read_moments hrun hthread with
  | @noRecord time s₁ htime hat hrecord =>
      refine ⟨fun pair hmem => absurd hmem List.not_mem_nil, ?_⟩
      rintro ⟨ret, hret, hindex⟩
      have hs := accounted_of_run hbefore
      have hstays := isSome_recordTable_of_reaches hs.wellFormed (hs.returned ret hret)
        (hat.reaches hbefore (hbegun.trans htime.le))
      rw [hindex, hrecord] at hstays
      cases hstays
  | allFields hfields htime hat hrecord =>
      refine ⟨fun pair hmem => ⟨fun fields hasked => ?_, ?_⟩, fun _ => rfl⟩
      · rw [hfields] at hasked
        cases hasked
      · refine written_of_at hat call.nulFree_index ?_
        rw [fieldValue_of_recordTable hrecord]
        exact StlHashtable.get_of_mem_entries hmem
  | chosenFields hfields htime hat hrecord hlooks =>
      refine ⟨fun pair hmem => ?_, fun _ => rfl⟩
      obtain ⟨hpart, time', s₁, hat₁, hvalue⟩ := hlooks.of_mem_found hmem
      refine ⟨fun fields hasked => ?_, written_of_at hat₁ call.nulFree_index hvalue⟩
      rw [hfields] at hasked
      cases hasked
      exact hpart

end Runs

/-! ## A read that overlaps an update -/

/-- An `Update` of two fields. -/
def updateBoth (pair pair' : KVPair) (hpairs : NulFreeValues [pair, pair'])
    (hne : ([pair, pair'].map Prod.fst).Nodup) : WriteCall where
  op := .update
  table := ['u']
  key := ['r']
  values := [pair, pair']
  nulFree := by decide
  nulFree_values := hpairs
  nodup_fields := hne

/-- A `Read` of them. -/
def readBoth : ReadCall where
  order := .latestFirst
  table := ['u']
  key := ['r']
  fields := some [['a'], ['b']]
  nulFree := by decide

/-- A client makes the record. -/
def made : List (SharedEvent Bool) :=
  .write false (updateBoth (['a'], ['1']) (['b'], ['2']) (by decide) (by decide)) ::
    List.replicate 6 (.step false)

/-- It updates the record between the steps of a `Read` by another client. -/
def overlapped : List (SharedEvent Bool) :=
  [.write false (updateBoth (['a'], ['3']) (['b'], ['4']) (by decide) (by decide)), .read true readBoth,
    .step true, .step true, .step false, .step false, .step false, .step true, .step true]

/-- The `Read` sees the old value of one field and the new value of the other. -/
theorem exists_overlapped : ∃ s s', machine.run start made = some s ∧
    machine.run start (made ++ overlapped) = some s' ∧
    s'.thread true = .reading 8 readBoth (.done kOK [(['a'], ['1']), (['b'], ['4'])]) :=
  ⟨_, _, rfl, rfl, rfl⟩

/-- What it sees. -/
theorem read_moments_overlapped : ∃ s, machine.run start (made ++ overlapped) = some s ∧
    SeenBy (made ++ overlapped) 8 readBoth kOK [(['a'], ['1']), (['b'], ['4'])] := by
  obtain ⟨-, s, -, hrun, hthread⟩ := exists_overlapped
  exact ⟨s, hrun, read_moments hrun hthread⟩

/-- Where it comes from. -/
theorem read_written_overlapped : ∃ s, machine.run start made = some s ∧
    (∀ pair ∈ [(['a'], ['1']), (['b'], ['4'])], readBoth.Asks pair.1 ∧
      Written (made ++ overlapped) readBoth.index (cStr pair.1, pair.2)) ∧
      ((∃ ret ∈ s.returned, ret.call.index = readBoth.index) → kOK = kOK) := by
  obtain ⟨s, s', hbefore, hrun, hthread⟩ := exists_overlapped
  exact ⟨s, hbefore, read_written hbefore hrun (by decide) hthread⟩

end SharedDB

end YcsbC
