import YcsbC.Db.OrderlyWrites

/-!
# Concurrent calls on records of their own

When no two calls of `Insert` and `Update` are on the same index, as in a load, it does not
matter how their steps interleave: every call returns `kOK`, and afterwards the database has
a record for each call, with the pairs of the call and no others (`loaded_of_run`).
-/

namespace YcsbC

open HashtableDB

/-- The record of an index has these pairs and no others. -/
structure HashtableDB.HasPairs (db : HashtableDB) (index : Str) (pairs : List KVPair) : Prop where
  record : (db.recordTable index).isSome
  fieldValue : ∀ {field value : Str}, NulFree field →
    (db.fieldValue index field = some value ↔ (field, value) ∈ pairs)

/-- How far a call on a record of its own has come.  It finds no record, so `Update` only runs
its loop on a new field table. -/
def WriteCall.LoadOk (call : WriteCall) (db : HashtableDB) : WritePc → Prop
  | .get | .publish => db.keyTable.get call.index = none
  | .insertField handle rest | .updateNewField handle rest =>
      db.keyTable.get call.index = some handle ∧
        ∃ done, call.values = done ++ rest ∧ db.HasPairs call.index done
  | .updateField .. | .insertMissing .. => False
  | .done status => status = kOK ∧ db.HasPairs call.index call.values

section Steps

variable {call : WriteCall} {db db' : HashtableDB} {pc : WritePc} {moved : WriteStep}

/-- Nothing about an index has changed. -/
structure SameRecord (index : Str) (db db' : HashtableDB) : Prop where
  get : db'.keyTable.get index = db.keyTable.get index
  record : (db.recordTable index).isSome → (db'.recordTable index).isSome
  fieldValue : ∀ {field : Str}, NulFree field → db'.fieldValue index field = db.fieldValue index field

theorem HashtableDB.HasPairs.congr {index : Str} {pairs : List KVPair}
    (hpairs : db.HasPairs index pairs) (hsame : SameRecord index db db') : db'.HasPairs index pairs :=
  ⟨hsame.record hpairs.record, fun hfield => by rw [hsame.fieldValue hfield, hpairs.fieldValue hfield]⟩

theorem WriteCall.LoadOk.congr (hok : call.LoadOk db pc) (hsame : SameRecord call.index db db') :
    call.LoadOk db' pc := by
  cases pc with
  | get | publish => exact hsame.get.trans hok
  | insertField handle rest | updateNewField handle rest =>
      obtain ⟨hget, done, hvalues, hpairs⟩ := hok
      exact ⟨hsame.get.trans hget, done, hvalues, hpairs.congr hsame⟩
  | updateField | insertMissing => exact hok.elim
  | done status => exact ⟨hok.1, hok.2.congr hsame⟩

/-- A step of a call changes nothing about other indexes. -/
theorem WriteMove.sameRecord {pc' : WritePc} {wrote : Option KVPair} (hdb : db.WellFormed)
    (hmove : WriteMove call db pc db' pc') (heffect : WriteEffect db call.index wrote db')
    {index : Str} (hindex : NulFree index) (hne : index ≠ call.index) :
    SameRecord index db db' := by
  refine ⟨?_, (hmove.grows hdb).isSome_recordTable, fun hfield => ?_⟩
  · cases hget : db.keyTable.get index with
    | none => exact hmove.get_eq_none hindex hne hget
    | some handle => exact heffect.published hget
  · rw [heffect.fieldValue hindex hfield]
    cases wrote with
    | none => rfl
    | some pair => exact if_neg fun heq => hne (congrArg Prod.fst heq).symm

/-- The loop sets the next pair. -/
theorem loadOk_insertStep (hdb : db.WellFormed) {handle : Handle} {pair : KVPair}
    {rest done : List KVPair} {next other : WritePc}
    (hget : db.keyTable.get call.index = some handle) (hvalues : call.values = done ++ pair :: rest)
    (hpairs : db.HasPairs call.index done) (hstep : insertStep db handle pair next other = some moved) :
    WriteEffect db call.index moved.wrote moved.db ∧ moved.pc = next ∧
      moved.db.HasPairs call.index (done ++ [pair]) := by
  have hmem : pair ∈ call.values := by
    rw [hvalues]
    exact List.mem_append_right _ List.mem_cons_self
  have hfree := call.nulFree_values pair hmem
  have hnew : pair.1 ∉ done.map Prod.fst := by
    have hnodup := call.nodup_fields
    rw [hvalues, List.map_append, List.map_cons] at hnodup
    exact fun hdone => (List.nodup_append.mp hnodup).2.2 _ hdone _ List.mem_cons_self rfl
  obtain ⟨heffect, hcases⟩ := insertStep_spec hdb call.nulFree_index hget hfree hstep
  have hnone : db.fieldValue call.index pair.1 = none := by
    cases hvalue : db.fieldValue call.index pair.1 with
    | none => rfl
    | some value =>
        exact absurd (List.mem_map_of_mem ((hpairs.fieldValue hfree.1).mp hvalue)) hnew
  obtain ⟨-, hwrote, hpc⟩ := hcases.resolve_right fun hother => hother.1 hnone
  rw [hwrote] at heffect
  have hget' := heffect.published hget
  obtain ⟨fieldTable, -, hrecord⟩ := exists_recordTable heffect.wellFormed hget'
  refine ⟨hwrote ▸ heffect, hpc, by rw [hrecord]; rfl, fun {field value} hfield => ?_⟩
  rw [heffect.fieldValue call.nulFree_index hfield, List.mem_append, List.mem_singleton]
  dsimp only
  split
  · rename_i heq
    obtain rfl : pair.1 = field := congrArg Prod.snd heq
    constructor
    · intro hvalue
      cases hvalue
      exact Or.inr rfl
    · rintro (hdone | hpair)
      · exact absurd (List.mem_map_of_mem hdone) hnew
      · rw [← hpair]
  · rename_i hne
    rw [hpairs.fieldValue hfield]
    refine ⟨Or.inl, fun hor => hor.resolve_right fun hpair => hne ?_⟩
    rw [← hpair]

/-- A step of a call on a record of its own. -/
theorem WriteCall.LoadOk.step (hok : call.LoadOk db pc) (hdb : db.WellFormed)
    (hstep : call.step db pc = some moved) :
    WriteEffect db call.index moved.wrote moved.db ∧ call.LoadOk moved.db moved.pc := by
  cases pc with
  | get =>
      rw [WriteCall.step, show db.keyTable.get call.index = none from hok] at hstep
      cases hstep
      exact ⟨hdb.writeEffect_refl _, hok⟩
  | publish =>
      have heffect := hdb.writeEffect_publish call.nulFree_index hok
      obtain ⟨hsets, hself⟩ := sets_publish hdb hok
      have hpairs : (db.publish call.index).HasPairs call.index [] := by
        refine ⟨by rw [hsets.self]; rfl, fun hfield => ?_⟩
        rw [heffect.fieldValue call.nulFree_index hfield, fieldValue, recordTable_of_none hok]
        refine ⟨fun hvalue => ?_, fun hmem => absurd hmem List.not_mem_nil⟩
        cases hvalue
      rw [WriteCall.step] at hstep
      cases hop : call.op with
      | insert | update =>
          simp only [hop] at hstep
          cases hstep
          exact ⟨heffect, hself, [], rfl, hpairs⟩
  | insertField handle rest | updateNewField handle rest =>
      obtain ⟨hget, done, hvalues, hpairs⟩ := hok
      cases rest with
      | nil =>
          cases hstep
          rw [List.append_nil] at hvalues
          exact ⟨hdb.writeEffect_refl _, rfl, hvalues ▸ hpairs⟩
      | cons pair rest =>
          obtain ⟨heffect, hpc, hpairs'⟩ := loadOk_insertStep hdb hget hvalues hpairs hstep
          rw [hpc]
          refine ⟨heffect, heffect.published hget, done ++ [pair], ?_, hpairs'⟩
          rw [hvalues, List.append_assoc, List.singleton_append]
  | updateField | insertMissing => exact hok.elim
  | done status => cases hstep

end Steps

namespace SharedDB

variable {ι : Type*}

/-- The calls of `Insert` and `Update` that begin. -/
def writeCalls (es : List (SharedEvent ι)) : List WriteCall :=
  es.filterMap fun e => match e with
    | .write _ call => some call
    | .read .. | .step _ => none

/-- No two calls are on one index. -/
def OwnRecords (es : List (SharedEvent ι)) : Prop :=
  (writeCalls es).Pairwise fun call call' => call.index ≠ call'.index

/-- Every call that has begun is on its way or has returned, and its record is its own. -/
structure Loaded (es : List (SharedEvent ι)) (s : SharedDB ι) : Prop where
  wellFormed : s.db.WellFormed
  untouched : ∀ {index : Str}, NulFree index → (∀ call ∈ writeCalls es, call.index ≠ index) →
    s.db.keyTable.get index = none
  writing : ∀ {client : ι} {begun : ℕ} {call : WriteCall} {pc : WritePc},
    s.thread client = .writing begun call pc → call ∈ writeCalls es ∧ call.LoadOk s.db pc
  returned : ∀ ret ∈ s.returned, ret.call ∈ writeCalls es ∧ ret.status = kOK ∧
    s.db.HasPairs ret.call.index ret.call.values
  all : ∀ call ∈ writeCalls es, (∃ client, call ∈ (s.thread client).writeCall) ∨
    ∃ ret ∈ s.returned, ret.call = call
  one : ∀ {client client' : ι} {call call' : WriteCall}, call ∈ (s.thread client).writeCall →
    call' ∈ (s.thread client').writeCall → call'.index = call.index → client' = client
  once : ∀ {client : ι} {call : WriteCall}, call ∈ (s.thread client).writeCall →
    ∀ ret ∈ s.returned, ret.call.index ≠ call.index

theorem loaded_start : Loaded [] (start : SharedDB ι) where
  wellFormed := wellFormed_empty
  untouched _ _ := StlHashtable.get_empty _
  writing hthread := by cases hthread
  returned _ hmem := absurd hmem List.not_mem_nil
  all _ hmem := absurd hmem List.not_mem_nil
  one hcall := by cases hcall
  once hcall := by cases hcall

theorem writeCalls_concat (es : List (SharedEvent ι)) (e : SharedEvent ι) :
    writeCalls (es ++ [e]) = writeCalls es ++ writeCalls [e] := List.filterMap_append

section Steps

variable {es es' : List (SharedEvent ι)} {s s' : SharedDB ι}

theorem Loaded.writeCall (hs : Loaded es s) {client : ι} {call : WriteCall}
    (hcall : call ∈ (s.thread client).writeCall) : call ∈ writeCalls es := by
  obtain ⟨begun, pc, hthread⟩ := Thread.mem_writeCall.mp hcall
  exact (hs.writing hthread).1

/-- When all clients are done, every call has left its pairs. -/
theorem Loaded.hasPairs (hs : Loaded es s) (hdone : ∀ client, s.thread client = .idle)
    {call : WriteCall} (hcall : call ∈ writeCalls es) : s.db.HasPairs call.index call.values := by
  rcases hs.all call hcall with ⟨client, hwriting⟩ | ⟨ret, hret, rfl⟩
  · rw [hdone] at hwriting
    cases hwriting
  · exact (hs.returned ret hret).2.2

/-- A client has moved that was in no call of `Insert` or `Update`, and is in none. -/
theorem Loaded.of_same (hs : Loaded es s) (hcalls : writeCalls es' = writeCalls es)
    (hdb : s'.db = s.db) (hreturned : s'.returned = s.returned)
    (hthread : ∀ c begun call pc, s'.thread c = .writing begun call pc ↔
      s.thread c = .writing begun call pc) : Loaded es' s' := by
  have hwriteCall : ∀ {c : ι} {call : WriteCall}, call ∈ (s'.thread c).writeCall ↔
      call ∈ (s.thread c).writeCall := by
    intro c call
    simp only [Thread.mem_writeCall, hthread]
  refine ⟨hdb ▸ hs.wellFormed, fun hindex hnone => ?_, fun hwriting => ?_, fun ret hret => ?_,
    fun call hcall => ?_, fun hcall hcall' => ?_, fun hcall ret hret => ?_⟩
  · rw [hcalls] at hnone
    rw [hdb]
    exact hs.untouched hindex hnone
  · rw [hcalls, hdb]
    exact hs.writing ((hthread _ _ _ _).mp hwriting)
  · rw [hreturned] at hret
    rw [hcalls, hdb]
    exact hs.returned ret hret
  · rw [hcalls] at hcall
    rw [hreturned]
    exact (hs.all call hcall).imp_left fun ⟨client, hmem⟩ => ⟨client, hwriteCall.mpr hmem⟩
  · exact hs.one (hwriteCall.mp hcall) (hwriteCall.mp hcall')
  · rw [hreturned] at hret
    exact hs.once (hwriteCall.mp hcall) ret hret

variable [DecidableEq ι] {client : ι}

/-- A call on a record of its own has begun. -/
theorem Loaded.beginWrite (hs : Loaded es s) {call : WriteCall} (hidle : s.thread client = .idle)
    (hown : ∀ call' ∈ writeCalls es, call'.index ≠ call.index) :
    Loaded (es ++ [.write client call]) (s.tick client (.writing s.now call .get)) := by
  have hcalls : writeCalls (es ++ [.write client call]) = writeCalls es ++ [call] :=
    writeCalls_concat _ _
  refine ⟨hs.wellFormed, fun hindex hnone => ?_, fun {c begun call' pc} hwriting => ?_,
    fun ret hret => ?_, fun call' hcall => ?_, fun {c c' call₁ call₂} hcall hcall' heq => ?_,
    fun {c call'} hcall ret hret => ?_⟩
  · refine hs.untouched hindex fun call' hcall => hnone call' ?_
    rw [hcalls]
    exact List.mem_append_left _ hcall
  · rw [hcalls]
    by_cases hc : c = client
    · rw [hc, thread_tick_self] at hwriting
      cases hwriting
      exact ⟨List.mem_append_right _ List.mem_cons_self, hs.untouched call.nulFree_index hown⟩
    · rw [thread_tick_of_ne hc] at hwriting
      exact (hs.writing hwriting).imp_left (List.mem_append_left _)
  · rw [hcalls]
    exact (hs.returned ret hret).imp_left (List.mem_append_left _)
  · rw [hcalls, List.mem_append, List.mem_singleton] at hcall
    rcases hcall with hold | rfl
    · refine (hs.all call' hold).imp_left fun ⟨c, hmem⟩ => ⟨c, ?_⟩
      have hc : c ≠ client := by
        rintro rfl
        rw [hidle] at hmem
        cases hmem
      rwa [thread_tick_of_ne hc]
    · refine Or.inl ⟨client, ?_⟩
      rw [thread_tick_self]
      rfl
  · rcases mem_writeCall_tick hcall with ⟨rfl, rfl⟩ | hold
    · rcases mem_writeCall_tick hcall' with ⟨rfl, -⟩ | hold'
      · rfl
      · exact absurd heq (hown _ (hs.writeCall hold'))
    · rcases mem_writeCall_tick hcall' with ⟨rfl, rfl⟩ | hold'
      · exact absurd heq.symm (hown _ (hs.writeCall hold))
      · exact hs.one hold hold' heq
  · rcases mem_writeCall_tick hcall with ⟨-, rfl⟩ | hold
    · exact hown _ (hs.returned ret hret).1
    · exact hs.once hold ret hret

/-- A call has made a step. -/
theorem Loaded.afterWriteStep (hs : Loaded es s) {begun : ℕ} {call : WriteCall} {pc : WritePc}
    {step : WriteStep} (hthread : s.thread client = .writing begun call pc)
    (hstep : call.step s.db pc = some step) :
    Loaded (es ++ [.step client]) (s.afterWriteStep client begun call step) := by
  have hcalls : writeCalls (es ++ [.step client]) = writeCalls es := by
    rw [writeCalls_concat]
    exact List.append_nil _
  have hmem : call ∈ (s.thread client).writeCall := Thread.mem_writeCall.mpr ⟨begun, pc, hthread⟩
  have hmove := WriteCall.move_of_step hstep
  obtain ⟨heffect, hnext⟩ := (hs.writing hthread).2.step hs.wellFormed hstep
  have hsame : ∀ {index : Str}, NulFree index → index ≠ call.index →
      SameRecord index s.db step.db := fun hindex hne =>
    hmove.sameRecord hs.wellFormed heffect hindex hne
  refine ⟨heffect.wellFormed, fun hindex hnone => ?_, fun {c begun' call' pc'} hwriting => ?_,
    fun ret hret => ?_, fun call' hcall => ?_, fun hcall hcall' => ?_, fun hcall ret hret => ?_⟩
  · rw [hcalls] at hnone
    refine hmove.get_eq_none hindex ?_ (hs.untouched hindex hnone)
    exact (hnone call (hs.writeCall hmem)).symm
  · rw [hcalls]
    by_cases hc : c = client
    · rw [hc, thread_afterWriteStep_self] at hwriting
      cases hwriting
      exact ⟨hs.writeCall hmem, hnext⟩
    · rw [thread_afterWriteStep_of_ne hc] at hwriting
      refine (hs.writing hwriting).imp_right fun hok => hok.congr (hsame call'.nulFree_index ?_)
      exact fun heq => hc (hs.one hmem (Thread.mem_writeCall.mpr ⟨_, _, hwriting⟩) heq)
  · rw [hcalls]
    obtain ⟨hcall, hstatus, hpairs⟩ := hs.returned ret hret
    exact ⟨hcall, hstatus, hpairs.congr (hsame ret.call.nulFree_index (hs.once hmem ret hret))⟩
  · rw [hcalls] at hcall
    refine (hs.all call' hcall).imp_left fun ⟨c, hc⟩ => ⟨c, ?_⟩
    rwa [writeCall_afterWriteStep hthread]
  · rw [writeCall_afterWriteStep hthread] at hcall hcall'
    exact hs.one hcall hcall'
  · rw [writeCall_afterWriteStep hthread] at hcall
    exact hs.once hcall ret hret

/-- A call has returned. -/
theorem Loaded.returnWrite (hs : Loaded es s) {begun : ℕ} {call : WriteCall} {status : ℤ}
    (hthread : s.thread client = .writing begun call (.done status)) :
    Loaded (es ++ [.step client])
      { s.tick client .idle with returned := s.returned ++ [⟨begun, call, s.now, status⟩] } := by
  have hcalls : writeCalls (es ++ [.step client]) = writeCalls es := by
    rw [writeCalls_concat]
    exact List.append_nil _
  have hmem : call ∈ (s.thread client).writeCall :=
    Thread.mem_writeCall.mpr ⟨begun, .done status, hthread⟩
  obtain ⟨hcall, hstatus, hpairs⟩ := hs.writing hthread
  have hwriting : ∀ {c : ι} {begun' : ℕ} {call' : WriteCall} {pc' : WritePc},
      (s.tick client .idle).thread c = .writing begun' call' pc' →
        c ≠ client ∧ s.thread c = .writing begun' call' pc' := by
    intro c begun' call' pc' hc
    by_cases heq : c = client
    · rw [heq, thread_tick_self] at hc
      cases hc
    · rw [thread_tick_of_ne heq] at hc
      exact ⟨heq, hc⟩
  have hold : ∀ {c : ι} {call' : WriteCall},
      call' ∈ ((s.tick client .idle).thread c).writeCall →
        c ≠ client ∧ call' ∈ (s.thread c).writeCall := by
    intro c call' hc
    obtain ⟨begun', pc', hthread'⟩ := Thread.mem_writeCall.mp hc
    obtain ⟨hne, hthread'⟩ := hwriting hthread'
    exact ⟨hne, Thread.mem_writeCall.mpr ⟨begun', pc', hthread'⟩⟩
  refine ⟨hs.wellFormed, fun hindex hnone => ?_, fun hc => ?_, fun ret hret => ?_,
    fun call' hcall' => ?_, fun hc hc' => hs.one (hold hc).2 (hold hc').2, fun hc ret hret => ?_⟩
  · rw [hcalls] at hnone
    exact hs.untouched hindex hnone
  · rw [hcalls]
    exact hs.writing (hwriting hc).2
  · rw [hcalls]
    rcases List.mem_append.mp hret with hret | hret
    · exact hs.returned ret hret
    · rw [List.mem_singleton.mp hret]
      exact ⟨hcall, hstatus, hpairs⟩
  · rw [hcalls] at hcall'
    rcases hs.all call' hcall' with ⟨c, hc⟩ | ⟨ret, hret, hcall'⟩
    · by_cases heq : c = client
      · rw [heq, hthread] at hc
        cases hc
        exact Or.inr ⟨_, List.mem_append_right _ List.mem_cons_self, rfl⟩
      · refine Or.inl ⟨c, ?_⟩
        rwa [show ({ s.tick client .idle with
          returned := s.returned ++ [⟨begun, call, s.now, status⟩] } : SharedDB ι).thread c =
            s.thread c from thread_tick_of_ne heq]
    · exact Or.inr ⟨ret, List.mem_append_left _ hret, hcall'⟩
  · obtain ⟨hne, hc⟩ := hold hc
    rcases List.mem_append.mp hret with hret | hret
    · exact hs.once hc ret hret
    · rw [List.mem_singleton.mp hret]
      exact fun heq => hne (hs.one hmem hc heq.symm)

/-- Every event keeps the invariant if its call, if any, is on a record of its own. -/
theorem Loaded.step (hs : Loaded es s) {e : SharedEvent ι} (hown : OwnRecords (es ++ [e]))
    (hstep : machine.step s e = some s') : Loaded (es ++ [e]) s' := by
  have hcalls : ∀ {e : SharedEvent ι}, writeCalls [e] = [] →
      writeCalls (es ++ [e]) = writeCalls es := by
    intro e he
    rw [writeCalls_concat, he, List.append_nil]
  have hthread : ∀ {client : ι} {thread : Thread}, (s.thread client).writeCall = none →
      thread.writeCall = none → ∀ c begun call pc,
        (s.tick client thread).thread c = .writing begun call pc ↔
          s.thread c = .writing begun call pc := by
    intro client thread hold hnew c begun call pc
    by_cases hc : c = client
    · rw [hc, thread_tick_self]
      constructor
      · rintro rfl
        cases hnew
      · intro hwriting
        rw [hwriting] at hold
        cases hold
    · rw [thread_tick_of_ne hc]
  cases moved_of_step hstep with
  | beginWrite call hidle =>
      rw [OwnRecords, writeCalls_concat] at hown
      refine hs.beginWrite hidle fun call' hcall => ?_
      exact (List.pairwise_append.mp hown).2.2 call' hcall call List.mem_cons_self
  | beginRead call hidle =>
      exact hs.of_same (hcalls rfl) rfl rfl (hthread (by rw [hidle]; rfl) rfl)
  | write hwriting hcall => exact hs.afterWriteStep hwriting hcall
  | returnWrite hwriting => exact hs.returnWrite hwriting
  | read hreading => exact hs.of_same (hcalls rfl) rfl rfl (hthread (by rw [hreading]; rfl) rfl)
  | returnRead hreading =>
      exact hs.of_same (hcalls rfl) rfl rfl (hthread (by rw [hreading]; rfl) rfl)

theorem loaded_of_run (hrun : machine.run start es = some s) (hown : OwnRecords es) :
    Loaded es s := by
  refine machine.run_trace (I := fun es s => OwnRecords es → Loaded es s) ?_
    (fun _ => loaded_start) hrun hown
  intro es s e s' hs hstep hown
  refine (hs ?_).step hown hstep
  rw [OwnRecords, writeCalls_concat] at hown
  exact (List.pairwise_append.mp hown).1

end Steps

end SharedDB

end YcsbC
