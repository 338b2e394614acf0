import YcsbC.Db.SharedProgress

/-!
# Acknowledged writes under concurrent clients

A call of `Insert` or `Update` that finds no record makes a field table and publishes
it, and does not look whether `key_table_->Insert` has succeeded.  When another client
has published one in between, the pairs of the call go to a table that no `Read` finds,
and it returns `kOK` all the same (`not_noLostWrites_atOnce`).  That is the only way to
lose a write (`noLostWrites_of_publishesNew`).
-/

namespace YcsbC

open HashtableDB

namespace SharedDB

variable {ι : Type*}

/-! ## What reads find -/

/-- A call of `Insert` or `Update` had returned when another one began. -/
def ReturnedBefore (s : SharedDB ι) (caller start : ℕ) : Prop :=
  ∃ ret ∈ s.returned, ret.start = caller ∧ ret.time < start

/-- A result has the field of a pair, with the value of the pair or one that was written
by another call, which overlapped the one that has returned or followed it. -/
def Finds (s : SharedDB ι) (ret : WriteReturn) (pair : KVPair) (result : List KVPair) : Prop :=
  ∃ value, (pair.1, value) ∈ result ∧ (value = pair.2 ∨
    ∃ stamp, ((ret.call.index, pair.1), stamp) ∈ s.writes ∧ stamp.value = value ∧
      stamp.caller ≠ ret.start ∧ ¬ s.ReturnedBefore stamp.caller ret.start)

/-- Every `Read` that began after a call had returned `kOK` has found the pairs of the
call that it asked for. -/
def NoLostWrites (s : SharedDB ι) : Prop :=
  ∀ ret ∈ s.returned, ret.status = kOK → ∀ read ∈ s.reads, ret.time < read.start →
    read.call.index = ret.call.index →
      read.status = kOK ∧
        ∀ pair ∈ ret.call.values, read.call.Asks pair.1 → s.Finds ret pair read.result

/-- A field table is only published for an index that has none. -/
def PublishesNew (s : SharedDB ι) : SharedEvent ι → Prop
  | .step client =>
      ∀ call ∈ (s.thread client).publishing, s.db.keyTable.get call.index = none
  | .write .. | .read .. => True

instance (s : SharedDB ι) : ∀ e, Decidable (s.PublishesNew e)
  | .step _ => inferInstanceAs (Decidable (∀ call ∈ _, _))
  | .write .. | .read .. => isTrue trivial

/-! ## Runs -/

section Writing

variable {s : SharedDB ι} (hs : s.Consistent) {client : ι} {start : ℕ} {call : WriteCall}
  {pc : WritePc} (hthread : s.thread client = .writing start call pc)

include hs hthread

theorem Consistent.writing : start < s.now ∧ (∀ ret ∈ s.returned, ret.start ≠ start) ∧
    s.WrittenBy start call ∧ s.WriteProgress start call pc := by
  have hok := hs.thread client
  rwa [hthread] at hok

/-- Other clients are in other calls. -/
theorem Consistent.ne_of_writing (c : ι) (hc : c ≠ client) (start' : ℕ) (call' : WriteCall)
    (pc' : WritePc) (hthread' : s.thread c = .writing start' call' pc') : start' ≠ start := by
  rintro rfl
  exact hc (hs.unique hthread' hthread)

end Writing

section Runs

variable [DecidableEq ι] {s s' : SharedDB ι}

/-- A client has moved, and the database still holds the last write to each field. -/
structure Moves (s : SharedDB ι) (client : ι) (actor : ℕ) (thread : Thread) (s' : SharedDB ι) :
    Prop where
  ext : s.Extends actor s'
  thread_eq : s'.thread = Function.update s.thread client thread
  wellFormed : s'.db.WellFormed
  holds : ∀ {index field : Str}, NulFree index → NulFree field →
    s'.db.fieldValue index field = (s'.writes.last (index, field)).map Stamp.value
  le_now : actor ≤ s.now
  fresh : ∀ c ≠ client, ∀ start call pc, s.thread c = .writing start call pc → start ≠ actor
  self : ∀ start call pc, thread = .writing start call pc → start = actor
  notReturned : ∀ ret ∈ s.returned, ret.start ≠ actor

/-- The invariant is kept when what is new satisfies it. -/
theorem Consistent.of_moves (hs : s.Consistent) {client : ι} {actor : ℕ} {thread : Thread}
    (hmoves : s.Moves client actor thread s') (hthread : s'.ThreadOk thread)
    (hreturned : ∀ ret ∈ s'.returned, ret ∈ s.returned ∨ s'.ReturnOk ret)
    (hreads : ∀ read ∈ s'.reads, read ∈ s.reads ∨ read.start < s'.now ∧
      s'.ReadProgress read.start read.call (.done read.status read.result)) : s'.Consistent := by
  have hnow := hmoves.ext.now
  have hactor := hmoves.le_now
  refine ⟨hmoves.wellFormed, hmoves.holds, ?_, ?_, ?_, ?_, ?_⟩
  · intro write hmem
    rcases hmoves.ext.of_mem_writes hmem with hold | ⟨hcaller, htime⟩
    · have hlt := hs.time write hold
      omega
    · omega
  · intro c
    rw [hmoves.thread_eq]
    by_cases hc : c = client
    · rw [hc, Function.update_self]
      exact hthread
    · rw [Function.update_of_ne hc]
      exact (hs.thread c).mono hmoves.ext (hmoves.fresh c hc)
  · intro c c' start call call' pc pc' hc hc'
    rw [hmoves.thread_eq] at hc hc'
    by_cases hclient : c = client
    · by_cases hclient' : c' = client
      · rw [hclient, hclient']
      · rw [hclient, Function.update_self] at hc
        rw [Function.update_of_ne hclient'] at hc'
        exact absurd (hmoves.self _ _ _ hc) (hmoves.fresh c' hclient' _ _ _ hc')
    · rw [Function.update_of_ne hclient] at hc
      by_cases hclient' : c' = client
      · rw [hclient', Function.update_self] at hc'
        exact absurd (hmoves.self _ _ _ hc') (hmoves.fresh c hclient _ _ _ hc)
      · rw [Function.update_of_ne hclient'] at hc'
        exact hs.unique hc hc'
  · intro ret hmem
    rcases hreturned ret hmem with hold | hnew
    · exact (hs.returned ret hold).mono hmoves.ext (hmoves.notReturned ret hold)
    · exact hnew
  · intro read hmem
    rcases hreads read hmem with hold | hnew
    · obtain ⟨hstart, hprogress⟩ := hs.reads read hold
      exact ⟨by omega, hprogress.mono hmoves.ext hstart.le⟩
    · exact hnew

/-- A client that begins a call, or moves in a `Read`. -/
theorem Consistent.moves_tick (hs : s.Consistent) (client : ι) (thread : Thread)
    (hself : ∀ start call pc, thread = .writing start call pc → start = s.now) :
    s.Moves client s.now thread (s.tick client thread) where
  ext := extends_tick s client thread s.now
  thread_eq := rfl
  wellFormed := hs.wellFormed
  holds := hs.holds
  le_now := le_rfl
  fresh c _ start call pc hc := by
    have hok := hs.thread c
    rw [hc] at hok
    exact hok.1.ne
  self := hself
  notReturned ret hmem := (hs.returned ret hmem).start.ne

/-- A client that begins a call of `Insert` or `Update`. -/
theorem Consistent.beginWrite (hs : s.Consistent) (client : ι) (call : WriteCall) :
    (s.tick client (.writing s.now call .get)).Consistent := by
  refine hs.of_moves (hs.moves_tick client _ fun start call' pc heq => ?_) ?_
    (fun _ => Or.inl) fun _ => Or.inl
  · cases heq
    rfl
  · refine ⟨Nat.lt_succ_self _, fun ret hmem => (hs.returned ret hmem).start.ne, ?_, trivial⟩
    intro write hmem hcaller
    exact absurd hcaller (hs.time write hmem).2.ne

/-- A client in a `Read` that has come to a place where it may be. -/
theorem Consistent.moveRead (hs : s.Consistent) (client : ι) {start : ℕ} {call : ReadCall}
    {pc : ReadPc} (hstart : start ≤ s.now) (hprogress : s.ReadProgress start call pc) :
    (s.tick client (.reading start call pc)).Consistent := by
  refine hs.of_moves (hs.moves_tick client _ nofun) ?_ (fun _ => Or.inl) fun _ => Or.inl
  exact ⟨Nat.lt_succ_of_le hstart, hprogress.mono (extends_tick s client _ s.now) hstart⟩

/-- A client that makes a step of `Insert` or `Update`. -/
theorem Consistent.afterWriteStep (hs : s.Consistent) {client : ι} {start : ℕ} {call : WriteCall}
    {pc : WritePc} (hthread : s.thread client = .writing start call pc) {step : WriteStep}
    (hok : s.StepOk client start call step) :
    (s.afterWriteStep client start call step).Consistent := by
  obtain ⟨hstart, hnew, hwritten, -⟩ := hs.writing hthread
  have hext : s.Extends start (s.afterWriteStep client start call step) :=
    extends_afterWriteStep hok.effect
  refine hs.of_moves ⟨hext, rfl, hok.effect.wellFormed, holds_afterWriteStep hs hok.effect,
    hstart.le, hs.ne_of_writing hthread, fun _ _ _ heq => ?_, hnew⟩
    ⟨Nat.lt_succ_of_lt hstart, hnew, fun write hmem hcaller => ?_, hok.progress⟩
    (fun _ => Or.inl) fun _ => Or.inl
  · cases heq
    rfl
  · rcases List.mem_append.mp hmem with hold | hwrote
    · exact hwritten write hold hcaller
    · obtain ⟨pair, hpair, rfl⟩ := List.mem_map.mp hwrote
      exact hok.wrote pair (Option.mem_toList.mp hpair)

/-- A client that returns from `Insert` or `Update`. -/
theorem Consistent.returnWrite (hs : s.Consistent) {client : ι} {start : ℕ} {call : WriteCall}
    {status : ℤ} (hthread : s.thread client = .writing start call (.done status)) :
    ({ s.tick client .idle with returned := s.returned ++ [⟨start, call, s.now, status⟩] } :
      SharedDB ι).Consistent := by
  obtain ⟨hstart, hnew, hwritten, hprogress⟩ := hs.writing hthread
  have hext : s.Extends start
      { s.tick client .idle with returned := s.returned ++ [⟨start, call, s.now, status⟩] } := by
    refine ⟨rfl, id, ⟨[], (List.append_nil _).symm, nofun⟩, ⟨_, rfl, fun ret hmem => ?_⟩⟩
    rw [List.mem_singleton.mp hmem]
    exact ⟨rfl, rfl⟩
  refine hs.of_moves ⟨hext, rfl, hs.wellFormed, hs.holds, hstart.le, hs.ne_of_writing hthread,
    nofun, hnew⟩ trivial (fun ret hmem => ?_) fun _ => Or.inl
  refine (List.mem_append.mp hmem).imp_right fun hlast => ?_
  rw [List.mem_singleton.mp hlast]
  exact ⟨Nat.lt_succ_of_lt hstart, Nat.lt_succ_self _, hwritten, fun write hwrite _ =>
    (hs.time write hwrite).1, fun hstatus => (hprogress hstatus).imp fun _ hloop =>
      hloop.mono hext hstart.le⟩

/-- A client that returns from `Read`. -/
theorem Consistent.returnRead (hs : s.Consistent) {client : ι} {start : ℕ} {call : ReadCall}
    {status : ℤ} {result : List KVPair}
    (hthread : s.thread client = .reading start call (.done status result)) :
    ({ s.tick client .idle with reads := s.reads ++ [⟨start, call, status, result⟩] } :
      SharedDB ι).Consistent := by
  have hok := hs.thread client
  rw [hthread] at hok
  obtain ⟨hstart, hprogress⟩ := hok
  have hext : s.Extends s.now
      { s.tick client .idle with reads := s.reads ++ [⟨start, call, status, result⟩] } :=
    extends_of_eq s.now rfl rfl rfl rfl
  have hmoves := hs.moves_tick client .idle nofun
  refine hs.of_moves ⟨hext, rfl, hs.wellFormed, hs.holds, le_rfl, hmoves.fresh, nofun,
    hmoves.notReturned⟩ trivial (fun _ => Or.inl) fun read hmem => ?_
  refine (List.mem_append.mp hmem).imp_right fun hlast => ?_
  rw [List.mem_singleton.mp hlast]
  exact ⟨Nat.lt_succ_of_lt hstart, hprogress.mono hext hstart.le⟩

/-- Every event that publishes no second table keeps the invariant. -/
theorem Consistent.step (hs : s.Consistent) {e : SharedEvent ι} (hpublish : s.PublishesNew e)
    (hstep : machine.step s e = some s') : s'.Consistent := by
  cases e with
  | write client call =>
      cases hthread : s.thread client with
      | idle =>
          simp only [machine, hthread] at hstep
          cases hstep
          exact hs.beginWrite client call
      | writing | reading =>
          simp only [machine, hthread] at hstep
          cases hstep
  | read client call =>
      cases hthread : s.thread client with
      | idle =>
          simp only [machine, hthread] at hstep
          cases hstep
          exact hs.moveRead client le_rfl trivial
      | writing | reading =>
          simp only [machine, hthread] at hstep
          cases hstep
  | step client =>
      cases hthread : s.thread client with
      | idle =>
          simp only [machine, hthread] at hstep
          cases hstep
      | writing start call pc =>
          by_cases hdone : ∃ status, pc = .done status
          · obtain ⟨status, rfl⟩ := hdone
            simp only [machine, hthread] at hstep
            cases hstep
            exact hs.returnWrite hthread
          · rw [step_writing hthread fun status hpc => hdone ⟨status, hpc⟩] at hstep
            obtain ⟨step, hwrite, rfl⟩ := Option.map_eq_some_iff.mp hstep
            obtain ⟨hstart, -, -, hprogress⟩ := hs.writing hthread
            refine hs.afterWriteStep hthread (hs.stepOk hstart.le hprogress (fun hpc => ?_) hwrite)
            refine hpublish call ?_
            rw [hthread, hpc]
            rfl
      | reading start call pc =>
          have hok := hs.thread client
          rw [hthread] at hok
          obtain ⟨hstart, hprogress⟩ := hok
          by_cases hdone : ∃ status result, pc = .done status result
          · obtain ⟨status, result, rfl⟩ := hdone
            simp only [machine, hthread] at hstep
            cases hstep
            exact hs.returnRead hthread
          · rw [step_reading hthread fun status result hpc => hdone ⟨status, result, hpc⟩] at hstep
            obtain ⟨pc', hread, rfl⟩ := Option.map_eq_some_iff.mp hstep
            exact hs.moveRead client hstart.le (hs.readStep hprogress hread)

end Runs

/-- The pairs of a call that has returned `kOK` are found by later reads. -/
theorem Consistent.noLostWrites {s : SharedDB ι} (hs : s.Consistent) : s.NoLostWrites := by
  intro ret hret hstatus read hread htime hindex
  obtain ⟨-, hok, hfound⟩ := hs.reads read hread
  have hack : s.Acknowledged read.start read.call.index ret := ⟨hret, hstatus, htime, hindex.symm⟩
  refine ⟨hok ret hack, fun pair hpair hasks => ?_⟩
  obtain ⟨stamp, hmem, hresult, hlate⟩ :=
    hfound pair.1 hasks ret hack (List.mem_map_of_mem hpair)
  refine ⟨stamp.value, hresult, ?_⟩
  by_cases hcaller : stamp.caller = ret.start
  · -- a call has one value for a field
    have hwritten := (hs.returned ret hret).writtenBy _ hmem hcaller
    have heq := List.inj_on_of_nodup_map ret.call.nodup_fields hwritten hpair rfl
    exact Or.inl (congrArg Prod.snd heq)
  · refine Or.inr ⟨stamp, hindex ▸ hmem, rfl, hcaller, ?_⟩
    rintro ⟨ret', hret', hstart', htime'⟩
    have hbefore := (hs.returned ret' hret').before _ hmem hstart'.symm
    dsimp only at hbefore
    omega

/-- In a run in which every field table that is published is the first of its index, no
write is lost that a call has acknowledged. -/
theorem noLostWrites_of_publishesNew [DecidableEq ι] {s : SharedDB ι}
    {es : List (SharedEvent ι)} (hrun : machine.run start es = some s)
    (hpublish : machine.Along PublishesNew start es) : s.NoLostWrites :=
  (machine.run_invariant_of_along (fun _ _ _ hs hnew hstep => hs.step hnew hstep)
    consistent_start hpublish hrun).noLostWrites

/-! ## Two runs -/

/-- An `Insert` of a record with one field. -/
def insertOne (pair : KVPair) (hpair : NulFreeValues [pair]) : WriteCall where
  op := .insert
  table := ['t']
  key := ['k']
  values := [pair]
  nulFree := by decide
  nulFree_values := hpair
  nodup_fields := List.nodup_singleton _

/-- The first client's call. -/
def insertA : WriteCall := insertOne (['a'], ['1']) (by decide)

/-- The second client's call. -/
def insertB : WriteCall := insertOne (['b'], ['2']) (by decide)

/-- A `Read` of all fields. -/
def readAll : ReadCall where
  order := .latestFirst
  table := ['t']
  key := ['k']
  fields := none
  nulFree := by decide

/-- Two clients insert the same record one after the other, and the first reads it. -/
def inTurn : List (SharedEvent (Fin 2)) :=
  .write 0 insertA :: List.replicate 5 (.step 0) ++ .write 1 insertB :: List.replicate 4 (.step 1) ++
    .read 0 readAll :: List.replicate 3 (.step 0)

/-- The theorem at these calls. -/
theorem noLostWrites_inTurn : ∃ s, machine.run start inTurn = some s ∧ s.NoLostWrites := by
  obtain ⟨s, hrun⟩ := Option.isSome_iff_exists.mp
    (show (machine.run start inTurn).isSome = true by decide +kernel)
  exact ⟨s, hrun, noLostWrites_of_publishesNew hrun (by decide +kernel)⟩

/-- The same calls, but both look for the record before one of them makes it. -/
def atOnce : List (SharedEvent (Fin 2)) :=
  [.write 0 insertA, .write 1 insertB, .step 0, .step 1] ++ List.replicate 4 (.step 0) ++
    List.replicate 4 (.step 1) ++ .read 0 readAll :: List.replicate 3 (.step 0)

/-- Both calls return `kOK`, and the `Read` finds no field of the second. -/
theorem not_noLostWrites_atOnce :
    ∃ s, machine.run start atOnce = some s ∧ ¬ s.NoLostWrites := by
  have hrun : ∃ s, machine.run start atOnce = some s ∧
      s.returned = [⟨0, insertA, 7, kOK⟩, ⟨1, insertB, 11, kOK⟩] ∧
      s.reads = [⟨12, readAll, kOK, [(['a'], ['1'])]⟩] := ⟨_, rfl, rfl, rfl⟩
  obtain ⟨s, hrun, hreturned, hreads⟩ := hrun
  refine ⟨s, hrun, fun hno => ?_⟩
  obtain ⟨-, hfinds⟩ := hno ⟨1, insertB, 11, kOK⟩ (by simp [hreturned]) rfl
    ⟨12, readAll, kOK, [(['a'], ['1'])]⟩ (by simp [hreads]) (by decide) rfl
  obtain ⟨value, hmem, -⟩ := hfinds (['b'], ['2']) List.mem_cons_self nofun
  simp at hmem

end SharedDB

end YcsbC
