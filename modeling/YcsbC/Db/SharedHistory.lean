import YcsbC.Db.SharedSteps

/-!
# Histories of a shared database

The invariant of runs in which every field table that is published is the first of its
index.  Each loop over the pairs of a call works on the record itself (`Loop`), so a
field that it has passed was last written after the call began (`Settled`).  All that
the invariant says of a call stays true when other calls move on, since later writes
are later still (`Extends`).
-/

namespace YcsbC

open HashtableDB

namespace SharedDB

variable {ι : Type*}

/-! ## The invariant -/

/-- The last write to a field was made after a call began. -/
def Settled (s : SharedDB ι) (start : ℕ) (index field : Str) : Prop :=
  ∃ stamp, s.writes.last (index, field) = some stamp ∧ start ≤ stamp.time

/-- A field has no value from before a call began. -/
def NotOlder (s : SharedDB ι) (start : ℕ) (index field : Str) : Prop :=
  ∀ stamp, s.writes.last (index, field) = some stamp → start ≤ stamp.time

/-- A loop over the pairs of a call works on the record of its index and has settled all
fields but the rest. -/
structure Loop (s : SharedDB ι) (start : ℕ) (call : WriteCall) (handle : Handle)
    (rest : List KVPair) : Prop where
  published : s.db.keyTable.get call.index = some handle
  subset : ∀ pair ∈ rest, pair ∈ call.values
  settled : ∀ pair ∈ call.values, pair ∈ rest ∨ s.Settled start call.index pair.1

/-- How far a call of `Insert` or `Update` has come. -/
def WriteProgress (s : SharedDB ι) (start : ℕ) (call : WriteCall) : WritePc → Prop
  | .get | .publish => True
  | .insertField handle rest | .updateField handle rest => s.Loop start call handle rest
  | .updateNewField handle rest => s.Loop start call handle rest ∧
      ∀ pair ∈ call.values, s.NotOlder start call.index pair.1
  | .insertMissing handle pair rest => s.Loop start call handle (pair :: rest) ∧
      s.NotOlder start call.index pair.1
  | .done status => status = kOK → ∃ handle, s.Loop start call handle []

/-- A call on the index had returned `kOK` when a `Read` began. -/
structure Acknowledged (s : SharedDB ι) (start : ℕ) (index : Str) (ret : WriteReturn) : Prop where
  mem : ret ∈ s.returned
  status : ret.status = kOK
  time : ret.time < start
  index : ret.call.index = index

/-- A result has a value for a field that is not older than the calls acknowledged. -/
def Found (s : SharedDB ι) (start : ℕ) (index field : Str) (result : List KVPair) : Prop :=
  ∀ ret, s.Acknowledged start index ret → field ∈ ret.call.values.map Prod.fst →
    ∃ stamp, ((index, field), stamp) ∈ s.writes ∧ (field, stamp.value) ∈ result ∧
      ret.start ≤ stamp.time

/-- How far a call of `Read` has come. -/
def ReadProgress (s : SharedDB ι) (start : ℕ) (call : ReadCall) : ReadPc → Prop
  | .get => True
  | .entries handle => s.db.keyTable.get call.index = some handle
  | .getField handle rest result => s.db.keyTable.get call.index = some handle ∧
      ∀ field, call.Asks field → field ∈ rest ∨ s.Found start call.index field result
  | .done status result => (∀ ret, s.Acknowledged start call.index ret → status = kOK) ∧
      ∀ field, call.Asks field → s.Found start call.index field result

/-- What a call has written are pairs of it. -/
def WrittenBy (s : SharedDB ι) (start : ℕ) (call : WriteCall) : Prop :=
  ∀ write ∈ s.writes, write.2.caller = start → (write.1.2, write.2.value) ∈ call.values

/-- A client in a call. -/
def ThreadOk (s : SharedDB ι) : Thread → Prop
  | .idle => True
  | .writing start call pc => start < s.now ∧ (∀ ret ∈ s.returned, ret.start ≠ start) ∧
      s.WrittenBy start call ∧ s.WriteProgress start call pc
  | .reading start call pc => start < s.now ∧ s.ReadProgress start call pc

/-- A call of `Insert` or `Update` that has returned. -/
structure ReturnOk (s : SharedDB ι) (ret : WriteReturn) : Prop where
  start : ret.start < s.now
  time : ret.time < s.now
  writtenBy : s.WrittenBy ret.start ret.call
  before : ∀ write ∈ s.writes, write.2.caller = ret.start → write.2.time < ret.time
  settled : ret.status = kOK → ∃ handle, s.Loop ret.start ret.call handle []

/-- The database holds the last write to each field, and all calls have come as far as
their histories say. -/
structure Consistent (s : SharedDB ι) : Prop where
  wellFormed : s.db.WellFormed
  holds : ∀ {index field : Str}, NulFree index → NulFree field →
    s.db.fieldValue index field = (s.writes.last (index, field)).map Stamp.value
  time : ∀ write ∈ s.writes, write.2.time < s.now ∧ write.2.caller < s.now
  thread : ∀ client, s.ThreadOk (s.thread client)
  unique : ∀ {client client' : ι} {start : ℕ} {call call' : WriteCall} {pc pc' : WritePc},
    s.thread client = .writing start call pc → s.thread client' = .writing start call' pc' →
      client = client'
  returned : ∀ ret ∈ s.returned, s.ReturnOk ret
  reads : ∀ read ∈ s.reads, read.start < s.now ∧
    s.ReadProgress read.start read.call (.done read.status read.result)

theorem consistent_start : (start : SharedDB ι).Consistent where
  wellFormed := wellFormed_empty
  holds _ _ := by
    rw [start, fieldValue, recordTable_empty]
    rfl
  time _ hmem := absurd hmem List.not_mem_nil
  thread _ := trivial
  unique hthread := by cases hthread
  returned _ hmem := absurd hmem List.not_mem_nil
  reads _ hmem := absurd hmem List.not_mem_nil

/-! ## Growing histories -/

/-- A call has moved the state on: what was published stays so, and all that is new in
the history has its name and the present time. -/
structure Extends (s : SharedDB ι) (actor : ℕ) (s' : SharedDB ι) : Prop where
  now : s'.now = s.now + 1
  published : ∀ {index : Str} {handle : Handle}, s.db.keyTable.get index = some handle →
    s'.db.keyTable.get index = some handle
  writes : ∃ new, s'.writes = s.writes ++ new ∧
    ∀ write ∈ new, write.2.caller = actor ∧ write.2.time = s.now
  returned : ∃ new, s'.returned = s.returned ++ new ∧
    ∀ ret ∈ new, ret.start = actor ∧ ret.time = s.now

/-- The clients and reads are not part of what is compared. -/
theorem extends_of_eq {s s' : SharedDB ι} (actor : ℕ) (hnow : s'.now = s.now + 1)
    (hdb : s'.db = s.db) (hwrites : s'.writes = s.writes) (hreturned : s'.returned = s.returned) :
    s.Extends actor s' where
  now := hnow
  published hget := hdb ▸ hget
  writes := ⟨[], by rw [hwrites, List.append_nil], nofun⟩
  returned := ⟨[], by rw [hreturned, List.append_nil], nofun⟩

section Extends

variable {s s' : SharedDB ι} {actor start : ℕ} {index field : Str} (hext : s.Extends actor s')

include hext

theorem Extends.mem_writes {write : (Str × Str) × Stamp} (hmem : write ∈ s.writes) :
    write ∈ s'.writes := by
  obtain ⟨new, hwrites, -⟩ := hext.writes
  rw [hwrites]
  exact List.mem_append_left _ hmem

theorem Extends.of_mem_writes {write : (Str × Str) × Stamp} (hmem : write ∈ s'.writes) :
    write ∈ s.writes ∨ (write.2.caller = actor ∧ write.2.time = s.now) := by
  obtain ⟨new, hwrites, hnew⟩ := hext.writes
  rw [hwrites, List.mem_append] at hmem
  exact hmem.imp_right (hnew write)

theorem Extends.of_mem_returned {ret : WriteReturn} (hmem : ret ∈ s'.returned) :
    ret ∈ s.returned ∨ (ret.start = actor ∧ ret.time = s.now) := by
  obtain ⟨new, hreturned, hnew⟩ := hext.returned
  rw [hreturned, List.mem_append] at hmem
  exact hmem.imp_right (hnew ret)

/-- The last write to a field is the one before, or a new one. -/
theorem Extends.last {stamp : Stamp} (hlast : s'.writes.last (index, field) = some stamp) :
    s.writes.last (index, field) = some stamp ∨ stamp.time = s.now := by
  obtain ⟨new, hwrites, hnew⟩ := hext.writes
  rw [hwrites, WriteLog.last_append] at hlast
  cases hlast' : WriteLog.last new (index, field) with
  | none =>
      rw [hlast', Option.none_or] at hlast
      exact Or.inl hlast
  | some stamp' =>
      rw [hlast', Option.some_or] at hlast
      cases hlast
      exact Or.inr (hnew _ (WriteLog.mem_of_last_eq_some hlast')).2

theorem Settled.mono (hsettled : s.Settled start index field) (hstart : start ≤ s.now) :
    s'.Settled start index field := by
  obtain ⟨stamp, hlast, htime⟩ := hsettled
  have hsome : (s'.writes.last (index, field)).isSome := by
    obtain ⟨new, hwrites, -⟩ := hext.writes
    rw [hwrites, WriteLog.last_append, hlast, Option.isSome_or, Option.isSome_some, Bool.or_true]
  obtain ⟨stamp', hlast'⟩ := Option.isSome_iff_exists.mp hsome
  refine ⟨stamp', hlast', ?_⟩
  cases hext.last hlast' with
  | inl hold =>
      cases hlast.symm.trans hold
      exact htime
  | inr hnew => exact hnew ▸ hstart

theorem NotOlder.mono (hnot : s.NotOlder start index field) (hstart : start ≤ s.now) :
    s'.NotOlder start index field := fun stamp hlast =>
  (hext.last hlast).elim (hnot stamp) fun hnew => hnew ▸ hstart

theorem Loop.mono {call : WriteCall} {handle : Handle} {rest : List KVPair}
    (hloop : s.Loop start call handle rest) (hstart : start ≤ s.now) :
    s'.Loop start call handle rest where
  published := hext.published hloop.published
  subset := hloop.subset
  settled pair hmem := (hloop.settled pair hmem).imp_right fun hsettled =>
    hsettled.mono hext hstart

theorem WriteProgress.mono {call : WriteCall} {pc : WritePc}
    (hprogress : s.WriteProgress start call pc) (hstart : start ≤ s.now) :
    s'.WriteProgress start call pc := by
  cases pc with
  | get | publish => trivial
  | insertField handle rest | updateField handle rest => exact Loop.mono hext hprogress hstart
  | updateNewField handle rest =>
      exact ⟨hprogress.1.mono hext hstart, fun pair hmem =>
        (hprogress.2 pair hmem).mono hext hstart⟩
  | insertMissing handle pair rest =>
      exact ⟨hprogress.1.mono hext hstart, hprogress.2.mono hext hstart⟩
  | done status =>
      intro hstatus
      obtain ⟨handle, hloop⟩ := hprogress hstatus
      exact ⟨handle, hloop.mono hext hstart⟩

theorem Acknowledged.of_extends {ret : WriteReturn} (hack : s'.Acknowledged start index ret)
    (hstart : start ≤ s.now) : s.Acknowledged start index ret := by
  refine ⟨?_, hack.status, hack.time, hack.index⟩
  cases hext.of_mem_returned hack.mem with
  | inl hold => exact hold
  | inr hnew => exact absurd (hnew.2 ▸ hack.time) (Nat.not_lt.mpr hstart)

theorem Found.mono {result : List KVPair} (hfound : s.Found start index field result)
    (hstart : start ≤ s.now) : s'.Found start index field result := by
  intro ret hack hfield
  obtain ⟨stamp, hmem, hresult, htime⟩ := hfound ret (hack.of_extends hext hstart) hfield
  exact ⟨stamp, hext.mem_writes hmem, hresult, htime⟩

theorem ReadProgress.mono {call : ReadCall} {pc : ReadPc}
    (hprogress : s.ReadProgress start call pc) (hstart : start ≤ s.now) :
    s'.ReadProgress start call pc := by
  cases pc with
  | get => trivial
  | entries handle => exact hext.published hprogress
  | getField handle rest result =>
      exact ⟨hext.published hprogress.1, fun field hasks =>
        (hprogress.2 field hasks).imp_right fun hfound => hfound.mono hext hstart⟩
  | done status result =>
      exact ⟨fun ret hack => hprogress.1 ret (hack.of_extends hext hstart), fun field hasks =>
        (hprogress.2 field hasks).mono hext hstart⟩

theorem WrittenBy.mono {call : WriteCall} (hwritten : s.WrittenBy start call)
    (hne : start ≠ actor) : s'.WrittenBy start call := fun write hmem hcaller =>
  (hext.of_mem_writes hmem).elim (fun hold => hwritten write hold hcaller)
    fun hnew => absurd (hcaller.symm.trans hnew.1) hne

/-- A client that has not moved. -/
theorem ThreadOk.mono {thread : Thread} (hok : s.ThreadOk thread)
    (hne : ∀ start call pc, thread = .writing start call pc → start ≠ actor) :
    s'.ThreadOk thread := by
  have hnow := hext.now
  cases thread with
  | idle => trivial
  | writing start call pc =>
      obtain ⟨hstart, hreturned, hwritten, hprogress⟩ := hok
      have hne := hne start call pc rfl
      refine ⟨by omega, fun ret hmem => ?_, hwritten.mono hext hne, hprogress.mono hext hstart.le⟩
      exact (hext.of_mem_returned hmem).elim (hreturned ret) fun hnew => hnew.1 ▸ hne.symm
  | reading start call pc =>
      obtain ⟨hstart, hprogress⟩ := hok
      exact ⟨by omega, hprogress.mono hext hstart.le⟩

theorem ReturnOk.mono {ret : WriteReturn} (hok : s.ReturnOk ret) (hne : ret.start ≠ actor) :
    s'.ReturnOk ret where
  start := hext.now ▸ hok.start.trans (Nat.lt_succ_self _)
  time := hext.now ▸ hok.time.trans (Nat.lt_succ_self _)
  writtenBy := hok.writtenBy.mono hext hne
  before write hmem hcaller := (hext.of_mem_writes hmem).elim
    (fun hold => hok.before write hold hcaller) fun hnew => absurd (hcaller.symm.trans hnew.1) hne
  settled hstatus := (hok.settled hstatus).imp fun _ hloop => hloop.mono hext hok.start.le

end Extends

end SharedDB

end YcsbC
