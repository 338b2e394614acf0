import YcsbC.Db.ConcurrentLoad
import YcsbC.Foundation.Moments
import YcsbC.Db.SharedAlone
import YcsbC.Main.LoadThenRun
import YcsbC.Main.SequenceKeys

/-!
# A concurrent load

The threads of a load share the counter of the workload and one `HashtableDB`.  A `DoInsert`
is the `fetch_add` of `NextSequenceKey`, the begin of `Insert`, and its steps on the
hashtables, and the steps of different threads interleave in any way.  The counter gives
each number to one thread (`Custody`), so all calls are on records of their own, and the
database holds in the end what the calls have brought (`concurrent_load`).
-/

namespace YcsbC

open CounterGenerator

/-- The index string of a key number, as `Insert` gets it. -/
def CoreWorkload.indexOf (p : Properties) (keyNum : UInt64) : Str :=
  p.table ++ (CoreWorkload.init p).keyName keyNum

/-- The `Insert` of a `DoInsert`. -/
def loadCall (p : Properties) (htable : NulFree p.table) (keyNum : UInt64)
    (values : ℕ → CoreWorkload.ValueDraw) : WriteCall where
  op := .insert
  table := p.table
  key := (CoreWorkload.init p).keyName keyNum
  values := (CoreWorkload.init p).buildValues values
  nulFree := nulFree_append.mpr ⟨htable, CoreWorkload.nulFree_keyName _ _⟩
  nulFree_values := CoreWorkload.nulFreeValues_buildValues _ _
  nodup_fields := by
    rw [CoreWorkload.map_fst_buildValues]
    exact CoreWorkload.nodup_fieldNames _

section LoadCall

variable {p : Properties} (htable : NulFree p.table) (keyNum : UInt64)
  (values : ℕ → CoreWorkload.ValueDraw)

theorem index_loadCall : (loadCall p htable keyNum values).index =
    CoreWorkload.indexOf p keyNum := rfl

theorem values_loadCall : (loadCall p htable keyNum values).values =
    (CoreWorkload.init p).buildValues values := rfl

/-- With no step of another thread in between, it is what `DoInsert` calls. -/
theorem doInsert_eq_apply {χ : Type*} {s : Bench HashtableDB χ} {g : CounterGenerator}
    (hwl : s.wl = { CoreWorkload.init p with keyGenerator := g }) (order : IterationOrder) :
    (s.doInsert (HashtableDB.asDB order) values).map (fun result => result.2.store) =
      ((loadCall p htable g.counter values).apply s.store).map Prod.snd := by
  have happly : (loadCall p htable g.counter values).apply s.store =
      s.store.insert (CoreWorkload.init p).tableName ((CoreWorkload.init p).keyName g.counter)
        ((CoreWorkload.init p).buildValues values) := by
    rw [CoreWorkload.tableName_init]
    rfl
  rw [happly, Bench.doInsert, Bench.nextSequenceKey, hwl]
  simp only [Bench.insert, Option.map_map]
  rfl

end LoadCall

/-- The threads of a load: the counter, the key that each has taken and not begun to insert,
and the database. -/
structure Loaders (ι : Type*) where
  /-- `key_generator_`. -/
  keyGenerator : CounterGenerator
  /-- The key number that a thread is about to insert. -/
  held : ι → Option UInt64
  /-- The database. -/
  shared : SharedDB ι

/-- A step of a thread in `DoInsert`. -/
inductive LoaderEvent (ι : Type*) where
  /-- `NextSequenceKey`. -/
  | take (thread : ι)
  /-- `Insert` begins. -/
  | insert (thread : ι) (values : ℕ → CoreWorkload.ValueDraw)
  /-- A step of `Insert`, or its return. -/
  | step (thread : ι)

/-- The step is a `fetch_add`. -/
def LoaderEvent.isTake {ι : Type*} : LoaderEvent ι → Bool
  | .take _ => true
  | .insert .. | .step _ => false

namespace Loaders

variable {ι : Type*}

/-- Loads of different key numbers below `2 ^ 32` are on records of their own. -/
theorem ownRecords_of_nodup {p : Properties} {htable : NulFree p.table}
    {events : List (SharedEvent ι)} {loads : List (UInt64 × (ℕ → CoreWorkload.ValueDraw))}
    (hcalls : SharedDB.writeCalls events = loads.map fun load => loadCall p htable load.1 load.2)
    (hnodup : (loads.map Prod.fst).Nodup) (hlt : ∀ load ∈ loads, load.1 < 2 ^ 32) :
    SharedDB.OwnRecords events := by
  rw [SharedDB.OwnRecords, hcalls, List.pairwise_map]
  rw [List.Nodup, List.pairwise_map] at hnodup
  refine hnodup.imp_of_mem fun hmem hmem' hne hindex => hne ?_
  exact CoreWorkload.buildKeyName_inj (hlt _ hmem) (hlt _ hmem') (List.append_cancel_left hindex)

/-- Threads that have not begun, and an empty database. -/
def start (p : Properties) : Loaders ι :=
  ⟨(CoreWorkload.init p).keyGenerator, fun _ => none, .start⟩

variable [DecidableEq ι]

/-- The machine whose runs are the interleavings of the threads. -/
def machine (p : Properties) (htable : NulFree p.table) :
    Machine (Loaders ι) (LoaderEvent ι) where
  step s
    | .take thread =>
        match s.held thread, s.shared.thread thread with
        | none, .idle =>
            let (keyNum, keyGenerator) := s.keyGenerator.next
            some { s with
              keyGenerator := keyGenerator
              held := Function.update s.held thread (some keyNum) }
        | _, _ => none
    | .insert thread values =>
        (s.held thread).bind fun keyNum =>
          (SharedDB.machine.step s.shared (.write thread (loadCall p htable keyNum values))).map
            fun shared => { s with
              held := Function.update s.held thread none
              shared := shared }
    | .step thread =>
        (SharedDB.machine.step s.shared (.step thread)).map fun shared => { s with shared := shared }

/-! ## The values drawn for a key number -/

/-- At a moment of the run a thread has begun to insert the key number, which it held, with
these values. -/
def DrawnFor (p : Properties) (htable : NulFree p.table) (es : List (LoaderEvent ι))
    (keyNum : UInt64) (values : ℕ → CoreWorkload.ValueDraw) : Prop :=
  ∃ time thread s, (machine p htable).At (start p) es time s ∧ s.held thread = some keyNum ∧
    es[time]? = some (.insert thread values)

section DrawnFor

variable {p : Properties} {htable : NulFree p.table} {es : List (LoaderEvent ι)} {s s' : Loaders ι}
  {e : LoaderEvent ι} {keyNum : UInt64} {values : ℕ → CoreWorkload.ValueDraw}

theorem drawnFor_concat (hrun : (machine p htable).run (start p) es = some s)
    (hstep : (machine p htable).step s e = some s') :
    DrawnFor p htable (es ++ [e]) keyNum values ↔ DrawnFor p htable es keyNum values ∨
      ∃ thread, s.held thread = some keyNum ∧ e = .insert thread values := by
  constructor
  · rintro ⟨time, thread, s₁, hat, hheld, hevent⟩
    have hlt := (List.getElem?_eq_some_iff.mp hevent).1
    rw [List.length_append, List.length_singleton] at hlt
    obtain ⟨hle, hrun₁⟩ := (hat.of_concat hrun hstep).resolve_right (by omega)
    rcases hle.lt_or_eq with hbefore | rfl
    · rw [List.getElem?_append_left hbefore] at hevent
      exact Or.inl ⟨time, thread, s₁, ⟨hle, hrun₁⟩, hheld, hevent⟩
    · rw [List.take_length, hrun] at hrun₁
      cases hrun₁
      exact Or.inr ⟨thread, hheld, by simpa using hevent⟩
  · rintro (⟨time, thread, s₁, hat, hheld, hevent⟩ | ⟨thread, hheld, rfl⟩)
    · have hlt := (List.getElem?_eq_some_iff.mp hevent).1
      exact ⟨time, thread, s₁, hat.append [e], hheld, by
        rw [List.getElem?_append_left hlt, hevent]⟩
    · exact ⟨es.length, thread, s, (Machine.at_length hrun).append _, hheld, by simp⟩

theorem drawnFor_concat_of_ne (hrun : (machine p htable).run (start p) es = some s)
    (hstep : (machine p htable).step s e = some s')
    (hne : ∀ thread values, e ≠ .insert thread values) :
    DrawnFor p htable (es ++ [e]) keyNum values ↔ DrawnFor p htable es keyNum values := by
  rw [drawnFor_concat hrun hstep]
  exact or_iff_left fun ⟨thread, _, he⟩ => hne thread values he

end DrawnFor

/-! ## The invariant -/

/-- After `k` numbers of the counter: the database is where some calls have brought it, each
the load of a number that was taken and with values that a thread has drawn for it. -/
structure Loading (p : Properties) (htable : NulFree p.table) (es : List (LoaderEvent ι)) (k : ℕ)
    (s : Loaders ι) : Prop where
  counter : s.keyGenerator = ⟨sizeOfInt p.insertStart + UInt64.ofNat k⟩
  loads : ∃ (events : List (SharedEvent ι)) (loads : List (UInt64 × (ℕ → CoreWorkload.ValueDraw))),
    SharedDB.machine.run .start events = some s.shared ∧
      SharedDB.writeCalls events = loads.map (fun load => loadCall p htable load.1 load.2) ∧
      (∀ load, load ∈ loads ↔ DrawnFor p htable es load.1 load.2) ∧
      ((sizeOfInt p.insertStart).toNat + k ≤ 2 ^ 64 →
        Custody s.held (numbers (sizeOfInt p.insertStart) k) (loads.map Prod.fst))

variable {p : Properties} {htable : NulFree p.table} {es : List (LoaderEvent ι)} {k : ℕ}
  {s s' : Loaders ι}

theorem loading_start : Loading p htable [] 0 (start p : Loaders ι) where
  counter := by
    rw [start, CoreWorkload.keyGenerator_init]
    exact congrArg CounterGenerator.mk (UInt64.add_zero _).symm
  loads := ⟨[], [], rfl, rfl, fun _ => ⟨nofun, by simp [DrawnFor]⟩, fun _ => Custody.start⟩

/-- A `fetch_add` hands out the next number. -/
theorem Loading.take (hs : Loading p htable es k s)
    (hrun : (machine p htable).run (start p) es = some s) {thread : ι}
    (hstep : (machine p htable).step s (.take thread) = some s') :
    Loading p htable (es ++ [.take thread]) (k + 1) s' := by
  obtain ⟨events, loads, hevents, hcalls, hdrawn, hcustody⟩ := hs.loads
  have hdrawn' (load) : load ∈ loads ↔ DrawnFor p htable (es ++ [.take thread]) load.1 load.2 := by
    rw [hdrawn, drawnFor_concat_of_ne hrun hstep nofun]
  cases hheld : s.held thread with
  | some keyNum =>
      simp only [machine, hheld] at hstep
      cases hstep
  | none =>
      cases hthread : s.shared.thread thread with
      | writing | reading =>
          simp only [machine, hheld, hthread] at hstep
          cases hstep
      | idle =>
          simp only [machine, hheld, hthread, hs.counter, CounterGenerator.next] at hstep
          cases hstep
          refine ⟨?_, events, loads, hevents, hcalls, hdrawn', fun hwrap => ?_⟩
          · rw [UInt64.ofNat_add, ← UInt64.add_assoc]
            rfl
          · rw [numbers_succ]
            exact (hcustody (by omega)).issue hheld (notMem_numbers (by omega))

/-- `Insert` begins with a number that was taken. -/
theorem Loading.insert (hs : Loading p htable es k s)
    (hrun : (machine p htable).run (start p) es = some s) {thread : ι}
    {values : ℕ → CoreWorkload.ValueDraw}
    (hstep : (machine p htable).step s (.insert thread values) = some s') :
    Loading p htable (es ++ [.insert thread values]) k s' := by
  obtain ⟨events, loads, hevents, hcalls, hdrawn, hcustody⟩ := hs.loads
  obtain ⟨keyNum, hheld, hbegin⟩ := Option.bind_eq_some_iff.mp hstep
  obtain ⟨shared, hshared, rfl⟩ := Option.map_eq_some_iff.mp hbegin
  refine ⟨hs.counter, events ++ [.write thread (loadCall p htable keyNum values)],
    loads ++ [(keyNum, values)], ?_, ?_, fun load => ?_, fun hwrap => ?_⟩
  · exact Machine.run_concat hevents hshared
  · rw [SharedDB.writeCalls_concat, hcalls, List.map_append]
    rfl
  · rw [List.mem_append, List.mem_singleton, hdrawn, drawnFor_concat hrun hstep]
    refine or_congr_right ⟨?_, ?_⟩
    · rintro rfl
      exact ⟨thread, hheld, rfl⟩
    · rintro ⟨thread', hheld', heq⟩
      cases heq
      exact Prod.ext (Option.some.inj (hheld'.symm.trans hheld)) rfl
  · rw [List.map_append]
    exact (hcustody hwrap).handIn hheld

/-- A step of `Insert`. -/
theorem Loading.step (hs : Loading p htable es k s)
    (hrun : (machine p htable).run (start p) es = some s) {thread : ι}
    (hstep : (machine p htable).step s (.step thread) = some s') :
    Loading p htable (es ++ [.step thread]) k s' := by
  obtain ⟨events, loads, hevents, hcalls, hdrawn, hcustody⟩ := hs.loads
  have hdrawn' (load) : load ∈ loads ↔ DrawnFor p htable (es ++ [.step thread]) load.1 load.2 := by
    rw [hdrawn, drawnFor_concat_of_ne hrun hstep nofun]
  obtain ⟨shared, hshared, rfl⟩ := Option.map_eq_some_iff.mp hstep
  refine ⟨hs.counter, events ++ [.step thread], loads, ?_, ?_, hdrawn', hcustody⟩
  · exact Machine.run_concat hevents hshared
  · rw [SharedDB.writeCalls_concat, hcalls]
    exact List.append_nil _

theorem loading_run (hrun : (machine p htable).run (start p) es = some s) :
    Loading p htable es (es.countP LoaderEvent.isTake) s := by
  refine Machine.run_history
    (I := fun es s => Loading p htable es (es.countP LoaderEvent.isTake) s) ?_ loading_start hrun
  intro es s e s' hrun hs hstep
  rw [List.countP_append]
  cases e with
  | take thread => exact hs.take hrun hstep
  | insert thread values => exact hs.insert hrun hstep
  | step thread => exact hs.step hrun hstep

/-! ## The end of a load -/

/-- Threads that load an empty database together, in any order of their steps: when all are
done, every `Insert` has returned `kOK`, and the database has a record for each number that
the counter has handed out, with the fields and values that the thread that held the number has
drawn for it, and no other record. -/
theorem concurrent_load (hinsert : 0 ≤ p.insertStart.toInt)
    (hrun : (machine p htable).run (start p) es = some s)
    (hlt : p.insertStart.toInt + es.countP LoaderEvent.isTake ≤ 2 ^ 32)
    (hdone : ∀ thread, s.held thread = none ∧ s.shared.thread thread = .idle) :
    (∀ ret ∈ s.shared.returned, ret.status = kOK) ∧
      (∀ index, NulFree index → ((s.shared.db.recordTable index).isSome ↔
        ∃ keyNum ∈ numbers (sizeOfInt p.insertStart) (es.countP LoaderEvent.isTake),
          index = CoreWorkload.indexOf p keyNum)) ∧
      ∀ keyNum ∈ numbers (sizeOfInt p.insertStart) (es.countP LoaderEvent.isTake),
        (∃ values, DrawnFor p htable es keyNum values) ∧
          ∀ values, DrawnFor p htable es keyNum values →
            s.shared.db.HasPairs (CoreWorkload.indexOf p keyNum)
              ((CoreWorkload.init p).buildValues values) := by
  obtain ⟨-, events, loads, hevents, hcalls, hdrawn, hcustody⟩ := loading_run hrun
  have hstart := toNat_sizeOfInt hinsert
  have hcustody := hcustody (by omega)
  -- what was taken has been loaded
  have hloaded : ∀ keyNum ∈ numbers (sizeOfInt p.insertStart) (es.countP LoaderEvent.isTake),
      keyNum ∈ loads.map Prod.fst := by
    intro keyNum hmem
    refine (hcustody.accounted keyNum hmem).resolve_right ?_
    rintro ⟨thread, hheld⟩
    rw [(hdone thread).1] at hheld
    cases hheld
  have hsmall : ∀ load ∈ loads, load.1 < 2 ^ 32 := by
    intro load hmem
    have hnumber := List.mem_map_of_mem (f := UInt64.toNat)
      (hcustody.issued_of_handedIn load.1 (List.mem_map_of_mem hmem))
    rw [map_toNat_numbers (by omega), List.mem_range'_1] at hnumber
    rw [UInt64.lt_iff_toNat_lt]
    change load.1.toNat < 2 ^ 32
    omega
  have hs := SharedDB.loaded_of_run hevents
    (ownRecords_of_nodup hcalls hcustody.nodup_handedIn hsmall)
  have hpairs : ∀ load ∈ loads, s.shared.db.HasPairs (CoreWorkload.indexOf p load.1)
      ((CoreWorkload.init p).buildValues load.2) := by
    intro load hmem
    have hcall : loadCall p htable load.1 load.2 ∈ SharedDB.writeCalls events := by
      rw [hcalls]
      exact List.mem_map.mpr ⟨load, hmem, rfl⟩
    have hpairs := hs.hasPairs (fun thread => (hdone thread).2) hcall
    rwa [index_loadCall, values_loadCall] at hpairs
  refine ⟨fun ret hret => (hs.returned ret hret).2.1, fun index hindex => ⟨fun hrecord => ?_, ?_⟩,
    fun keyNum hmem => ?_⟩
  · by_contra hnone
    have hget := hs.untouched hindex fun call hcall heq => hnone ?_
    · rw [HashtableDB.recordTable_of_none hget] at hrecord
      cases hrecord
    · rw [hcalls] at hcall
      obtain ⟨load, hload, rfl⟩ := List.mem_map.mp hcall
      rw [index_loadCall] at heq
      exact ⟨load.1, hcustody.issued_of_handedIn _ (List.mem_map_of_mem hload), heq.symm⟩
  · rintro ⟨keyNum, hmem, rfl⟩
    obtain ⟨load, hload, rfl⟩ := List.mem_map.mp (hloaded keyNum hmem)
    exact (hpairs load hload).record
  · obtain ⟨load, hload, rfl⟩ := List.mem_map.mp (hloaded keyNum hmem)
    exact ⟨⟨load.2, (hdrawn load).mp hload⟩, fun values hdrawnFor =>
      hpairs (load.1, values) ((hdrawn (load.1, values)).mpr hdrawnFor)⟩

/-- Two records of one field. -/
def twoOrdered : Properties :=
  { recordCount := 2, operationCount := 0, fieldCount := 1, insertOrder := "ordered".toList }

/-- Two threads insert a record each, a step of one and a step of the other in turn. -/
def twoThreads : List (LoaderEvent Bool) :=
  [.take false, .take true, .insert true fun _ => ⟨1, 1⟩, .insert false fun _ => ⟨1, 2⟩] ++
    (List.replicate 5 [.step false, .step true]).flatten

theorem nulFree_twoOrdered : NulFree twoOrdered.table := by decide

/-- The theorem at these threads. -/
theorem concurrent_load_twoThreads :
    ∃ s, (machine twoOrdered nulFree_twoOrdered).run (start twoOrdered) twoThreads = some s ∧
      (∀ ret ∈ s.shared.returned, ret.status = kOK) ∧
      (∀ index, NulFree index → ((s.shared.db.recordTable index).isSome ↔
        ∃ keyNum ∈ numbers (sizeOfInt twoOrdered.insertStart) (twoThreads.countP LoaderEvent.isTake),
          index = CoreWorkload.indexOf twoOrdered keyNum)) ∧
      ∀ keyNum ∈ numbers (sizeOfInt twoOrdered.insertStart) (twoThreads.countP LoaderEvent.isTake),
        (∃ values, DrawnFor twoOrdered nulFree_twoOrdered twoThreads keyNum values) ∧
          ∀ values, DrawnFor twoOrdered nulFree_twoOrdered twoThreads keyNum values →
            s.shared.db.HasPairs (CoreWorkload.indexOf twoOrdered keyNum)
              ((CoreWorkload.init twoOrdered).buildValues values) := by
  have hrun : ∃ s, (machine twoOrdered nulFree_twoOrdered).run (start twoOrdered) twoThreads = some s ∧
      s.held false = none ∧ s.held true = none ∧ s.shared.thread false = .idle ∧
      s.shared.thread true = .idle := ⟨_, rfl, rfl, rfl, rfl, rfl⟩
  obtain ⟨s, hrun, hfalse, htrue, hfalse', htrue'⟩ := hrun
  refine ⟨s, hrun, concurrent_load (by decide) hrun (by decide) fun thread => ?_⟩
  cases thread with
  | false => exact ⟨hfalse, hfalse'⟩
  | true => exact ⟨htrue, htrue'⟩

end Loaders

end YcsbC
