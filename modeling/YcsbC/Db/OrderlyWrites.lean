import YcsbC.Db.AcknowledgedWrites
import YcsbC.Db.SharedReads

/-!
# Clients that lose no write

A write is lost when two calls make the record of one index at the same time.  It is enough
that the clients avoid this: when another call on an index is on its way, one on that index
has returned (`FirstAlone`).  Then a field table is only published for an index that has
none, and acknowledged writes are found (`noLostWrites_of_firstAlone`).
-/

namespace YcsbC

open HashtableDB

/-- The call of `Insert` or `Update` that a client is in. -/
def Thread.writeCall : Thread → Option WriteCall
  | .writing _ call _ => some call
  | .idle | .reading .. => none

theorem Thread.mem_writeCall {thread : Thread} {call : WriteCall} :
    call ∈ thread.writeCall ↔ ∃ begun pc, thread = .writing begun call pc := by
  cases thread with
  | idle | reading =>
      refine ⟨fun hcall => ?_, ?_⟩
      · cases hcall
      · rintro ⟨_, _, hthread⟩
        cases hthread
  | writing begun call' pc =>
      constructor
      · rintro ⟨⟩
        exact ⟨begun, pc, rfl⟩
      · rintro ⟨_, _, ⟨⟩⟩
        rfl

theorem Thread.writeCall_of_publishing {thread : Thread} {call : WriteCall}
    (hpublishing : call ∈ thread.publishing) : call ∈ thread.writeCall := by
  cases thread with
  | idle | reading => cases hpublishing
  | writing begun call' pc =>
      cases pc with
      | publish => exact hpublishing
      | _ => cases hpublishing

/-- A step makes the record of its own index or none. -/
theorem WriteMove.get_eq_none {call : WriteCall} {db db' : HashtableDB} {pc pc' : WritePc}
    (hmove : WriteMove call db pc db' pc') {index : Str} (hindex : NulFree index)
    (hne : index ≠ call.index) (hget : db.keyTable.get index = none) :
    db'.keyTable.get index = none := by
  cases hmove with
  | missing | found | finish | set => exact hget
  | publish =>
      refine (StlHashtable.get_insert_ne fun hwrap => hne ?_).trans hget
      exact (HashString.wrap_inj hindex call.nulFree_index).mp hwrap

namespace SharedDB

variable {ι : Type*}

/-- A call may begin if no other on its index is on its way, or one has returned. -/
def FirstAlone (s : SharedDB ι) : SharedEvent ι → Prop
  | .write _ call => (∃ ret ∈ s.returned, ret.call.index = call.index) ∨
      ∀ client, ∀ call' ∈ (s.thread client).writeCall, call'.index ≠ call.index
  | .read .. | .step _ => True

instance [Fintype ι] (s : SharedDB ι) : ∀ e, Decidable (s.FirstAlone e)
  | .write .. => inferInstanceAs (Decidable (_ ∨ _))
  | .read .. | .step _ => isTrue trivial

/-- Only one client is in a call on an index that has no record. -/
structure Orderly (s : SharedDB ι) : Prop where
  first : ∀ {client client' : ι} {call call' : WriteCall}, call ∈ (s.thread client).writeCall →
    call' ∈ (s.thread client').writeCall → s.db.keyTable.get call.index = none →
      call'.index = call.index → client' = client
  publish : ∀ {client : ι} {call : WriteCall}, call ∈ (s.thread client).publishing →
    s.db.keyTable.get call.index = none

theorem orderly_start : (start : SharedDB ι).Orderly where
  first hcall := by cases hcall
  publish hcall := by cases hcall

theorem Orderly.publishesNew {s : SharedDB ι} (hs : s.Orderly) : ∀ e, s.PublishesNew e
  | .step _ => fun _ hcall => hs.publish hcall
  | .write .. | .read .. => trivial

section Steps

variable {s s' : SharedDB ι}

/-- A client has moved that is in no call of `Insert` or `Update` now. -/
theorem Orderly.of_subset (hs : s.Orderly) (hdb : s'.db = s.db)
    (hthread : ∀ c, (s'.thread c).writeCall = none ∨ s'.thread c = s.thread c) : s'.Orderly := by
  have hcalls : ∀ {c : ι} {call : WriteCall}, call ∈ (s'.thread c).writeCall →
      s'.thread c = s.thread c := by
    intro c call hcall
    refine (hthread c).resolve_left fun hnone => ?_
    rw [hnone] at hcall
    cases hcall
  refine ⟨fun hcall hcall' hget hindex => ?_, fun hcall => ?_⟩
  · rw [hdb] at hget
    have hold := hcalls hcall
    have hold' := hcalls hcall'
    rw [hold] at hcall
    rw [hold'] at hcall'
    exact hs.first hcall hcall' hget hindex
  · have hold := hcalls (Thread.writeCall_of_publishing hcall)
    rw [hold] at hcall
    rw [hdb]
    exact hs.publish hcall

variable [DecidableEq ι] {client : ι}

/-- When a call has begun, the other clients are in the calls they were in. -/
theorem mem_writeCall_tick {c : ι} {begun : ℕ} {call call' : WriteCall} {pc : WritePc}
    (hcall : call' ∈ ((s.tick client (.writing begun call pc)).thread c).writeCall) :
    (c = client ∧ call' = call) ∨ call' ∈ (s.thread c).writeCall := by
  by_cases hc : c = client
  · rw [hc, thread_tick_self] at hcall
    cases hcall
    exact Or.inl ⟨hc, rfl⟩
  · rw [thread_tick_of_ne hc] at hcall
    exact Or.inr hcall

/-- A step leaves all clients in the calls they were in. -/
theorem writeCall_afterWriteStep {begun : ℕ} {call : WriteCall} {pc : WritePc} {step : WriteStep}
    (hthread : s.thread client = .writing begun call pc) (c : ι) :
    ((s.afterWriteStep client begun call step).thread c).writeCall = (s.thread c).writeCall := by
  by_cases hc : c = client
  · rw [hc, thread_afterWriteStep_self, hthread]
    rfl
  · rw [thread_afterWriteStep_of_ne hc]

/-- A call has begun. -/
theorem Orderly.beginWrite {es : List (SharedEvent ι)} (hs : s.Orderly) (haccount : Accounted es s)
    {call : WriteCall} (hfirst : s.FirstAlone (.write client call)) :
    (s.tick client (.writing s.now call .get)).Orderly := by
  -- no other call on the index is on its way if there is no record
  have halone : s.db.keyTable.get call.index = none →
      ∀ c, ∀ call' ∈ (s.thread c).writeCall, call'.index ≠ call.index := by
    intro hget
    refine hfirst.resolve_left ?_
    rintro ⟨ret, hret, hindex⟩
    have hrecord := haccount.returned ret hret
    rw [hindex, recordTable_of_none hget] at hrecord
    cases hrecord
  refine ⟨fun {c c' call₁ call₂} hcall hcall' hget hindex => ?_, fun {c call'} hcall => ?_⟩
  · rcases mem_writeCall_tick hcall with ⟨rfl, rfl⟩ | hold
    · rcases mem_writeCall_tick hcall' with ⟨rfl, -⟩ | hold'
      · rfl
      · exact absurd hindex (halone hget _ _ hold')
    · rcases mem_writeCall_tick hcall' with ⟨rfl, rfl⟩ | hold'
      · rw [← hindex] at hget
        exact absurd hindex.symm (halone hget _ _ hold)
      · exact hs.first hold hold' hget hindex
  · by_cases hc : c = client
    · rw [hc, thread_tick_self] at hcall
      cases hcall
    · rw [thread_tick_of_ne hc] at hcall
      exact hs.publish hcall

/-- A call has made a step. -/
theorem Orderly.afterWriteStep (hs : s.Orderly) (hdb : s.db.WellFormed) {begun : ℕ}
    {call : WriteCall} {pc : WritePc} {step : WriteStep}
    (hthread : s.thread client = .writing begun call pc)
    (hmove : WriteMove call s.db pc step.db step.pc) :
    (s.afterWriteStep client begun call step).Orderly := by
  have hgrows := hmove.grows hdb
  have hnone : ∀ {index : Str}, step.db.keyTable.get index = none →
      s.db.keyTable.get index = none := by
    intro index hget
    cases hold : s.db.keyTable.get index with
    | none => rfl
    | some handle =>
        rw [hgrows.published hold] at hget
        cases hget
  have hmem : call ∈ (s.thread client).writeCall := by
    rw [hthread]
    rfl
  refine ⟨fun hcall hcall' hget hindex => ?_, fun {c call'} hcall => ?_⟩
  · rw [writeCall_afterWriteStep hthread] at hcall hcall'
    exact hs.first hcall hcall' (hnone hget) hindex
  · by_cases hc : c = client
    · rw [hc, thread_afterWriteStep_self] at hcall
      obtain ⟨db, wrote, pc'⟩ := step
      cases hmove with
      | missing hget =>
          cases hcall
          exact hget
      | found _ hwork | publish hwork =>
          cases pc' with
          | publish => cases hwork
          | _ => cases hcall
      | finish => cases hcall
      | set _ _ _ hnext =>
          cases pc' with
          | publish => rcases hnext with hnext | hnext | ⟨_, hnext⟩ <;> cases hnext
          | _ => cases hcall
    · rw [thread_afterWriteStep_of_ne hc] at hcall
      have hget := hs.publish hcall
      refine hmove.get_eq_none call'.nulFree_index (fun hindex => hc ?_) hget
      exact (hs.first (Thread.writeCall_of_publishing hcall) hmem hget hindex.symm).symm

/-- Every event that begins no call next to the first keeps the order. -/
theorem Orderly.step {es : List (SharedEvent ι)} (hs : s.Orderly) (haccount : Accounted es s)
    {e : SharedEvent ι} (hfirst : s.FirstAlone e) (hstep : machine.step s e = some s') :
    s'.Orderly := by
  have htick : ∀ {client : ι} {thread : Thread}, thread.writeCall = none →
      ∀ c, (Function.update s.thread client thread c).writeCall = none ∨
        Function.update s.thread client thread c = s.thread c := by
    intro client thread hnone c
    by_cases hc : c = client
    · rw [hc, Function.update_self]
      exact Or.inl hnone
    · exact Or.inr (Function.update_of_ne hc _ _)
  cases moved_of_step hstep with
  | beginWrite call => exact hs.beginWrite haccount hfirst
  | write hthread hcall =>
      exact hs.afterWriteStep haccount.wellFormed hthread (WriteCall.move_of_step hcall)
  | beginRead | returnWrite | read | returnRead => exact hs.of_subset rfl (htick rfl)

end Steps

/-- When every call begins alone on its index or after one on it has returned, no write is
lost that a call has acknowledged. -/
theorem noLostWrites_of_firstAlone [DecidableEq ι] {s : SharedDB ι} {es : List (SharedEvent ι)}
    (hrun : machine.run start es = some s) (hfirst : machine.Along FirstAlone start es) :
    s.NoLostWrites := by
  suffices h : machine.Reaches start s ∧ s.Orderly ∧ s.Consistent from h.2.2.noLostWrites
  refine machine.run_invariant_of_along
    (I := fun s => machine.Reaches start s ∧ s.Orderly ∧ s.Consistent) ?_
    ⟨.refl _ _, orderly_start, consistent_start⟩ hfirst hrun
  rintro s e s' ⟨⟨before, hbefore⟩, horderly, hconsistent⟩ hfirst hstep
  exact ⟨⟨before ++ [e], Machine.run_concat hbefore hstep⟩,
    horderly.step (accounted_of_run hbefore) hfirst hstep,
    hconsistent.step (horderly.publishesNew e) hstep⟩

/-- Two clients update the record at the same time after one of them has made it, and one of
them reads it. -/
def together : List (SharedEvent Bool) :=
  [.write false (updateBoth (['a'], ['5']) (['b'], ['6']) (by decide) (by decide)),
    .write true (updateBoth (['a'], ['7']) (['b'], ['8']) (by decide) (by decide))] ++
    (List.replicate 5 [.step false, .step true]).flatten ++ .read false readBoth :: List.replicate 5 (.step false)

/-- The theorem at these calls. -/
theorem noLostWrites_together :
    ∃ s, machine.run start (made ++ together) = some s ∧ s.NoLostWrites := by
  obtain ⟨s, hrun⟩ := Option.isSome_iff_exists.mp
    (show (machine.run start (made ++ together)).isSome = true by decide +kernel)
  exact ⟨s, hrun, noLostWrites_of_firstAlone hrun (by decide +kernel)⟩

end SharedDB

end YcsbC
