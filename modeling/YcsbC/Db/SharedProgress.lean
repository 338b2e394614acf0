import YcsbC.Db.SharedHistory

/-!
# Progress of calls on a shared database

A step of `Insert` or `Update` takes the call further in the sense of `WriteProgress`,
if the field table that it publishes is the first of its index (`Consistent.stepOk`), and
a step of `Read` in the sense of `ReadProgress` (`Consistent.readStep`).
-/

namespace YcsbC

open HashtableDB

namespace SharedDB

variable {ι : Type*}

/-! ## Steps of `Insert` and `Update` -/

section WriteStep

variable {s : SharedDB ι} {start : ℕ} {call : WriteCall} {handle : Handle} {pair : KVPair}
  {rest : List KVPair}

theorem loop_values (hget : s.db.keyTable.get call.index = some handle) :
    s.Loop start call handle call.values :=
  ⟨hget, fun _ hmem => hmem, fun _ hmem => Or.inl hmem⟩

/-- A loop has passed a pair whose field is settled. -/
theorem Loop.next (hloop : s.Loop start call handle (pair :: rest))
    (hsettled : s.Settled start call.index pair.1) : s.Loop start call handle rest where
  published := hloop.published
  subset pair' hmem := hloop.subset pair' (List.mem_cons_of_mem _ hmem)
  settled pair' hmem := by
    rcases hloop.settled pair' hmem with hrest | hsettled'
    · rcases List.mem_cons.mp hrest with rfl | hrest
      · exact Or.inr hsettled
      · exact Or.inl hrest
    · exact Or.inr hsettled'

theorem Loop.nulFree (hloop : s.Loop start call handle (pair :: rest)) :
    NulFree pair.1 ∧ NulFree pair.2 :=
  call.nulFree_values pair (hloop.subset pair List.mem_cons_self)

/-- A field that has a value, which is not older than the call, is settled. -/
theorem NotOlder.settled (hs : s.Consistent) {field : Str} (hfield : NulFree field)
    (hnot : s.NotOlder start call.index field)
    (hvalue : s.db.fieldValue call.index field ≠ none) : s.Settled start call.index field := by
  rw [hs.holds call.nulFree_index hfield, Ne, Option.map_eq_none_iff] at hvalue
  obtain ⟨stamp, hlast⟩ := Option.ne_none_iff_exists'.mp hvalue
  exact ⟨stamp, hlast, hnot stamp hlast⟩

variable [DecidableEq ι] {client : ι} {step : WriteStep}

theorem extends_tick (s : SharedDB ι) (client : ι) (thread : Thread) (actor : ℕ) :
    s.Extends actor (s.tick client thread) :=
  extends_of_eq actor rfl rfl rfl rfl

theorem extends_afterWriteStep (heffect : WriteEffect s.db call.index step.wrote step.db) :
    s.Extends start (s.afterWriteStep client start call step) := by
  refine ⟨rfl, heffect.published, ⟨_, rfl, fun write hmem => ?_⟩,
    ⟨[], (List.append_nil _).symm, nofun⟩⟩
  obtain ⟨pair, -, rfl⟩ := List.mem_map.mp hmem
  exact ⟨rfl, rfl⟩

/-- The history of a step that has written a pair ends with it. -/
theorem last_afterWriteStep (s : SharedDB ι) (client : ι) (start : ℕ) (call : WriteCall)
    (step : WriteStep) (key : Str × Str) :
    (s.afterWriteStep client start call step).writes.last key =
      match step.wrote with
      | none => s.writes.last key
      | some pair => if (call.index, pair.1) = key then some ⟨pair.2, start, s.now⟩
          else s.writes.last key := by
  rw [afterWriteStep]
  cases step.wrote with
  | none => exact congrArg (fun log => WriteLog.last log key) (List.append_nil _)
  | some pair => exact WriteLog.last_append_singleton _ _ _

theorem holds_afterWriteStep (hs : s.Consistent)
    (heffect : WriteEffect s.db call.index step.wrote step.db) {index field : Str}
    (hindex : NulFree index) (hfield : NulFree field) :
    (s.afterWriteStep client start call step).db.fieldValue index field =
      ((s.afterWriteStep client start call step).writes.last (index, field)).map Stamp.value := by
  rw [last_afterWriteStep]
  refine (heffect.fieldValue hindex hfield).trans ?_
  cases step.wrote with
  | none => exact hs.holds hindex hfield
  | some pair =>
      dsimp only
      split
      · rfl
      · exact hs.holds hindex hfield

/-- A step that has written a pair has settled its field. -/
theorem settled_afterWriteStep (hstart : start ≤ s.now) (hwrote : step.wrote = some pair) :
    (s.afterWriteStep client start call step).Settled start call.index pair.1 := by
  refine ⟨⟨pair.2, start, s.now⟩, ?_, hstart⟩
  rw [last_afterWriteStep, hwrote]
  exact if_pos rfl

/-- A step of a call has the effect of one write, of a pair of the call, and takes the
call further. -/
structure StepOk (s : SharedDB ι) (client : ι) (start : ℕ) (call : WriteCall)
    (step : WriteStep) : Prop where
  effect : WriteEffect s.db call.index step.wrote step.db
  wrote : ∀ pair, step.wrote = some pair → pair ∈ call.values
  progress : (s.afterWriteStep client start call step).WriteProgress start call step.pc

/-- A step that changes nothing. -/
theorem stepOk_refl (hs : s.Consistent) {pc : WritePc}
    (hprogress : (s.afterWriteStep client start call ⟨s.db, none, pc⟩).WriteProgress start call pc) :
    s.StepOk client start call ⟨s.db, none, pc⟩ :=
  ⟨hs.wellFormed.writeEffect_refl _, nofun, hprogress⟩

/-- A step on the next pair of a loop, which writes it or writes nothing. -/
theorem stepOk_of_pair (hstart : start ≤ s.now)
    (hloop : s.Loop start call handle (pair :: rest))
    (heffect : WriteEffect s.db call.index step.wrote step.db) {next other : WritePc}
    {writes skips : Prop}
    (hcases : (writes ∧ step.wrote = some pair ∧ step.pc = next) ∨
      (skips ∧ step.wrote = none ∧ step.pc = other))
    (hnext : s.Extends start (s.afterWriteStep client start call step) →
      (s.afterWriteStep client start call step).Loop start call handle rest →
        (s.afterWriteStep client start call step).WriteProgress start call next)
    (hother : s.Extends start (s.afterWriteStep client start call step) → skips →
      step.wrote = none → (s.afterWriteStep client start call step).WriteProgress start call other) :
    s.StepOk client start call step := by
  have hext : s.Extends start (s.afterWriteStep client start call step) :=
    extends_afterWriteStep heffect
  rcases hcases with ⟨-, hwrote, hpc⟩ | ⟨hskips, hwrote, hpc⟩
  · refine ⟨heffect, fun pair' hpair => ?_, ?_⟩
    · cases hwrote.symm.trans hpair
      exact hloop.subset pair List.mem_cons_self
    · rw [hpc]
      exact hnext hext ((hloop.mono hext hstart).next (settled_afterWriteStep hstart hwrote))
  · refine ⟨heffect, fun pair' hpair => ?_, ?_⟩
    · cases hwrote.symm.trans hpair
    · rw [hpc]
      exact hother hext hskips hwrote

/-- `Insert` of the next pair of a loop. -/
theorem Consistent.insertStep (hs : s.Consistent) (hstart : start ≤ s.now)
    (hloop : s.Loop start call handle (pair :: rest)) {next conflict : WritePc}
    (hstep : YcsbC.insertStep s.db handle pair next conflict = some step)
    (hnext : s.Extends start (s.afterWriteStep client start call step) →
      (s.afterWriteStep client start call step).Loop start call handle rest →
        (s.afterWriteStep client start call step).WriteProgress start call next)
    (hconflict : s.Extends start (s.afterWriteStep client start call step) →
      s.db.fieldValue call.index pair.1 ≠ none →
        (s.afterWriteStep client start call step).WriteProgress start call conflict) :
    s.StepOk client start call step := by
  obtain ⟨heffect, hcases⟩ := insertStep_spec hs.wellFormed call.nulFree_index hloop.published
    hloop.nulFree hstep
  exact stepOk_of_pair hstart hloop heffect hcases hnext fun hext hvalue _ => hconflict hext hvalue

/-- `Update` of the next pair of a loop. -/
theorem Consistent.updateStep (hs : s.Consistent) (hstart : start ≤ s.now)
    (hloop : s.Loop start call handle (pair :: rest))
    (hstep : YcsbC.updateStep s.db handle pair (.updateField handle rest)
      (.insertMissing handle pair rest) = some step) :
    s.StepOk client start call step := by
  obtain ⟨heffect, hcases⟩ := updateStep_spec hs.wellFormed call.nulFree_index hloop.published
    hloop.nulFree hstep
  refine stepOk_of_pair hstart hloop heffect hcases (fun _ hloop' => hloop')
    fun hext hvalue hwrote => ⟨hloop.mono hext hstart, fun stamp hlast => ?_⟩
  -- the field has no value, so none from before the call
  rw [last_afterWriteStep, hwrote] at hlast
  rw [hs.holds call.nulFree_index hloop.nulFree.1, Option.map_eq_none_iff] at hvalue
  cases hvalue.symm.trans hlast

/-- A new field table holds no value from before the call. -/
theorem notOlder_publish (hs : s.Consistent) (hget : s.db.keyTable.get call.index = none)
    (hext : s.Extends start (s.afterWriteStep client start call step)) (hstart : start ≤ s.now)
    (hmem : pair ∈ call.values) :
    (s.afterWriteStep client start call step).NotOlder start call.index pair.1 := by
  refine NotOlder.mono hext (fun stamp hlast => ?_) hstart
  have hvalue := hs.holds call.nulFree_index (call.nulFree_values pair hmem).1
  rw [fieldValue, recordTable_of_none hget, Option.bind_none, hlast] at hvalue
  cases hvalue

/-- The next step of a call. -/
theorem Consistent.stepOk (hs : s.Consistent) (hstart : start ≤ s.now) {pc : WritePc}
    (hprogress : s.WriteProgress start call pc)
    (hpublish : pc = .publish → s.db.keyTable.get call.index = none)
    (hstep : call.step s.db pc = some step) : s.StepOk client start call step := by
  cases pc with
  | get =>
      rw [WriteCall.step] at hstep
      cases hget : s.db.keyTable.get call.index with
      | none =>
          rw [hget] at hstep
          cases hstep
          exact stepOk_refl hs trivial
      | some handle =>
          rw [hget] at hstep
          cases hop : call.op with
          | insert =>
              simp only [hop] at hstep
              cases hstep
              exact stepOk_refl hs (loop_values hget)
          | update =>
              simp only [hop] at hstep
              cases hstep
              exact stepOk_refl hs (loop_values hget)
  | publish =>
      have hget := hpublish rfl
      have heffect := hs.wellFormed.writeEffect_publish call.nulFree_index hget
      have hhandle := (sets_publish hs.wellFormed hget).2
      rw [WriteCall.step] at hstep
      cases hop : call.op with
      | insert =>
          simp only [hop] at hstep
          cases hstep
          exact ⟨heffect, nofun, loop_values hhandle⟩
      | update =>
          simp only [hop] at hstep
          cases hstep
          exact ⟨heffect, nofun, loop_values hhandle, fun pair hmem =>
            notOlder_publish hs hget (extends_afterWriteStep heffect) hstart hmem⟩
  | insertField handle rest =>
      cases rest with
      | nil =>
          cases hstep
          exact stepOk_refl hs fun _ => ⟨handle, Loop.mono
            (extends_afterWriteStep (hs.wellFormed.writeEffect_refl _)) hprogress hstart⟩
      | cons pair rest =>
          exact hs.insertStep hstart hprogress hstep (fun _ hloop => hloop)
            fun _ _ hstatus => absurd hstatus (by decide)
  | updateNewField handle rest =>
      obtain ⟨hloop, hnot⟩ := hprogress
      cases rest with
      | nil =>
          cases hstep
          exact stepOk_refl hs fun _ => ⟨handle, hloop.mono
            (extends_afterWriteStep (hs.wellFormed.writeEffect_refl _)) hstart⟩
      | cons pair rest =>
          have hnot' : s.Extends start (s.afterWriteStep client start call step) →
              ∀ pair ∈ call.values,
                (s.afterWriteStep client start call step).NotOlder start call.index pair.1 :=
            fun hext pair hmem => NotOlder.mono hext (hnot pair hmem) hstart
          refine hs.insertStep hstart hloop hstep (fun hext hloop' => ⟨hloop', hnot' hext⟩)
            fun hext hvalue => ⟨?_, hnot' hext⟩
          have hmem := hloop.subset pair List.mem_cons_self
          have hsettled := (hnot pair hmem).settled hs hloop.nulFree.1 hvalue
          exact (hloop.mono hext hstart).next (hsettled.mono hext hstart)
  | updateField handle rest =>
      cases rest with
      | nil =>
          cases hstep
          exact stepOk_refl hs fun _ => ⟨handle, Loop.mono
            (extends_afterWriteStep (hs.wellFormed.writeEffect_refl _)) hprogress hstart⟩
      | cons pair rest => exact hs.updateStep hstart hprogress hstep
  | insertMissing handle pair rest =>
      obtain ⟨hloop, hnot⟩ := hprogress
      refine hs.insertStep hstart hloop hstep (fun _ hloop' => hloop') fun hext hvalue => ?_
      have hsettled := hnot.settled hs hloop.nulFree.1 hvalue
      exact (hloop.mono hext hstart).next (hsettled.mono hext hstart)
  | done status => cases hstep

end WriteStep

/-! ## Steps of `Read` -/

section ReadStep

variable {s : SharedDB ι} {start : ℕ} {call : ReadCall}

/-- The index of a call that has returned `kOK` is published. -/
theorem Consistent.published (hs : s.Consistent) {index : Str} {ret : WriteReturn}
    (hack : s.Acknowledged start index ret) :
    ∃ handle, s.db.keyTable.get index = some handle := by
  obtain ⟨handle, hloop⟩ := (hs.returned ret hack.mem).settled hack.status
  exact ⟨handle, hack.index ▸ hloop.published⟩

/-- What the record has for a field is found. -/
theorem Consistent.found (hs : s.Consistent) {index field : Str} (hindex : NulFree index)
    {result : List KVPair}
    (hresult : ∀ value, NulFree field → s.db.fieldValue index field = some value →
      (field, value) ∈ result) : s.Found start index field result := by
  intro ret hack hfield
  obtain ⟨pair, hmem, rfl⟩ := List.mem_map.mp hfield
  obtain ⟨handle, hloop⟩ := (hs.returned ret hack.mem).settled hack.status
  obtain ⟨stamp, hlast, htime⟩ := (hloop.settled pair hmem).resolve_left List.not_mem_nil
  rw [hack.index] at hlast
  have hfree := (ret.call.nulFree_values pair hmem).1
  refine ⟨stamp, WriteLog.mem_of_last_eq_some hlast, hresult _ hfree ?_, htime⟩
  rw [hs.holds hindex hfree, hlast]
  rfl

theorem Found.append {index field : Str} {result : List KVPair}
    (hfound : s.Found start index field result) (new : List KVPair) :
    s.Found start index field (result ++ new) := by
  intro ret hack hfield
  obtain ⟨stamp, hmem, hresult, htime⟩ := hfound ret hack hfield
  exact ⟨stamp, hmem, List.mem_append_left _ hresult, htime⟩

/-- `Get` of the next field. -/
theorem Consistent.getField (hs : s.Consistent) {handle : Handle} {field : Str} {rest : List Str}
    {result : List KVPair} (hprogress : s.ReadProgress start call (.getField handle (field :: rest) result))
    {new : List KVPair} (hnew : ∀ value, s.db.fieldValue call.index field = some value →
      (field, value) ∈ new) :
    s.ReadProgress start call (.getField handle rest (result ++ new)) := by
  refine ⟨hprogress.1, fun field' hasks => ?_⟩
  rcases hprogress.2 field' hasks with hmem | hfound
  · rcases List.mem_cons.mp hmem with rfl | hmem
    · exact Or.inr (hs.found call.nulFree_index fun value _ hvalue =>
        List.mem_append_right _ (hnew value hvalue))
    · exact Or.inl hmem
  · exact Or.inr (hfound.append _)

/-- The next step of a `Read`. -/
theorem Consistent.readStep (hs : s.Consistent) {pc pc' : ReadPc}
    (hprogress : s.ReadProgress start call pc) (hstep : call.step s.db pc = some pc') :
    s.ReadProgress start call pc' := by
  cases pc with
  | get =>
      rw [ReadCall.step] at hstep
      cases hget : s.db.keyTable.get call.index with
      | none =>
          rw [hget] at hstep
          cases hstep
          -- so no call on this index has returned `kOK`
          have hnone : ∀ ret, ¬ s.Acknowledged start call.index ret := by
            intro ret hack
            obtain ⟨handle, hhandle⟩ := hs.published hack
            cases hget.symm.trans hhandle
          exact ⟨fun ret hack => absurd hack (hnone ret), fun _ _ ret hack =>
            absurd hack (hnone ret)⟩
      | some handle =>
          rw [hget] at hstep
          cases hfields : call.fields with
          | none =>
              simp only [hfields] at hstep
              cases hstep
              exact hget
          | some fields =>
              simp only [hfields] at hstep
              cases hstep
              exact ⟨hget, fun field hasks => Or.inl (hasks fields hfields)⟩
  | entries handle =>
      obtain ⟨fieldTable, hfields, hrecord⟩ := exists_recordTable hs.wellFormed hprogress
      rw [ReadCall.step, hfields] at hstep
      cases hstep
      refine ⟨fun _ _ => rfl, fun field _ => hs.found call.nulFree_index fun value hfree hvalue => ?_⟩
      rw [fieldValue_of_recordTable hrecord] at hvalue
      exact StlHashtable.mem_entries.mpr ⟨hfree, hvalue⟩
  | getField handle rest result =>
      cases rest with
      | nil =>
          cases hstep
          exact ⟨fun _ _ => rfl, fun field hasks =>
            (hprogress.2 field hasks).resolve_left List.not_mem_nil⟩
      | cons field rest =>
          obtain ⟨fieldTable, hfields, hrecord⟩ := exists_recordTable hs.wellFormed hprogress.1
          have hvalue := fieldValue_of_recordTable hrecord field
          rw [ReadCall.step, hfields, Option.map_some] at hstep
          cases hfield : fieldTable.get field with
          | none =>
              simp only [hfield] at hstep hvalue
              cases hstep
              rw [← List.append_nil result]
              exact hs.getField hprogress fun value hsome => by cases hvalue.symm.trans hsome
          | some value =>
              simp only [hfield] at hstep hvalue
              cases hstep
              refine hs.getField hprogress fun value' hsome => ?_
              cases hvalue.symm.trans hsome
              exact List.mem_cons_self
  | done status result => cases hstep

end ReadStep

end SharedDB

end YcsbC
