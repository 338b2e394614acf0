import YcsbC.Main.OperationCount

/-!
# Whether transaction inserts are fresh

`TransactionInsert` takes its key from `NextSequenceKey`, the counter used for loading
data.  `Init` sets this counter to `insertstart`, so in a process that only runs
transactions it hands out the keys of the loaded records again; the counter that
`Init` sets to `recordcount` is not asked.  In a process that loads the records first
the counter has moved past them, and all keys are fresh.
-/

namespace YcsbC

/-- The patterns that include the run phase. -/
inductive RunPattern where
  | run
  | both
deriving DecidableEq

namespace Phase

open DelegateClient

variable {p : Properties}

/-- The store holds exactly the records whose keys a load of `recordcount` records
from `insertstart` on takes. -/
def Loaded (p : Properties) (stored : List UInt64) : Prop :=
  ∀ keyNum, keyNum ∈ stored ↔ p.insertStart.toInt ≤ keyNum.toNat ∧
    (keyNum.toNat : ℤ) < p.insertStart.toInt + p.recordCount.toInt

/-- How the run phase starts: in a new process on a loaded store, or after the load
phase of this process, which has loaded the store. -/
inductive RunStart (p : Properties) : RunPattern → Phase p.numThreads → Prop
  | run {stored : List UInt64} : Loaded p stored →
      RunStart p .run (start p false (.init p) stored)
  | both {es : List (ClientEvent p.numThreads)} {s : Phase p.numThreads} :
      (machine _).run (start p true (.init p) []) es = some s → s.Finished →
      Loaded p s.stored → RunStart p .both (start p false s.wl s.stored)

/-- A key number that is taken for an insert is not stored yet. -/
def TakesFresh {T : ℕ} (s : Phase T) (e : ClientEvent T) : Prop :=
  ∀ c, e = .take c → s.wl.nextSequenceKeyNum.1 ∉ s.stored

theorem toNat_counter_init (hstart : 0 ≤ p.insertStart.toInt) :
    ((CoreWorkload.init p).keyGenerator.counter.toNat : ℤ) = p.insertStart.toInt := by
  rw [CoreWorkload.keyGenerator_init, toNat_sizeOfInt hstart, Int.toNat_of_nonneg hstart]

/-- A load that has filled the store has moved the counter past the loaded keys. -/
theorem toNat_counter_of_loaded (hinsert : 0 ≤ p.insertStart.toInt)
    (hrecords : 1 ≤ p.recordCount.toInt) {es : List (ClientEvent p.numThreads)}
    {s : Phase p.numThreads} (hrun : (machine _).run (start p true (.init p) []) es = some s)
    (hfinished : s.Finished) (hloaded : Loaded p s.stored) :
    (s.wl.keyGenerator.counter.toNat : ℤ) = p.insertStart.toInt + p.recordCount.toInt := by
  obtain ⟨new, hstored, hnew, hwl⟩ := stored_of_finished hrun hfinished
  have hexecuted := executed_of_finished hrun hfinished
  have hle := p.performedOps_le true
  rw [← hexecuted, Properties.totalOps, if_pos rfl] at hle
  have hinit := toNat_counter_init hinsert
  have hlt := Int32.toInt_lt p.insertStart
  have hltRecords := Int32.toInt_lt p.recordCount
  -- the last loaded key is one of those the load has taken
  let last := UInt64.ofNat (p.insertStart.toInt + p.recordCount.toInt - 1).toNat
  have hlast : (last.toNat : ℤ) = p.insertStart.toInt + p.recordCount.toInt - 1 := by
    rw [UInt64.toNat_ofNat', Nat.mod_eq_of_lt (by omega)]
    omega
  have hmem : last ∈ handedOut (CoreWorkload.init p).keyGenerator.counter s.executed := by
    rw [← hnew, Multiset.mem_coe, ← List.append_nil new, ← hstored, hloaded]
    omega
  rw [mem_handedOut_iff (by omega)] at hmem
  rw [hwl, toNat_add_ofNat (by omega)]
  omega

/-- In a process that has loaded the store every insert takes a fresh key. -/
theorem takesFresh_of_both (hinsert : 0 ≤ p.insertStart.toInt)
    (hrecords : 1 ≤ p.recordCount.toInt) {s₀ : Phase p.numThreads}
    (hstart : RunStart p .both s₀) (es : List (ClientEvent p.numThreads)) :
    (machine _).Along TakesFresh s₀ es := by
  cases hstart with
  | @both _ sl hrun hfinished hloaded =>
      have hcounter := toNat_counter_of_loaded hinsert hrecords hrun hfinished hloaded
      have hlt := Int32.toInt_lt p.insertStart
      have hltRecords := Int32.toInt_lt p.recordCount
      refine (machine _).along_of_invariant
        (I := fun s => ∃ new taken, Progress (start p false sl.wl sl.stored) new taken s)
        (fun _ _ _ ⟨_, _, hprogress⟩ hstep => hprogress.step hstep) ?_
        ⟨[], 0, Progress.refl fresh_start⟩ es
      rintro s e ⟨new, taken, hprogress⟩ c -
      have htaken := hprogress.taken_le
      have hops := p.performedOps_lt false
      rw [turns_start] at htaken
      have hkeyNum : (s.wl.nextSequenceKeyNum.1.toNat : ℤ) =
          p.insertStart.toInt + p.recordCount.toInt + taken := by
        rw [hprogress.nextSequenceKeyNum, wl_start, toNat_add_ofNat (by omega)]
        omega
      rw [hprogress.stored, List.mem_append, not_or]
      constructor
      · -- the keys stored in this phase come before the next one
        intro hmem
        have hhanded := hprogress.mem_handedOut hmem
        rw [wl_start, mem_handedOut_iff (by omega)] at hhanded
        omega
      · -- so do the loaded ones
        intro hmem
        have hrange := (hloaded _).mp hmem
        omega

/-- In a process that only runs transactions the first insert takes a key that is
stored already. -/
theorem no_take_of_run (hinsert : 0 ≤ p.insertStart.toInt) (hrecords : 1 ≤ p.recordCount.toInt)
    {stored : List UInt64} (hloaded : Loaded p stored) {es : List (ClientEvent p.numThreads)}
    {s s' : Phase p.numThreads} {new : List UInt64}
    (hprogress : Progress (start p false (.init p) stored) new 0 s)
    (hrun : (machine _).run s es = some s') (hfresh : (machine _).Along TakesFresh s es)
    (c : Fin p.numThreads) : ClientEvent.take c ∉ es := by
  induction es generalizing s new with
  | nil => exact List.not_mem_nil
  | cons e es ih =>
      obtain ⟨s₁, hstep, hrun₁⟩ := (machine _).run_cons_eq_some.mp hrun
      have hrest := hfresh.2 s₁ hstep
      cases e with
      | take c' =>
          refine absurd ?_ (hfresh.1 c' rfl)
          have hcounter := toNat_counter_init hinsert
          have hlt := Int32.toInt_lt p.insertStart
          rw [hprogress.nextSequenceKeyNum, hprogress.stored, List.mem_append]
          refine Or.inr ((hloaded _).mpr ?_)
          rw [wl_start, toNat_add_ofNat (by omega)]
          omega
      | store c' =>
          obtain ⟨keyNum, -, hprogress'⟩ := hprogress.store hstep
          rw [List.mem_cons, not_or]
          exact ⟨nofun, ih hprogress' hrun₁ hrest⟩
      | other c' op =>
          rw [List.mem_cons, not_or]
          exact ⟨nofun, ih (hprogress.other hstep) hrun₁ hrest⟩

/-- Every insert of the run phase takes a fresh key exactly when the process has
loaded the store itself or there are no inserts. -/
theorem along_takesFresh_iff (hinsert : 0 ≤ p.insertStart.toInt)
    (hrecords : 1 ≤ p.recordCount.toInt) {pattern : RunPattern} {s₀ s : Phase p.numThreads}
    (hstart : RunStart p pattern s₀) {es : List (ClientEvent p.numThreads)}
    (hrun : (machine _).run s₀ es = some s) :
    (machine _).Along TakesFresh s₀ es ↔ pattern = .both ∨ ∀ c, ClientEvent.take c ∉ es := by
  constructor
  · intro hfresh
    cases hstart with
    | run hloaded =>
        exact Or.inr (no_take_of_run hinsert hrecords hloaded (Progress.refl fresh_start) hrun
          hfresh)
    | both => exact Or.inl rfl
  · rintro (rfl | hno)
    · exact takesFresh_of_both hinsert hrecords hstart es
    · refine ((machine _).along_iff hrun).mpr fun es₁ e es₂ s₁ hsplit _ c he => ?_
      refine absurd ?_ (hno c)
      rw [hsplit, he]
      exact List.mem_append_right _ List.mem_cons_self

/-- One record loaded before, and one operation. -/
def oneRecord : Properties := { recordCount := 1, operationCount := 1 }

/-- The record that the load of another process has stored. -/
theorem loaded_oneRecord : Loaded oneRecord [0] := by
  intro keyNum
  have hstart : oneRecord.insertStart.toInt = 0 := by decide
  have hcount : oneRecord.recordCount.toInt = 1 := by decide
  rw [List.mem_singleton, ← UInt64.toNat_inj, hstart, hcount, UInt64.toNat_zero]
  omega

/-- The one operation, an insert. -/
def oneInsert : List (ClientEvent oneRecord.numThreads) :=
  let client : Fin oneRecord.numThreads := ⟨0, by decide⟩
  [.take client, .store client]

/-- The theorem at this insert, in a process that only runs transactions. -/
theorem along_takesFresh_iff_oneRecord :
    (machine _).Along TakesFresh (start oneRecord false (.init oneRecord) [0]) oneInsert ↔
      RunPattern.run = .both ∨ ∀ c, ClientEvent.take c ∉ oneInsert := by
  obtain ⟨s, hrun⟩ : ∃ s, (machine _).run (start oneRecord false (.init oneRecord) [0])
      oneInsert = some s := ⟨_, rfl⟩
  exact along_takesFresh_iff (by decide) (by decide) (.run loaded_oneRecord) hrun

/-- The insert takes key 0, which is stored. -/
theorem not_takesFresh_oneRecord :
    RunStart oneRecord .run (start oneRecord false (.init oneRecord) [0]) ∧
      (∃ s, (machine _).run (start oneRecord false (.init oneRecord) [0]) oneInsert = some s) ∧
      ¬ (machine _).Along TakesFresh (start oneRecord false (.init oneRecord) [0]) oneInsert := by
  refine ⟨.run loaded_oneRecord, ⟨_, rfl⟩, fun hfresh => ?_⟩
  have hnot := hfresh.1 _ rfl
  revert hnot
  decide

end Phase

end YcsbC
