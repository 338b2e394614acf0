import YcsbC.Main.Phase

/-!
# How many operations a phase performs

`main` gives each of its threads `total_ops / num_threads` operations and drops the
remainder of this quotient, while it reports `total_ops` operations and the workload
reads keys below `recordcount`.  A phase always comes to an end, and it has then
performed what it reports exactly when the number of threads divides `total_ops`.
-/

namespace YcsbC

/-- The operations that the throughput line of a phase divides by the duration. -/
def Properties.throughputOps (p : Properties) (isLoading : Bool) : Int32 := p.totalOps isLoading

namespace Phase

variable {p : Properties} {isLoading : Bool} {wl : CoreWorkload} {stored : List UInt64}

/-- A phase has performed what it reports: as many operations as the throughput line
counts, and in the load phase the inserts of that many consecutive keys. -/
def PerformsAsReported (p : Properties) (isLoading : Bool) (wl : CoreWorkload)
    (s : Phase p.numThreads) : Prop :=
  (s.executed : ℤ) = (p.throughputOps isLoading).toInt ∧
    (isLoading = true → ∀ i : ℕ, (i : ℤ) < (p.totalOps isLoading).toInt →
      wl.keyGenerator.counter + UInt64.ofNat i ∈ s.stored)

/-- What the threads of a phase have executed when all have returned. -/
theorem executed_of_finished {es : List (ClientEvent p.numThreads)} {s : Phase p.numThreads}
    (hrun : (machine _).run (start p isLoading wl stored) es = some s) (hfinished : s.Finished) :
    s.executed = p.performedOps isLoading := by
  obtain ⟨new, taken, hprogress⟩ := progress_run fresh_start hrun
  rw [hfinished.executed_eq hprogress.within, hprogress.turns, turns_start]

/-- The keys stored when all threads of a load have returned. -/
theorem stored_of_finished {es : List (ClientEvent p.numThreads)} {s : Phase p.numThreads}
    (hrun : (machine _).run (start p true wl stored) es = some s) (hfinished : s.Finished) :
    ∃ new : List UInt64, s.stored = new ++ stored ∧
      ↑new = handedOut wl.keyGenerator.counter s.executed ∧
      s.wl = { wl with keyGenerator := ⟨wl.keyGenerator.counter + UInt64.ofNat s.executed⟩ } := by
  obtain ⟨new, taken, hprogress⟩ := progress_run fresh_start hrun
  have htaken : taken = s.executed := by
    rw [hprogress.taken_eq, hfinished.heldKeys_eq, Multiset.card_zero, Nat.add_zero,
      hprogress.new_eq rfl]
  refine ⟨new, hprogress.stored, ?_, htaken ▸ hprogress.wl⟩
  have hkeys := hprogress.keys
  rw [hfinished.heldKeys_eq, add_zero, htaken] at hkeys
  exact hkeys

/-- A phase ends after at most two events for each of its `total_ops` operations,
whatever the order in which its threads move, and it has then performed what it
reports exactly when the number of threads divides `total_ops`. -/
theorem performsAsReported_iff (hthreads : 0 < p.threadCount.toInt)
    (hops : 0 ≤ (p.totalOps isLoading).toInt) {es : List (ClientEvent p.numThreads)}
    {s : Phase p.numThreads}
    (hrun : (machine _).run (start p isLoading wl stored) es = some s) :
    (es.length : ℤ) ≤ 2 * (p.totalOps isLoading).toInt ∧
      ((machine _).Stuck s → (PerformsAsReported p isLoading wl s ↔
        p.threadCount.toInt ∣ (p.totalOps isLoading).toInt)) := by
  refine ⟨?_, fun hstuck => ?_⟩
  · have hlength := length_run_le fresh_start hrun
    have hle := p.performedOps_le isLoading
    rw [turns_start] at hlength
    omega
  · have hfinished := finished_of_stuck hstuck
    have hexecuted := executed_of_finished hrun hfinished
    rw [← Properties.performedOps_eq_iff hthreads hops, PerformsAsReported,
      Properties.throughputOps, hexecuted]
    refine ⟨And.left, fun hall => ⟨hall, ?_⟩⟩
    rintro rfl i hi
    obtain ⟨new, hstored, hnew, -⟩ := stored_of_finished hrun hfinished
    rw [hstored, List.mem_append, ← Multiset.mem_coe, hnew, mem_handedOut, hexecuted]
    exact Or.inl ⟨i, by omega, rfl⟩

/-- Three records loaded by two threads: both are given one. -/
def threeOnTwo : Properties := { recordCount := 3, operationCount := 3, threadCount := 2 }

/-- A run of this load, one thread after the other. -/
def threeOnTwoRun : List (ClientEvent threeOnTwo.numThreads) :=
  let first : Fin threeOnTwo.numThreads := ⟨0, by decide⟩
  let second : Fin threeOnTwo.numThreads := ⟨1, by decide⟩
  [.take first, .store first, .take second, .store second]

/-- The theorem at this run. -/
theorem performsAsReported_iff_threeOnTwo :
    ∃ s, (machine _).run (start threeOnTwo true (.init threeOnTwo) []) threeOnTwoRun = some s ∧
      (threeOnTwoRun.length : ℤ) ≤ 2 * (threeOnTwo.totalOps true).toInt ∧
      ((machine _).Stuck s → (PerformsAsReported threeOnTwo true (.init threeOnTwo) s ↔
        threeOnTwo.threadCount.toInt ∣ (threeOnTwo.totalOps true).toInt)) := by
  obtain ⟨s, hrun⟩ : ∃ s, (machine _).run (start threeOnTwo true (.init threeOnTwo) [])
      threeOnTwoRun = some s := ⟨_, rfl⟩
  exact ⟨s, hrun, performsAsReported_iff (by decide) (by decide) hrun⟩

/-- Both threads return and a record is missing. -/
theorem not_performsAsReported_threeOnTwo :
    ∃ s, (machine _).run (start threeOnTwo true (.init threeOnTwo) []) threeOnTwoRun = some s ∧
      (machine _).Stuck s ∧ ¬ PerformsAsReported threeOnTwo true (.init threeOnTwo) s := by
  refine ⟨_, rfl, stuck_of_finished (by decide), ?_⟩
  rintro ⟨hexecuted, -⟩
  revert hexecuted
  decide

end Phase

end YcsbC
