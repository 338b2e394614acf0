import YcsbC.Foundation.Machine
import YcsbC.Main.ParseCommandLine

/-!
# The statistics thread

`main` shares the flag `isFinish` with the task `record`, which prints statistics until
the flag is set.  The task is started in a scope of its own, at the end of which the
destructor of its future waits for it.  Each phase sets the flag and deletes it.

`main`, the task and the clients take steps in any order.  A use of the flag after it
has been deleted is recorded.
-/

namespace YcsbC

/-- The phases of `main`. -/
inductive PhaseKind where
  | load | run
deriving DecidableEq, Repr

/-- The test before a phase. -/
def Pattern.requests (pattern : Pattern) : PhaseKind → Bool
  | .load => pattern = .load || pattern = .both
  | .run => pattern = .run || pattern = .both

/-- Where `main` is. -/
inductive MainPC where
  /-- Before `if (duration)`. -/
  | start
  /-- At the end of the scope of the future `r`. -/
  | destroyFuture
  /-- Before the test for a phase. -/
  | enter (phase : PhaseKind)
  /-- In the loop that gets the results of the clients. -/
  | getResults (phase : PhaseKind)
  /-- Before `*isFinish = true`. -/
  | setFinish (phase : PhaseKind)
  /-- Before `delete isFinish`. -/
  | deleteFinish (phase : PhaseKind)
  /-- Before the report. -/
  | printReport (phase : PhaseKind)
  /-- At its end. -/
  | returned
deriving DecidableEq, Repr

/-- Where the task `record` is. -/
inductive RecordPC where
  /-- Not started. -/
  | none
  /-- Before the test of the loop. -/
  | test
  /-- Before `sleep_for`. -/
  | sleep
  /-- Before `printStats`. -/
  | print
  /-- At its end. -/
  | returned
deriving DecidableEq, Repr

/-- What the command line asks for. -/
structure Job where
  /-- `pattern`. -/
  pattern : Pattern
  /-- `duration`. -/
  duration : Int32
  /-- `num_threads`. -/
  numThreads : ℕ
  /-- There is a client, whose histogram is printed. -/
  numThreads_pos : 0 < numThreads

/-- `main`, the task and the clients. -/
structure Lifecycle where
  /-- Where `main` is. -/
  main : MainPC := .start
  /-- Where the task is. -/
  record : RecordPC := .none
  /-- `*isFinish`. -/
  isFinish : Bool := false
  /-- Whether `isFinish` has been deleted. -/
  deleted : Bool := false
  /-- Whether `isFinish` has been used after it was deleted. -/
  misused : Bool := false
  /-- The clients that have not returned. -/
  running : ℕ := 0
  /-- The reports printed. -/
  reports : List PhaseKind := []
deriving DecidableEq, Repr

/-- Whose step it is. -/
inductive Party where
  | main | record | client
deriving DecidableEq, Repr

namespace Lifecycle

variable (job : Job) (s : Lifecycle)

/-- A use of `isFinish`. -/
def useFinish : Lifecycle := { s with misused := s.misused || s.deleted }

/-- What comes after a phase. -/
def afterPhase : PhaseKind → MainPC
  | .load => .enter .run
  | .run => .returned

/-- A step of `main`. -/
def stepMain : Option Lifecycle :=
  match s.main with
  | .start =>
      if job.duration ≠ 0 then some { s with main := .destroyFuture, record := .test }
      else some { s with main := .enter .load }
  | .destroyFuture => if s.record = .returned then some { s with main := .enter .load } else none
  | .enter phase =>
      if job.pattern.requests phase then
        some { s with main := .getResults phase, running := job.numThreads }
      else some { s with main := afterPhase phase }
  | .getResults phase => if s.running = 0 then some { s with main := .setFinish phase } else none
  | .setFinish phase => some { s.useFinish with isFinish := true, main := .deleteFinish phase }
  | .deleteFinish phase => some { s.useFinish with deleted := true, main := .printReport phase }
  | .printReport phase =>
      some { s with reports := s.reports ++ [phase], main := afterPhase phase }
  | .returned => none

/-- A step of the task `record`. -/
def stepRecord : Option Lifecycle :=
  match s.record with
  | .none => none
  | .test => some { s.useFinish with record := if s.isFinish then .returned else .sleep }
  | .sleep => some { s with record := .print }
  | .print => some { s with record := .test }
  | .returned => none

/-- A client returns. -/
def stepClient : Option Lifecycle :=
  if s.running = 0 then none else some { s with running := s.running - 1 }

/-- The parties as a machine. -/
def machine : Machine Lifecycle Party where
  step s
    | .main => stepMain job s
    | .record => stepRecord s
    | .client => stepClient s

/-- The state at the start of `main`. -/
def start : Lifecycle := {}

/-- Every phase requested has printed its report. -/
def AllReported : Prop := ∀ phase, job.pattern.requests phase → phase ∈ s.reports

/-- From every state that is reached, one with all reports can be reached, and the flag is
never used after it was deleted. -/
structure Sound : Prop where
  /-- The reports. -/
  reported : ∀ s, (machine job).Reaches start s →
    ∃ s', (machine job).Reaches s s' ∧ AllReported job s'
  /-- The flag. -/
  alive : ∀ s, (machine job).Reaches start s → s.misused = false

/-! ## With a duration -/

/-- `main` waits for the task and the task for the flag. -/
structure Waiting : Prop where
  /-- `main` waits for the task. -/
  main : s.main = .destroyFuture
  /-- The task is in its loop. -/
  record : s.record ≠ .returned
  /-- The flag is not set. -/
  isFinish : s.isFinish = false
  /-- Nothing has been reported. -/
  reports : s.reports = []

variable {job} {s}

/-- No step ends the waiting. -/
theorem Waiting.step {s' : Lifecycle} {e : Party} (hwaiting : Waiting s)
    (hstep : (machine job).step s e = some s') : Waiting s' := by
  obtain ⟨hmain, hrecord, hfinish, hreports⟩ := hwaiting
  cases e with
  | main => simp [machine, stepMain, hmain, hrecord] at hstep
  | record =>
      cases hpc : s.record with
      | none => simp [machine, stepRecord, hpc] at hstep
      | test =>
          simp [machine, stepRecord, hpc, hfinish, useFinish] at hstep
          subst hstep
          exact ⟨hmain, by simp, rfl, hreports⟩
      | sleep =>
          simp [machine, stepRecord, hpc] at hstep
          subst hstep
          exact ⟨hmain, by simp, hfinish, hreports⟩
      | print =>
          simp [machine, stepRecord, hpc] at hstep
          subst hstep
          exact ⟨hmain, by simp, hfinish, hreports⟩
      | returned => exact absurd hpc hrecord
  | client =>
      simp [machine, stepClient] at hstep
      obtain ⟨-, rfl⟩ := hstep
      exact ⟨hmain, hrecord, hfinish, hreports⟩

/-- With a duration nothing is ever reported. -/
theorem not_sound_of_duration (hduration : job.duration ≠ 0) : ¬ Sound job := by
  intro hsound
  have hfirst : (machine job).step start .main =
      some { start with main := .destroyFuture, record := .test } := if_pos hduration
  obtain ⟨s', hreaches, hall⟩ := hsound.reported _ ((Machine.Reaches.refl _ _).head hfirst)
  have hwaiting : Waiting s' :=
    hreaches.invariant (fun _ _ _ => Waiting.step) ⟨rfl, by simp, rfl, rfl⟩
  obtain ⟨phase, hphase⟩ : ∃ phase, job.pattern.requests phase = true := by
    cases job.pattern with
    | load => exact ⟨.load, rfl⟩
    | run => exact ⟨.run, rfl⟩
    | both => exact ⟨.load, rfl⟩
  have hmem := hall phase hphase
  rw [hwaiting.reports] at hmem
  cases hmem

/-! ## Without a duration -/

/-- Whether a phase before this one is requested. -/
def earlier (pattern : Pattern) : PhaseKind → Bool
  | .load => false
  | .run => pattern.requests .load

/-- The reports of the phases before this one. -/
def reportsBefore (pattern : Pattern) (phase : PhaseKind) : List PhaseKind :=
  if earlier pattern phase then [.load] else []

/-- The reports, whether the flag is deleted and whether it has been misused, where `main`
is. -/
def expected (pattern : Pattern) : MainPC → List PhaseKind × Bool × Bool
  | .start => ([], false, false)
  | .destroyFuture => ([], false, false)
  | .enter phase => (reportsBefore pattern phase, earlier pattern phase, false)
  | .getResults phase => (reportsBefore pattern phase, earlier pattern phase, false)
  | .setFinish phase => (reportsBefore pattern phase, earlier pattern phase, false)
  | .deleteFinish phase =>
      (reportsBefore pattern phase, earlier pattern phase, earlier pattern phase)
  | .printReport phase => (reportsBefore pattern phase, true, earlier pattern phase)
  | .returned => ([.load, .run].filter pattern.requests, true, pattern = .both)

/-- The phase that `main` is in. -/
def phaseOf : MainPC → Option PhaseKind
  | .getResults phase | .setFinish phase | .deleteFinish phase | .printReport phase => some phase
  | _ => none

variable (job) (s) in
/-- `main` alone decides what happens to the flag. -/
structure Alone : Prop where
  /-- The task is not started. -/
  record : s.record = .none
  /-- `main` does not wait for it. -/
  main : s.main ≠ .destroyFuture
  /-- The phase that `main` is in is requested. -/
  requested : ∀ phase ∈ phaseOf s.main, job.pattern.requests phase
  /-- What has happened so far. -/
  state : (s.reports, s.deleted, s.misused) = expected job.pattern s.main

/-- A phase that is not requested changes nothing. -/
theorem expected_skip {pattern : Pattern} {phase : PhaseKind}
    (hskip : pattern.requests phase = false) :
    expected pattern (afterPhase phase) = expected pattern (.enter phase) := by
  cases pattern <;> cases phase <;> first | rfl | cases hskip

section UseFinish

variable {pattern : Pattern} {phase : PhaseKind} {reports : List PhaseKind} {deleted misused : Bool}

/-- Setting the flag is a misuse when an earlier phase has deleted it. -/
theorem expected_setFinish
    (hstate : (reports, deleted, misused) = expected pattern (.setFinish phase)) :
    (reports, deleted, misused || deleted) = expected pattern (.deleteFinish phase) := by
  cases hstate
  simp [expected]

/-- So is deleting it once more. -/
theorem expected_deleteFinish
    (hstate : (reports, deleted, misused) = expected pattern (.deleteFinish phase)) :
    (reports, true, misused || deleted) = expected pattern (.printReport phase) := by
  cases hstate
  simp [expected]

end UseFinish

/-- A phase adds its report and leaves the flag deleted. -/
theorem expected_afterPhase {pattern : Pattern} {phase : PhaseKind}
    (hphase : pattern.requests phase = true) : expected pattern (afterPhase phase) =
      (reportsBefore pattern phase ++ [phase], true, earlier pattern phase) := by
  cases pattern <;> cases phase <;> first | rfl | cases hphase

theorem phaseOf_afterPhase (phase : PhaseKind) : phaseOf (afterPhase phase) = none := by
  cases phase <;> rfl

theorem afterPhase_ne_destroyFuture (phase : PhaseKind) : afterPhase phase ≠ .destroyFuture := by
  cases phase <;> simp [afterPhase]

theorem alone_start : Alone job start := ⟨rfl, by simp [start], by simp [start, phaseOf], rfl⟩

/-- Every step keeps to what is expected. -/
theorem Alone.step (hduration : job.duration = 0) {s' : Lifecycle} {e : Party}
    (halone : Alone job s) (hstep : (machine job).step s e = some s') : Alone job s' := by
  obtain ⟨hrecord, hmain, hrequested, hstate⟩ := halone
  cases e with
  | record => simp [machine, stepRecord, hrecord] at hstep
  | client =>
      simp [machine, stepClient] at hstep
      obtain ⟨-, rfl⟩ := hstep
      exact ⟨hrecord, hmain, hrequested, hstate⟩
  | main =>
      cases hpc : s.main with
      | start =>
          simp [machine, stepMain, hpc, hduration] at hstep
          subst hstep
          rw [hpc] at hstate
          exact ⟨hrecord, by simp, by simp [phaseOf], hstate⟩
      | destroyFuture => exact absurd hpc hmain
      | enter phase =>
          rw [hpc] at hstate
          cases hphase : job.pattern.requests phase with
          | true =>
              simp [machine, stepMain, hpc, hphase] at hstep
              subst hstep
              exact ⟨hrecord, by simp, by simp [phaseOf, hphase], hstate⟩
          | false =>
              simp [machine, stepMain, hpc, hphase] at hstep
              subst hstep
              exact ⟨hrecord, afterPhase_ne_destroyFuture phase, by simp [phaseOf_afterPhase],
                hstate.trans (expected_skip hphase).symm⟩
      | getResults phase =>
          simp [machine, stepMain, hpc] at hstep
          obtain ⟨-, rfl⟩ := hstep
          rw [hpc] at hrequested hstate
          exact ⟨hrecord, by simp, hrequested, hstate⟩
      | setFinish phase =>
          simp [machine, stepMain, hpc, useFinish] at hstep
          subst hstep
          rw [hpc] at hrequested hstate
          exact ⟨hrecord, by simp, hrequested, expected_setFinish hstate⟩
      | deleteFinish phase =>
          simp [machine, stepMain, hpc, useFinish] at hstep
          subst hstep
          rw [hpc] at hrequested hstate
          exact ⟨hrecord, by simp, hrequested, expected_deleteFinish hstate⟩
      | printReport phase =>
          simp [machine, stepMain, hpc] at hstep
          subst hstep
          rw [hpc] at hrequested hstate
          simp only [expected, Prod.mk.injEq] at hstate
          obtain ⟨hreports, hdeleted, hmisused⟩ := hstate
          refine ⟨hrecord, afterPhase_ne_destroyFuture phase, by simp [phaseOf_afterPhase], ?_⟩
          rw [expected_afterPhase (hrequested phase rfl)]
          simp [hreports, hdeleted, hmisused]
      | returned => simp [machine, stepMain, hpc] at hstep

/-- How many steps `main` has left at most. -/
def stepsLeft : MainPC → ℕ
  | .start => 11
  | .destroyFuture => 11
  | .enter .load => 10
  | .getResults .load => 9
  | .setFinish .load => 8
  | .deleteFinish .load => 7
  | .printReport .load => 6
  | .enter .run => 5
  | .getResults .run => 4
  | .setFinish .run => 3
  | .deleteFinish .run => 2
  | .printReport .run => 1
  | .returned => 0

variable (job) in
/-- Each step of `main` counts more than what all clients have left. -/
def rank (s : Lifecycle) : ℕ := stepsLeft s.main * (job.numThreads + 1) + s.running

theorem rank_lt {s' : Lifecycle} (hsteps : stepsLeft s'.main < stepsLeft s.main)
    (hrunning : s'.running ≤ s.running + job.numThreads) : rank job s' < rank job s := by
  have hmul : (stepsLeft s'.main + 1) * (job.numThreads + 1) ≤
      stepsLeft s.main * (job.numThreads + 1) := Nat.mul_le_mul_right _ hsteps
  rw [Nat.succ_mul] at hmul
  rw [rank, rank]
  omega

theorem stepsLeft_afterPhase_lt (phase : PhaseKind) :
    stepsLeft (afterPhase phase) < stepsLeft (.printReport phase) := by
  cases phase with
  | load => exact Nat.lt_succ_self _
  | run => exact Nat.lt_succ_self _

theorem stepsLeft_afterPhase_lt_enter (phase : PhaseKind) :
    stepsLeft (afterPhase phase) < stepsLeft (.enter phase) := by
  cases phase with
  | load => simp [afterPhase, stepsLeft]
  | run => simp [afterPhase, stepsLeft]

/-- A step of `main` that starts no clients. -/
theorem exists_step_main {s' : Lifecycle} (hstep : stepMain job s = some s')
    (hsteps : stepsLeft s'.main < stepsLeft s.main) (hrunning : s'.running = s.running) :
    ∃ e s', (machine job).step s e = some s' ∧ rank job s' < rank job s :=
  ⟨.main, s', hstep, rank_lt hsteps (hrunning ▸ Nat.le_add_right _ _)⟩

/-- Until `main` has returned, it or a client can take a step. -/
theorem Alone.exists_step (hduration : job.duration = 0) (halone : Alone job s)
    (hmain : s.main ≠ .returned) :
    ∃ e s', (machine job).step s e = some s' ∧ rank job s' < rank job s := by
  cases hpc : s.main with
  | start =>
      refine exists_step_main (by simp [stepMain, hpc, hduration]; rfl) ?_ ?_
      · simp [hpc, stepsLeft]
      · rfl
  | destroyFuture => exact absurd hpc halone.main
  | enter phase =>
      cases hphase : job.pattern.requests phase with
      | true =>
          refine ⟨.main, _, by simp [machine, stepMain, hpc, hphase]; rfl, rank_lt ?_ ?_⟩
          · rw [hpc]
            cases phase <;> exact Nat.lt_succ_self _
          · exact Nat.le_add_left _ _
      | false =>
          refine exists_step_main (by simp [stepMain, hpc, hphase]; rfl) ?_ ?_
          · rw [hpc]
            exact stepsLeft_afterPhase_lt_enter phase
          · rfl
  | getResults phase =>
      by_cases hrunning : s.running = 0
      · refine exists_step_main (by simp [stepMain, hpc, hrunning]; rfl) ?_ ?_
        · rw [hpc]
          cases phase <;> exact Nat.lt_succ_self _
        · exact hrunning.symm
      · -- `main` waits for a client
        refine ⟨.client, _, by simp [machine, stepClient, hrunning]; rfl, ?_⟩
        rw [rank, rank]
        simp only
        omega
  | setFinish phase =>
      refine exists_step_main (by simp [stepMain, hpc]; rfl) ?_ ?_
      · rw [hpc]
        cases phase <;> exact Nat.lt_succ_self _
      · rfl
  | deleteFinish phase =>
      refine exists_step_main (by simp [stepMain, hpc]; rfl) ?_ ?_
      · rw [hpc]
        cases phase <;> exact Nat.lt_succ_self _
      · rfl
  | printReport phase =>
      refine exists_step_main (by simp [stepMain, hpc]; rfl) ?_ ?_
      · rw [hpc]
        exact stepsLeft_afterPhase_lt phase
      · rfl
  | returned => exact absurd hpc hmain

/-- Without a duration `main` can always return. -/
theorem Alone.exists_returned (hduration : job.duration = 0) (halone : Alone job s) :
    ∃ s', (machine job).Reaches s s' ∧ Alone job s' ∧ s'.main = .returned := by
  refine (machine job).exists_reaches_of_rank (rank job) ?_ halone
  intro s halone hmain
  obtain ⟨e, s', hstep, hlt⟩ := halone.exists_step hduration hmain
  exact ⟨e, s', hstep, halone.step hduration hstep, hlt⟩

theorem Alone.of_reaches (hduration : job.duration = 0) (hreaches : (machine job).Reaches start s) :
    Alone job s :=
  hreaches.invariant (fun _ _ _ halone => halone.step hduration) alone_start

/-- When `main` has returned, every phase has reported. -/
theorem Alone.allReported (halone : Alone job s) (hmain : s.main = .returned) :
    AllReported job s := by
  have hstate := halone.state
  rw [hmain] at hstate
  have hreports : s.reports = [PhaseKind.load, .run].filter job.pattern.requests :=
    congrArg Prod.fst hstate
  intro phase hphase
  rw [hreports, List.mem_filter]
  refine ⟨?_, hphase⟩
  cases phase <;> simp

theorem not_earlier {pattern : Pattern} {phase : PhaseKind} (hpattern : pattern ≠ .both)
    (hphase : pattern.requests phase = true) : earlier pattern phase = false := by
  cases pattern with
  | load => cases phase <;> first | rfl | cases hphase
  | run => cases phase <;> rfl
  | both => exact absurd rfl hpattern

/-- Only a second phase misuses the flag. -/
theorem Alone.misused_eq_false (halone : Alone job s) (hpattern : job.pattern ≠ .both) :
    s.misused = false := by
  have hmisused : s.misused = (expected job.pattern s.main).2.2 :=
    congrArg (fun state => state.2.2) halone.state
  have hrequested := halone.requested
  rw [hmisused]
  cases hpc : s.main with
  | start => rfl
  | destroyFuture => rfl
  | enter phase => rfl
  | getResults phase => rfl
  | setFinish phase => rfl
  | deleteFinish phase =>
      rw [hpc] at hrequested
      exact not_earlier hpattern (hrequested phase rfl)
  | printReport phase =>
      rw [hpc] at hrequested
      exact not_earlier hpattern (hrequested phase rfl)
  | returned => simp [expected, hpattern]

/-- The second of two phases uses the flag that the first has deleted. -/
theorem not_sound_of_both (hpattern : job.pattern = .both) : ¬ Sound job := by
  intro hsound
  by_cases hduration : job.duration = 0
  · obtain ⟨s', hreaches, halone, hmain⟩ := alone_start.exists_returned hduration
    have hmisused : s'.misused = (expected job.pattern s'.main).2.2 :=
      congrArg (fun state => state.2.2) halone.state
    rw [hmain, hsound.alive s' hreaches] at hmisused
    simp [expected, hpattern] at hmisused
  · exact not_sound_of_duration hduration hsound

/-- Every report can be reached and the flag is only used while it is there exactly when
there is no duration and one phase is requested. -/
theorem sound_iff (job : Job) : Sound job ↔ job.duration = 0 ∧ job.pattern ≠ .both := by
  constructor
  · intro hsound
    constructor
    · by_contra hduration
      exact not_sound_of_duration hduration hsound
    · intro hpattern
      exact not_sound_of_both hpattern hsound
  · rintro ⟨hduration, hpattern⟩
    constructor
    · intro s hreaches
      obtain ⟨s', hreaches', halone, hmain⟩ :=
        (Alone.of_reaches hduration hreaches).exists_returned hduration
      exact ⟨s', hreaches', halone.allReported hmain⟩
    · intro s hreaches
      exact (Alone.of_reaches hduration hreaches).misused_eq_false hpattern

/-- `-d 10 load` never reports, and `both` deletes the flag twice. -/
theorem not_sound_duration_or_both :
    ¬ Sound ⟨.load, 10, 1, Nat.one_pos⟩ ∧ ¬ Sound ⟨.both, 0, 1, Nat.one_pos⟩ :=
  ⟨not_sound_of_duration (by decide), not_sound_of_both rfl⟩

end Lifecycle

end YcsbC
