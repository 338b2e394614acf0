import YcsbC.Core.KeyChooser
import YcsbC.Main.FreshKeys

/-!
# The newest key that readers know of

Readers take `insert_key_sequence_.Last()` for the newest key: the latest distribution
counts its ranks from there, and `NextTransactionKey` rejects greater numbers.  Inserts
move `key_generator_` and not this counter, which stays at `recordcount`.  So after a
load by whole operations the two agree exactly as long as nothing has been inserted
since, provided the load has stored all of its records.
-/

namespace YcsbC

/-- A whole operation of a thread. -/
inductive WholeOp (T : ℕ) where
  /-- `DoInsert` or `TransactionInsert`. -/
  | insert (c : Fin T)
  /-- Another transaction. -/
  | other (c : Fin T) (op : Operation)

namespace WholeOp

variable {T : ℕ}

/-- The events of an operation. -/
def events : WholeOp T → List (ClientEvent T)
  | .insert c => [.take c, .store c]
  | .other c op => [.other c op]

/-- Whether an operation is an insert. -/
def isInsert : WholeOp T → Bool
  | .insert _ => true
  | .other _ _ => false

end WholeOp

namespace Phase

variable {T : ℕ} {p : Properties}

/-- The machine whose runs are the interleavings of whole operations. -/
def wholeMachine (T : ℕ) : Machine (Phase T) (WholeOp T) := (machine T).group WholeOp.events

/-- The first `k` numbers of a counter that starts at `start`, the latest first. -/
def newestFirst (start : UInt64) : ℕ → List UInt64
  | 0 => []
  | k + 1 => (start + UInt64.ofNat k) :: newestFirst start k

theorem coe_newestFirst (start : UInt64) (k : ℕ) :
    (newestFirst start k : Multiset UInt64) = handedOut start k := by
  induction k with
  | zero => rfl
  | succ k ih => rw [newestFirst, ← Multiset.cons_coe, ih, handedOut_succ]

theorem length_newestFirst (start : UInt64) (k : ℕ) : (newestFirst start k).length = k := by
  rw [← Multiset.coe_card, coe_newestFirst, card_handedOut]

theorem mem_newestFirst {start : UInt64} {k : ℕ} {keyNum : UInt64}
    (hwrap : start.toNat + k ≤ 2 ^ 64) : keyNum ∈ newestFirst start k ↔
      start.toNat ≤ keyNum.toNat ∧ keyNum.toNat < start.toNat + k := by
  rw [← Multiset.mem_coe, coe_newestFirst, mem_handedOut_iff hwrap]

/-- After `k` whole inserts since `s₀` their keys are stored in order. -/
structure Sequential (s₀ : Phase T) (k : ℕ) (s : Phase T) : Prop where
  wl : s.wl = { s₀.wl with keyGenerator := ⟨s₀.wl.keyGenerator.counter + UInt64.ofNat k⟩ }
  stored : s.stored = newestFirst s₀.wl.keyGenerator.counter k ++ s₀.stored

theorem Sequential.refl (s : Phase T) : Sequential s 0 s := by
  refine ⟨?_, rfl⟩
  rw [show UInt64.ofNat 0 = 0 from rfl, UInt64.add_zero]

theorem Sequential.insert {s₀ s s' : Phase T} {k : ℕ} {c : Fin T} (hs : Sequential s₀ k s)
    (hrun : (machine T).run s [.take c, .store c] = some s') : Sequential s₀ (k + 1) s' := by
  obtain ⟨s₁, htake, hrun₁⟩ := (machine T).run_cons_eq_some.mp hrun
  obtain ⟨s₂, hstore, hrun₂⟩ := (machine T).run_cons_eq_some.mp hrun₁
  cases hrun₂
  obtain ⟨-, -, hs₁⟩ := step_take htake
  obtain ⟨keyNum, hheld, hs'⟩ := step_store hstore
  have hclients := congrArg Phase.clients hs₁
  dsimp only at hclients
  rw [hclients, Function.update_self] at hheld
  cases hheld
  refine ⟨?_, ?_⟩
  · rw [congrArg Phase.wl hs', congrArg Phase.wl hs₁, hs.wl, UInt64.ofNat_add, ← UInt64.add_assoc]
    rfl
  · rw [congrArg Phase.stored hs', congrArg Phase.stored hs₁, hs.stored, hs.wl]
    rfl

theorem Sequential.other {s₀ s s' : Phase T} {k : ℕ} {c : Fin T} {op : Operation}
    (hs : Sequential s₀ k s) (hrun : (machine T).run s [.other c op] = some s') :
    Sequential s₀ k s' := by
  obtain ⟨s₁, hother, hrun₁⟩ := (machine T).run_cons_eq_some.mp hrun
  cases hrun₁
  obtain ⟨-, -, -, -, rfl⟩ := step_other hother
  exact ⟨hs.wl, hs.stored⟩

/-- A run of whole operations stores the keys of its inserts in order. -/
theorem sequential_run {s₀ s : Phase T} {ops : List (WholeOp T)}
    (hrun : (wholeMachine T).run s₀ ops = some s) :
    Sequential s₀ (ops.countP WholeOp.isInsert) s := by
  refine (wholeMachine T).run_trace
    (I := fun ops s => Sequential s₀ (ops.countP WholeOp.isInsert) s) ?_ (Sequential.refl s₀) hrun
  intro ops s op s' hs hstep
  rw [List.countP_append]
  cases op with
  | insert c => exact hs.insert hstep
  | other c op => exact hs.other hstep

/-! ## A load followed by a run -/

/-- A state of the run phase after `m` inserts, in a process that has run the load phase
before, both phases by whole operations. -/
def ReachedAfterLoad (p : Properties) (m : ℕ) (s : Phase p.numThreads) : Prop :=
  ∃ loads sl ops, (wholeMachine _).run (start p true (.init p) []) loads = some sl ∧
    sl.Finished ∧ (wholeMachine _).run (start p false sl.wl sl.stored) ops = some s ∧
    m = ops.countP WholeOp.isInsert

/-- The readers' counter follows the inserts: its last number is the greatest key stored
so far, `recordcount - 1 + m`, so rank 0 of the latest distribution is the record stored
last and no stored key is rejected. -/
structure SequenceFollows (p : Properties) (m : ℕ) (s : Phase p.numThreads) : Prop where
  last : (s.wl.insertKeySequence.last.toNat : ℤ) = p.recordCount.toInt - 1 + m
  last_mem : s.wl.insertKeySequence.last ∈ s.stored
  le_last : ∀ keyNum ∈ s.stored, keyNum ≤ s.wl.insertKeySequence.last
  newest : s.stored.head? = some (SkewedLatestGenerator.keyOfRank s.wl.insertKeySequence 0)
  not_rejects : ∀ keyNum ∈ s.stored, s.wl.rejects keyNum = false

/-- The keys of the load are stored in order, below those of the run phase, and the
readers' counter is as `Init` has set it. -/
theorem stored_of_reached (hstart : p.insertStart = 0) {m : ℕ} {s : Phase p.numThreads}
    (hreach : ReachedAfterLoad p m s) :
    s.wl.insertKeySequence = (CoreWorkload.init p).insertKeySequence ∧
      ∃ new : List UInt64, new.length = m ∧
        s.stored = new ++ newestFirst 0 (p.performedOps true) := by
  obtain ⟨loads, sl, ops, hload, hfinished, hrun, rfl⟩ := hreach
  have hsl := sequential_run hload
  have hs := sequential_run hrun
  rw [wholeMachine, Machine.run_group] at hload
  have hexecuted := executed_of_finished hload hfinished
  obtain ⟨new, hnew, hkeys, -⟩ := stored_of_finished hload hfinished
  have hlength : loads.countP WholeOp.isInsert = sl.executed := by
    have hcard := congrArg Multiset.card hkeys
    have hstored := congrArg List.length (hnew.symm.trans hsl.stored)
    rw [Multiset.coe_card, card_handedOut] at hcard
    rw [stored_start, List.append_nil, List.append_nil, length_newestFirst] at hstored
    rw [← hstored, hcard]
  refine ⟨?_, _, length_newestFirst sl.wl.keyGenerator.counter _, ?_⟩
  · rw [hs.wl, wl_start, hsl.wl, wl_start]
  · rw [hs.stored, stored_start, hsl.stored, stored_start, List.append_nil, hlength, hexecuted,
      wl_start, wl_start, CoreWorkload.keyGenerator_init, hstart]
    rfl

/-- The readers' counter follows the inserts exactly as long as there are none and the
load has stored all records, which it has when the number of threads divides
`recordcount`. -/
theorem sequenceFollows_iff (hstart : p.insertStart = 0) (hrecords : 1 ≤ p.recordCount.toInt)
    (hthreads : 0 < p.threadCount.toInt) {m : ℕ} {s : Phase p.numThreads}
    (hreach : ReachedAfterLoad p m s) :
    SequenceFollows p m s ↔ m = 0 ∧ p.threadCount.toInt ∣ p.recordCount.toInt := by
  obtain ⟨hsequence, new, hlength, hstored⟩ := stored_of_reached hstart hreach
  have hlast := CoreWorkload.toNat_last_init hrecords
  have hlt := p.performedOps_lt true
  have hmem : ∀ keyNum, keyNum ∈ newestFirst 0 (p.performedOps true) ↔
      keyNum.toNat < p.performedOps true := by
    intro keyNum
    rw [mem_newestFirst (by rw [UInt64.toNat_zero]; omega), UInt64.toNat_zero]
    omega
  have hall : (p.performedOps true : ℤ) = p.recordCount.toInt ↔
      p.threadCount.toInt ∣ p.recordCount.toInt :=
    Properties.performedOps_eq_iff hthreads (zero_le_one.trans hrecords)
  have hle : p.performedOps true ≤ p.recordCount.toInt.toNat := p.performedOps_le true
  rw [← hall]
  constructor
  · intro hfollows
    have hcount := hfollows.last
    rw [hsequence] at hcount
    have hm : m = 0 := by omega
    refine ⟨hm, ?_⟩
    have hlastMem := hfollows.last_mem
    rw [hsequence, hstored, List.eq_nil_of_length_eq_zero (hlength.trans hm), List.nil_append,
      hmem] at hlastMem
    omega
  · rintro ⟨rfl, hloaded⟩
    rw [List.eq_nil_of_length_eq_zero hlength, List.nil_append] at hstored
    have hleLast : ∀ keyNum ∈ s.stored, keyNum ≤ s.wl.insertKeySequence.last := by
      intro keyNum hkeyNum
      rw [hstored, hmem] at hkeyNum
      rw [hsequence, UInt64.le_iff_toNat_le]
      omega
    refine ⟨?_, ?_, hleLast, ?_, ?_⟩
    · rw [hsequence, hlast, Nat.cast_zero, add_zero]
    · rw [hsequence, hstored, hmem]
      omega
    · obtain ⟨k, hk⟩ : ∃ k, p.performedOps true = k + 1 := ⟨p.performedOps true - 1, by omega⟩
      rw [hstored, hsequence, hk, newestFirst, List.head?_cons, SkewedLatestGenerator.keyOfRank,
        UInt64.sub_zero, Option.some.injEq, ← UInt64.toNat_inj,
        toNat_add_ofNat (by rw [UInt64.toNat_zero]; omega), UInt64.toNat_zero]
      omega
    · intro keyNum hkeyNum
      rw [CoreWorkload.rejects, decide_eq_false_iff_not, gt_iff_lt, UInt64.not_lt]
      exact hleLast keyNum hkeyNum

/-- One record loaded, and one inserted by a transaction. -/
theorem reachedAfterLoad_oneRecord :
    ∃ s, ReachedAfterLoad oneRecord 1 s ∧ s.stored = [1, 0] ∧
      s.wl.insertKeySequence.last = 0 := by
  let insert : WholeOp oneRecord.numThreads := .insert ⟨0, by decide⟩
  exact ⟨_, ⟨[insert], _, [insert], rfl, by decide, rfl, rfl⟩, rfl, rfl⟩

/-- The theorem at this state. -/
theorem sequenceFollows_iff_oneRecord :
    ∃ s, ReachedAfterLoad oneRecord 1 s ∧
      (SequenceFollows oneRecord 1 s ↔
        1 = 0 ∧ oneRecord.threadCount.toInt ∣ oneRecord.recordCount.toInt) := by
  obtain ⟨s, hreach, -⟩ := reachedAfterLoad_oneRecord
  exact ⟨s, hreach, sequenceFollows_iff (by decide) (by decide) (by decide) hreach⟩

/-- The newest record has key 1, and readers take key 0 for the newest. -/
theorem not_sequenceFollows_oneRecord :
    ∃ s, ReachedAfterLoad oneRecord 1 s ∧ s.stored = [1, 0] ∧
      s.wl.insertKeySequence.last = 0 ∧ ¬ SequenceFollows oneRecord 1 s := by
  obtain ⟨s, hreach, hstored, hlast⟩ := reachedAfterLoad_oneRecord
  refine ⟨s, hreach, hstored, hlast, fun hfollows => ?_⟩
  have hcount := hfollows.last
  rw [hlast] at hcount
  revert hcount
  decide

end Phase

end YcsbC
