import YcsbC.Core.CoreWorkload
import YcsbC.Foundation.Machine
import Mathlib.Algebra.BigOperators.Fin
import Mathlib.Algebra.Order.BigOperators.Group.Finset
import Mathlib.Data.Fintype.BigOperators
import Mathlib.Data.Multiset.Range
import Mathlib.Tactic.Abel

/-!
# The phases of a benchmark run

`main` runs a load phase, a run phase, or both.  A phase starts `threadcount`
threads of `DelegateClient` on one workload and waits for all of them.  An insert is
two events, since other threads can move between them: the atomic `fetch_add` in
`NextSequenceKey` and the `Insert` of the database.  Any other transaction changes
neither the counters nor the set of stored keys and is one event.

`Progress` says what the threads have done together since the phase started: they
have taken consecutive key numbers, each stored once or still held by its thread.
It holds in every state a phase can reach (`progress_run`).
-/

namespace YcsbC

/-- A thread in `DelegateClient`. -/
structure DelegateClient where
  /-- `num_ops`. -/
  numOps : Int32
  /-- The loop counter: the operations this thread has executed. -/
  i : ℕ
  /-- The key number of an insert that has not reached the database yet. -/
  held : Option UInt64
deriving DecidableEq, Repr

/-- A phase on `T` threads. -/
structure Phase (T : ℕ) where
  /-- `is_loading`. -/
  isLoading : Bool
  /-- The workload, which the threads share. -/
  wl : CoreWorkload
  /-- The key numbers of the records in the store, the latest first. -/
  stored : List UInt64
  /-- The threads. -/
  clients : Fin T → DelegateClient

/-- What a thread does next. -/
inductive ClientEvent (T : ℕ) where
  /-- `NextSequenceKey`, in `DoInsert` or `TransactionInsert`. -/
  | take (c : Fin T)
  /-- `Insert` on the database, in `DoInsert` or `TransactionInsert`. -/
  | store (c : Fin T)
  /-- A transaction other than `TransactionInsert`. -/
  | other (c : Fin T) (op : Operation)
deriving DecidableEq

namespace DelegateClient

/-- A thread at the start of its loop. -/
def start (numOps : Int32) : DelegateClient := ⟨numOps, 0, none⟩

/-- A thread that has taken a key number to insert. -/
def take (d : DelegateClient) (keyNum : UInt64) : DelegateClient :=
  { d with held := some keyNum }

/-- A thread at the next turn of its loop. -/
def next (d : DelegateClient) : DelegateClient := { d with i := d.i + 1, held := none }

/-- The test at the top of the loop. -/
def running (d : DelegateClient) : Bool := (d.i : ℤ) < d.numOps.toInt

/-- The turns the loop makes. -/
def turns (d : DelegateClient) : ℕ := d.numOps.toInt.toNat

/-- The key numbers a thread holds. -/
def heldKeys (d : DelegateClient) : Multiset UInt64 := d.held.elim 0 ({·})

/-- A thread counts no more operations than its loop makes turns, one of them still
to finish when it holds a key number. -/
def Within (d : DelegateClient) : Prop := d.i + d.heldKeys.card ≤ d.turns

theorem running_iff {d : DelegateClient} : d.running = true ↔ d.i < d.turns := by
  rw [running, turns, decide_eq_true_eq]
  omega

theorem heldKeys_none {d : DelegateClient} (h : d.held = none) : d.heldKeys = 0 := by
  rw [heldKeys, h, Option.elim_none]

theorem heldKeys_some {d : DelegateClient} {k : UInt64} (h : d.held = some k) :
    d.heldKeys = {k} := by
  rw [heldKeys, h, Option.elim_some]

@[simp] theorem heldKeys_take (d : DelegateClient) (k : UInt64) : (d.take k).heldKeys = {k} := rfl

@[simp] theorem heldKeys_next (d : DelegateClient) : d.next.heldKeys = 0 := rfl

@[simp] theorem i_take (d : DelegateClient) (k : UInt64) : (d.take k).i = d.i := rfl

@[simp] theorem i_next (d : DelegateClient) : d.next.i = d.i + 1 := rfl

@[simp] theorem turns_take (d : DelegateClient) (k : UInt64) : (d.take k).turns = d.turns := rfl

@[simp] theorem turns_next (d : DelegateClient) : d.next.turns = d.turns := rfl

theorem within_take {d : DelegateClient} {k : UInt64} (hrunning : d.running = true) :
    (d.take k).Within := by
  rw [Within, heldKeys_take, Multiset.card_singleton]
  exact running_iff.mp hrunning

theorem within_next_of_running {d : DelegateClient} (hrunning : d.running = true) :
    d.next.Within := by
  rw [Within, heldKeys_next, Multiset.card_zero]
  exact running_iff.mp hrunning

theorem within_next_of_held {d : DelegateClient} {k : UInt64} (hwithin : d.Within)
    (hheld : d.held = some k) : d.next.Within := by
  rw [Within, heldKeys_some hheld, Multiset.card_singleton] at hwithin
  rw [Within, heldKeys_next, Multiset.card_zero]
  exact hwithin

end DelegateClient

namespace Phase

open DelegateClient

variable {T : ℕ}

/-- What an event does. -/
def step (s : Phase T) : ClientEvent T → Option (Phase T)
  | .take c =>
      let d := s.clients c
      if d.running ∧ d.held = none then
        let (keyNum, wl) := s.wl.nextSequenceKeyNum
        some { s with wl := wl, clients := Function.update s.clients c (d.take keyNum) }
      else none
  | .store c =>
      let d := s.clients c
      match d.held with
      | none => none
      | some keyNum =>
          some { s with
            stored := keyNum :: s.stored
            clients := Function.update s.clients c d.next }
  | .other c op =>
      let d := s.clients c
      if d.running ∧ d.held = none ∧ s.isLoading = false ∧ op ≠ .INSERT then
        some { s with clients := Function.update s.clients c d.next }
      else none

/-- The machine whose runs are the interleavings of the threads. -/
def machine (T : ℕ) : Machine (Phase T) (ClientEvent T) := ⟨step⟩

/-- `NextSequenceKey` of a thread. -/
theorem step_take {s s' : Phase T} {c : Fin T} (hstep : s.step (.take c) = some s') :
    (s.clients c).running = true ∧ (s.clients c).held = none ∧
      s' = { s with
        wl := s.wl.nextSequenceKeyNum.2
        clients := Function.update s.clients c ((s.clients c).take s.wl.keyGenerator.counter) } := by
  simp only [step] at hstep
  split at hstep
  · rename_i hguard
    cases hstep
    exact ⟨hguard.1, hguard.2, rfl⟩
  · cases hstep

/-- `Insert` of a thread. -/
theorem step_store {s s' : Phase T} {c : Fin T} (hstep : s.step (.store c) = some s') :
    ∃ keyNum, (s.clients c).held = some keyNum ∧
      s' = { s with
        stored := keyNum :: s.stored
        clients := Function.update s.clients c (s.clients c).next } := by
  simp only [step] at hstep
  split at hstep
  · cases hstep
  · rename_i keyNum hheld
    cases hstep
    exact ⟨keyNum, hheld, rfl⟩

/-- Another transaction of a thread. -/
theorem step_other {s s' : Phase T} {c : Fin T} {op : Operation}
    (hstep : s.step (.other c op) = some s') :
    (s.clients c).running = true ∧ (s.clients c).held = none ∧ s.isLoading = false ∧
      op ≠ .INSERT ∧
      s' = { s with clients := Function.update s.clients c (s.clients c).next } := by
  simp only [step] at hstep
  split at hstep
  · rename_i hguard
    cases hstep
    exact ⟨hguard.1, hguard.2.1, hguard.2.2.1, hguard.2.2.2, rfl⟩
  · cases hstep

/-! ## What the threads have done together -/

/-- The operations that the threads have executed. -/
def executed (s : Phase T) : ℕ := ∑ c, (s.clients c).i

/-- The key numbers that are taken and not stored yet. -/
def heldKeys (s : Phase T) : Multiset UInt64 := ∑ c, (s.clients c).heldKeys

/-- The turns that the loops of the threads make. -/
def turns (s : Phase T) : ℕ := ∑ c, (s.clients c).turns

/-- All threads have returned. -/
def Finished (s : Phase T) : Prop :=
  ∀ c, (s.clients c).running = false ∧ (s.clients c).held = none

instance (s : Phase T) : Decidable s.Finished := inferInstanceAs (Decidable (∀ _, _ ∧ _))

/-- No thread has begun. -/
def Fresh (s : Phase T) : Prop := ∀ c, (s.clients c).i = 0 ∧ (s.clients c).held = none

/-- The first `k` numbers of a counter that starts at `start`. -/
def handedOut (start : UInt64) (k : ℕ) : Multiset UInt64 :=
  (Multiset.range k).map fun i => start + UInt64.ofNat i

theorem handedOut_succ (start : UInt64) (k : ℕ) :
    handedOut start (k + 1) = (start + UInt64.ofNat k) ::ₘ handedOut start k := by
  rw [handedOut, Multiset.range_succ, Multiset.map_cons, handedOut]

@[simp] theorem card_handedOut (start : UInt64) (k : ℕ) : (handedOut start k).card = k := by
  rw [handedOut, Multiset.card_map, Multiset.card_range]

theorem mem_handedOut {start : UInt64} {k : ℕ} {keyNum : UInt64} :
    keyNum ∈ handedOut start k ↔ ∃ i < k, keyNum = start + UInt64.ofNat i := by
  rw [handedOut, Multiset.mem_map]
  exact exists_congr fun i => and_congr Multiset.mem_range eq_comm

/-- The numbers handed out are an interval when the counter does not wrap. -/
theorem mem_handedOut_iff {start : UInt64} {k : ℕ} {keyNum : UInt64}
    (hwrap : start.toNat + k ≤ 2 ^ 64) : keyNum ∈ handedOut start k ↔
      start.toNat ≤ keyNum.toNat ∧ keyNum.toNat < start.toNat + k := by
  rw [mem_handedOut]
  constructor
  · rintro ⟨i, hi, rfl⟩
    rw [toNat_add_ofNat (by omega)]
    omega
  · rintro ⟨hle, hlt⟩
    refine ⟨keyNum.toNat - start.toNat, by omega, UInt64.toNat_inj.mp ?_⟩
    rw [toNat_add_ofNat (by omega)]
    omega

/-- What the threads of a phase have done since it started in `s₀`: the keys `new`
have been stored and `taken` key numbers have been handed out. -/
structure Progress (s₀ : Phase T) (new : List UInt64) (taken : ℕ) (s : Phase T) : Prop where
  isLoading : s.isLoading = s₀.isLoading
  wl : s.wl = { s₀.wl with keyGenerator := ⟨s₀.wl.keyGenerator.counter + UInt64.ofNat taken⟩ }
  stored : s.stored = new ++ s₀.stored
  keys : ↑new + s.heldKeys = handedOut s₀.wl.keyGenerator.counter taken
  turns : s.turns = s₀.turns
  within : ∀ c, (s.clients c).Within
  new_le : new.length ≤ s.executed
  new_eq : s₀.isLoading = true → new.length = s.executed

/-- Changing one member of a family trades one summand for another. -/
theorem sum_update_add {ι α M : Type*} [Fintype ι] [DecidableEq ι] [AddCommMonoid M]
    (g : α → M) (f : ι → α) (i : ι) (a : α) :
    ∑ j, g (Function.update f i a j) + g (f i) = ∑ j, g (f j) + g a := by
  have hsplit : ∀ f : ι → α, ∑ j, g (f j) = g (f i) + ∑ j ∈ Finset.univ.erase i, g (f j) :=
    fun f => (Finset.add_sum_erase Finset.univ (fun j => g (f j)) (Finset.mem_univ i)).symm
  have hrest : ∑ j ∈ Finset.univ.erase i, g (Function.update f i a j) =
      ∑ j ∈ Finset.univ.erase i, g (f j) :=
    Finset.sum_congr rfl fun j hj => by rw [Function.update_of_ne (Finset.ne_of_mem_erase hj)]
  rw [hsplit (Function.update f i a), hsplit f, Function.update_self, hrest]
  abel

section Update

variable {s s' : Phase T} {c : Fin T} {d : DelegateClient}
  (hclients : s'.clients = Function.update s.clients c d)

include hclients

theorem executed_update : s'.executed + (s.clients c).i = s.executed + d.i := by
  rw [executed, hclients]
  exact sum_update_add (·.i) s.clients c d

theorem heldKeys_update :
    s'.heldKeys + (s.clients c).heldKeys = s.heldKeys + d.heldKeys := by
  rw [heldKeys, hclients]
  exact sum_update_add DelegateClient.heldKeys s.clients c d

theorem turns_update (hd : d.turns = (s.clients c).turns) : s'.turns = s.turns := by
  have hsum := sum_update_add DelegateClient.turns s.clients c d
  rw [hd] at hsum
  rw [turns, hclients]
  exact Nat.add_right_cancel hsum

theorem within_update (hwithin : ∀ c, (s.clients c).Within) (hd : d.Within) :
    ∀ c, (s'.clients c).Within := by
  intro c'
  rw [hclients]
  by_cases hc : c' = c
  · rw [hc, Function.update_self]
    exact hd
  · rw [Function.update_of_ne hc]
    exact hwithin c'

end Update

/-- A phase starts with nothing done. -/
theorem Progress.refl {s : Phase T} (hfresh : s.Fresh) : Progress s [] 0 s where
  isLoading := rfl
  wl := by rw [show UInt64.ofNat 0 = 0 from rfl, UInt64.add_zero]
  stored := rfl
  keys := by
    have hheld : s.heldKeys = 0 :=
      Finset.sum_eq_zero fun c _ => DelegateClient.heldKeys_none (hfresh c).2
    rw [hheld]
    rfl
  turns := rfl
  within c := by
    rw [Within, (hfresh c).1, DelegateClient.heldKeys_none (hfresh c).2]
    exact Nat.zero_le _
  new_le := Nat.zero_le _
  new_eq _ := (Finset.sum_eq_zero fun c _ => (hfresh c).1).symm

theorem Progress.take {s₀ s s' : Phase T} {new : List UInt64} {taken : ℕ} {c : Fin T}
    (hprogress : Progress s₀ new taken s) (hstep : s.step (.take c) = some s') :
    Progress s₀ new (taken + 1) s' := by
  obtain ⟨hrunning, hheld, hs'⟩ := step_take hstep
  have hclients := congrArg Phase.clients hs'
  have hcounter : s.wl.keyGenerator.counter =
      s₀.wl.keyGenerator.counter + UInt64.ofNat taken := by rw [hprogress.wl]
  have hexecuted := executed_update hclients
  rw [i_take, Nat.add_right_cancel_iff] at hexecuted
  refine ⟨?_, ?_, ?_, ?_, ?_, ?_, ?_, ?_⟩
  · rw [hs']
    exact hprogress.isLoading
  · rw [hs', hprogress.wl, UInt64.ofNat_add, ← UInt64.add_assoc]
    rfl
  · rw [hs']
    exact hprogress.stored
  · have hkeys := heldKeys_update hclients
    rw [heldKeys_none hheld, add_zero, heldKeys_take] at hkeys
    rw [hkeys, handedOut_succ, ← hprogress.keys, ← hcounter, ← Multiset.singleton_add,
      add_comm {_}, add_assoc]
  · exact (turns_update hclients rfl).trans hprogress.turns
  · exact within_update hclients hprogress.within (within_take hrunning)
  · rw [hexecuted]
    exact hprogress.new_le
  · rw [hexecuted]
    exact hprogress.new_eq

theorem Progress.store {s₀ s s' : Phase T} {new : List UInt64} {taken : ℕ} {c : Fin T}
    (hprogress : Progress s₀ new taken s) (hstep : s.step (.store c) = some s') :
    ∃ keyNum, (s.clients c).held = some keyNum ∧ Progress s₀ (keyNum :: new) taken s' := by
  obtain ⟨keyNum, hheld, hs'⟩ := step_store hstep
  have hclients := congrArg Phase.clients hs'
  have hexecuted := executed_update hclients
  rw [i_next, ← Nat.add_assoc, Nat.add_right_comm, Nat.add_right_cancel_iff] at hexecuted
  refine ⟨keyNum, hheld, ?_, ?_, ?_, ?_, ?_, ?_, ?_, ?_⟩
  · rw [hs']
    exact hprogress.isLoading
  · rw [hs']
    exact hprogress.wl
  · rw [hs', List.cons_append]
    exact congrArg _ hprogress.stored
  · have hkeys := heldKeys_update hclients
    rw [heldKeys_some hheld, heldKeys_next, add_zero] at hkeys
    rw [← hprogress.keys, ← hkeys, ← Multiset.cons_coe, ← Multiset.singleton_add, add_comm {_},
      add_assoc, add_comm {_}]
  · exact (turns_update hclients rfl).trans hprogress.turns
  · exact within_update hclients hprogress.within
      (within_next_of_held (hprogress.within c) hheld)
  · rw [hexecuted, List.length_cons]
    exact Nat.succ_le_succ hprogress.new_le
  · intro hloading
    rw [hexecuted, List.length_cons, hprogress.new_eq hloading]

theorem Progress.other {s₀ s s' : Phase T} {new : List UInt64} {taken : ℕ} {c : Fin T}
    {op : Operation} (hprogress : Progress s₀ new taken s)
    (hstep : s.step (.other c op) = some s') : Progress s₀ new taken s' := by
  obtain ⟨hrunning, hheld, hrun, -, hs'⟩ := step_other hstep
  have hclients := congrArg Phase.clients hs'
  have hexecuted := executed_update hclients
  rw [i_next, ← Nat.add_assoc, Nat.add_right_comm, Nat.add_right_cancel_iff] at hexecuted
  refine ⟨?_, ?_, ?_, ?_, ?_, ?_, ?_, ?_⟩
  · rw [hs']
    exact hprogress.isLoading
  · rw [hs']
    exact hprogress.wl
  · rw [hs']
    exact hprogress.stored
  · have hkeys := heldKeys_update hclients
    rw [heldKeys_none hheld, heldKeys_next, add_zero, add_zero] at hkeys
    rw [hkeys, hprogress.keys]
  · exact (turns_update hclients rfl).trans hprogress.turns
  · exact within_update hclients hprogress.within (within_next_of_running hrunning)
  · rw [hexecuted]
    exact Nat.le_succ_of_le hprogress.new_le
  · intro hloading
    rw [← hprogress.isLoading, hrun] at hloading
    cases hloading

/-- Every event adds to what the threads have done. -/
theorem Progress.step {s₀ s s' : Phase T} {new : List UInt64} {taken : ℕ} {e : ClientEvent T}
    (hprogress : Progress s₀ new taken s) (hstep : s.step e = some s') :
    ∃ new' taken', Progress s₀ new' taken' s' := by
  cases e with
  | take c => exact ⟨new, taken + 1, hprogress.take hstep⟩
  | store c =>
      obtain ⟨keyNum, -, hprogress'⟩ := hprogress.store hstep
      exact ⟨keyNum :: new, taken, hprogress'⟩
  | other c op => exact ⟨new, taken, hprogress.other hstep⟩

/-- Whatever the order in which the threads move, `Progress` describes what they
have done. -/
theorem progress_run {s₀ s : Phase T} {es : List (ClientEvent T)} (hfresh : s₀.Fresh)
    (hrun : (machine T).run s₀ es = some s) : ∃ new taken, Progress s₀ new taken s :=
  (machine T).run_invariant (I := fun s => ∃ new taken, Progress s₀ new taken s)
    (fun _ _ _ ⟨_, _, hprogress⟩ hstep => hprogress.step hstep)
    ⟨[], 0, Progress.refl hfresh⟩ hrun

theorem Progress.taken_eq {s₀ s : Phase T} {new : List UInt64} {taken : ℕ}
    (hprogress : Progress s₀ new taken s) : taken = new.length + s.heldKeys.card := by
  have hcard := congrArg Multiset.card hprogress.keys
  rw [Multiset.card_add, Multiset.coe_card, card_handedOut] at hcard
  exact hcard.symm

/-- The number that the next insert takes. -/
theorem Progress.nextSequenceKeyNum {s₀ s : Phase T} {new : List UInt64} {taken : ℕ}
    (hprogress : Progress s₀ new taken s) :
    s.wl.nextSequenceKeyNum.1 = s₀.wl.keyGenerator.counter + UInt64.ofNat taken := by
  rw [hprogress.wl]
  rfl

/-- The keys stored in a phase are among those handed out. -/
theorem Progress.mem_handedOut {s₀ s : Phase T} {new : List UInt64} {taken : ℕ}
    (hprogress : Progress s₀ new taken s) {keyNum : UInt64} (hmem : keyNum ∈ new) :
    keyNum ∈ handedOut s₀.wl.keyGenerator.counter taken := by
  rw [← hprogress.keys]
  exact Multiset.mem_add.mpr (Or.inl (Multiset.mem_coe.mpr hmem))

/-- The threads have not done more than their loops make turns. -/
theorem executed_add_card_le {s : Phase T} (hwithin : ∀ c, (s.clients c).Within) :
    s.executed + s.heldKeys.card ≤ s.turns := by
  have hcard : s.heldKeys.card = ∑ c, (s.clients c).heldKeys.card :=
    map_sum Multiset.cardHom (fun c => (s.clients c).heldKeys) Finset.univ
  rw [executed, hcard, ← Finset.sum_add_distrib]
  exact Finset.sum_le_sum fun c _ => hwithin c

theorem Progress.taken_le {s₀ s : Phase T} {new : List UInt64} {taken : ℕ}
    (hprogress : Progress s₀ new taken s) : taken ≤ s₀.turns := by
  have hle := executed_add_card_le hprogress.within
  have hnew := hprogress.new_le
  rw [hprogress.turns] at hle
  rw [hprogress.taken_eq]
  omega

theorem Finished.heldKeys_eq {s : Phase T} (hfinished : s.Finished) : s.heldKeys = 0 :=
  Finset.sum_eq_zero fun c _ => DelegateClient.heldKeys_none (hfinished c).2

/-- Threads that have returned have made all turns of their loops. -/
theorem Finished.executed_eq {s : Phase T} (hfinished : s.Finished)
    (hwithin : ∀ c, (s.clients c).Within) : s.executed = s.turns := by
  refine Finset.sum_congr rfl fun c _ => Nat.le_antisymm ?_ ?_
  · exact (Nat.le_add_right _ _).trans (hwithin c)
  · rw [← Nat.not_lt, ← running_iff, (hfinished c).1]
    exact Bool.false_ne_true

/-- Nothing happens any more when all threads have returned. -/
theorem stuck_of_finished {s : Phase T} (hfinished : s.Finished) : (machine T).Stuck s := by
  intro e
  cases e with
  | take c => simp only [machine, step, (hfinished c).1, Bool.false_eq_true, false_and, if_false]
  | store c => simp only [machine, step, (hfinished c).2]
  | other c op =>
      simp only [machine, step, (hfinished c).1, Bool.false_eq_true, false_and, if_false]

/-- A phase in which nothing can happen has finished. -/
theorem finished_of_stuck {s : Phase T} (hstuck : (machine T).Stuck s) : s.Finished := by
  have hheld : ∀ c, (s.clients c).held = none := by
    intro c
    cases hheld : (s.clients c).held with
    | none => rfl
    | some keyNum =>
        have hstore := hstuck (.store c)
        simp only [machine, step, hheld] at hstore
        cases hstore
  intro c
  refine ⟨?_, hheld c⟩
  cases hrunning : (s.clients c).running with
  | false => rfl
  | true =>
      have htake := hstuck (.take c)
      simp only [machine, step] at htake
      rw [if_pos ⟨hrunning, hheld c⟩] at htake
      cases htake

/-- An operation is at most two events, so a phase comes to its end. -/
theorem length_run_le {s₀ s : Phase T} {es : List (ClientEvent T)} (hfresh : s₀.Fresh)
    (hrun : (machine T).run s₀ es = some s) : es.length ≤ 2 * s₀.turns := by
  let I : List (ClientEvent T) → Phase T → Prop := fun es s =>
    (∃ new taken, Progress s₀ new taken s) ∧ es.length ≤ 2 * s.executed + s.heldKeys.card
  have hI : I es s := by
    refine (machine T).run_trace ?_ ⟨⟨[], 0, Progress.refl hfresh⟩, Nat.zero_le _⟩ hrun
    rintro es s e s' ⟨⟨new, taken, hprogress⟩, hle⟩ hstep
    refine ⟨hprogress.step hstep, ?_⟩
    rw [List.length_append, List.length_singleton]
    cases e with
    | take c =>
        obtain ⟨-, hheld, hs'⟩ := step_take hstep
        have hexecuted := executed_update (congrArg Phase.clients hs')
        have hkeys := congrArg Multiset.card (heldKeys_update (congrArg Phase.clients hs'))
        rw [i_take] at hexecuted
        rw [heldKeys_none hheld, add_zero, heldKeys_take, Multiset.card_add,
          Multiset.card_singleton] at hkeys
        omega
    | store c =>
        obtain ⟨keyNum, hheld, hs'⟩ := step_store hstep
        have hexecuted := executed_update (congrArg Phase.clients hs')
        have hkeys := congrArg Multiset.card (heldKeys_update (congrArg Phase.clients hs'))
        rw [i_next] at hexecuted
        rw [heldKeys_some hheld, heldKeys_next, add_zero, Multiset.card_add,
          Multiset.card_singleton] at hkeys
        omega
    | other c op =>
        obtain ⟨-, hheld, -, -, hs'⟩ := step_other hstep
        have hexecuted := executed_update (congrArg Phase.clients hs')
        have hkeys := heldKeys_update (congrArg Phase.clients hs')
        rw [i_next] at hexecuted
        rw [heldKeys_none hheld, heldKeys_next, add_zero, add_zero] at hkeys
        rw [hkeys]
        omega
  obtain ⟨⟨new, taken, hprogress⟩, hle⟩ := hI
  have hwithin := executed_add_card_le hprogress.within
  rw [hprogress.turns] at hwithin
  omega

/-! ## How `main` starts a phase -/

end Phase

namespace Properties

/-- The threads that `main` starts in a phase. -/
def numThreads (p : Properties) : ℕ := p.threadCount.toInt.toNat

/-- `total_ops` of a phase. -/
def totalOps (p : Properties) (isLoading : Bool) : Int32 :=
  if isLoading then p.recordCount else p.operationCount

/-- The operations that the threads of a phase perform together: the share of one thread
as many times as there are threads, which is not always all of `total_ops`. -/
def performedOps (p : Properties) (isLoading : Bool) : ℕ :=
  p.numThreads * ((p.totalOps isLoading).toInt.toNat / p.numThreads)

theorem performedOps_le (p : Properties) (isLoading : Bool) :
    p.performedOps isLoading ≤ (p.totalOps isLoading).toInt.toNat :=
  Nat.mul_div_le _ _

/-- An `int` counts the operations of a phase. -/
theorem performedOps_lt (p : Properties) (isLoading : Bool) :
    p.performedOps isLoading < 2 ^ 31 := by
  have hle := p.performedOps_le isLoading
  have hlt := Int32.toInt_lt (p.totalOps isLoading)
  omega

/-- All operations are performed exactly when the number of threads divides them. -/
theorem performedOps_eq_iff {p : Properties} {isLoading : Bool} (hthreads : 0 < p.threadCount.toInt)
    (hops : 0 ≤ (p.totalOps isLoading).toInt) :
    (p.performedOps isLoading : ℤ) = (p.totalOps isLoading).toInt ↔
      p.threadCount.toInt ∣ (p.totalOps isLoading).toInt := by
  obtain ⟨n, hn⟩ := Int.eq_ofNat_of_zero_le hops
  obtain ⟨t, ht⟩ := Int.eq_ofNat_of_zero_le hthreads.le
  rw [performedOps, numThreads, hn, ht, Int.toNat_natCast, Int.toNat_natCast, Int.ofNat_inj,
    Int.natCast_dvd_natCast]
  exact ⟨fun hall => Dvd.intro _ hall, Nat.mul_div_cancel'⟩

end Properties

namespace Phase

/-- A phase as `main` starts it. -/
def start (p : Properties) (isLoading : Bool) (wl : CoreWorkload) (stored : List UInt64) :
    Phase p.numThreads where
  isLoading := isLoading
  wl := wl
  stored := stored
  clients _ := .start (p.totalOps isLoading / p.threadCount)

variable {p : Properties} {isLoading : Bool} {wl : CoreWorkload} {stored : List UInt64}

@[simp] theorem wl_start : (start p isLoading wl stored).wl = wl := rfl

@[simp] theorem stored_start : (start p isLoading wl stored).stored = stored := rfl

theorem fresh_start : (start p isLoading wl stored).Fresh := fun _ => ⟨rfl, rfl⟩

theorem turns_start : (start p isLoading wl stored).turns = p.performedOps isLoading := by
  have hsum : (start p isLoading wl stored).turns =
      p.numThreads * (p.totalOps isLoading / p.threadCount).toInt.toNat :=
    Fin.sum_const p.numThreads (p.totalOps isLoading / p.threadCount).toInt.toNat
  rw [hsum, Properties.performedOps]
  rcases Nat.eq_zero_or_pos p.numThreads with hzero | hpos
  · rw [hzero, Nat.zero_mul, Nat.zero_mul]
  · rw [toNat_div (Int.lt_toNat.mp hpos)]
    rfl

end Phase

end YcsbC
