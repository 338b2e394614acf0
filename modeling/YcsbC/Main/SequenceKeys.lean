import YcsbC.Core.Client
import YcsbC.Db.HashtableDB
import YcsbC.Foundation.Custody
import YcsbC.Foundation.Machine

/-!
# Sequence keys under concurrent clients

Clients share one workload.  `DoInsert` and `TransactionInsert` are two steps each: the
atomic `fetch_add` in `NextSequenceKey`, and the insert of that key into the database.
Other transactions are one step, as they do not touch the counter.  Steps of different
clients interleave in any way.

A key number is a ticket (`Custody`): it is handed out to one client, which inserts it
once.
-/

namespace YcsbC

namespace CounterGenerator

/-- The first `k` numbers of a counter that starts at `start`, in order. -/
def numbers (start : UInt64) (k : ℕ) : List UInt64 :=
  (List.range k).map fun i => start + UInt64.ofNat i

theorem numbers_succ (start : UInt64) (k : ℕ) :
    numbers start (k + 1) = numbers start k ++ [start + UInt64.ofNat k] := by
  simp [numbers, List.range_succ]

@[simp] theorem length_numbers (start : UInt64) (k : ℕ) : (numbers start k).length = k := by
  simp [numbers]

section NoWrap

variable {start : UInt64} {k : ℕ}

/-- The numbers are consecutive as long as the counter does not wrap. -/
theorem map_toNat_numbers (hwrap : start.toNat + k ≤ 2 ^ 64) :
    (numbers start k).map UInt64.toNat = List.range' start.toNat k := by
  rw [numbers, List.map_map, List.range'_eq_map_range]
  refine List.map_congr_left fun i hi => ?_
  have hlt := List.mem_range.mp hi
  exact toNat_add_ofNat (by omega)

/-- The next number is new. -/
theorem notMem_numbers (hwrap : start.toNat + k < 2 ^ 64) :
    start + UInt64.ofNat k ∉ numbers start k := by
  intro membership
  have hmem : (start + UInt64.ofNat k).toNat ∈ (numbers start k).map UInt64.toNat :=
    List.mem_map_of_mem membership
  rw [map_toNat_numbers hwrap.le, toNat_add_ofNat hwrap] at hmem
  simp [List.mem_range'] at hmem

end NoWrap

end CounterGenerator

/-- What clients share, the key number that each of them has taken and not inserted yet,
and the key numbers taken and inserted so far. -/
structure Inserters (ι σ χ : Type*) where
  /-- The database and the workload. -/
  bench : Bench σ χ
  /-- The key that a client is about to insert. -/
  held : ι → Option UInt64
  /-- The key numbers that `NextSequenceKey` has handed out, the oldest first. -/
  taken : List UInt64
  /-- The key numbers that have been inserted, the oldest first. -/
  inserted : List UInt64

/-- A step of a client. -/
inductive InserterEvent (ι δ : Type*) where
  /-- `NextSequenceKey`, in `DoInsert` or `TransactionInsert`. -/
  | take (client : ι)
  /-- `Insert` on the database, in `DoInsert` or `TransactionInsert`. -/
  | store (client : ι) (values : ℕ → CoreWorkload.ValueDraw)
  /-- A transaction other than `TransactionInsert`. -/
  | other (client : ι) (draws : TransactionDraws δ)

/-- The step is a `fetch_add`. -/
def InserterEvent.isTake {ι δ : Type*} : InserterEvent ι δ → Bool
  | .take _ => true
  | .store .. | .other .. => false

namespace Inserters

open CounterGenerator

variable {ι σ χ δ : Type*} [DecidableEq ι] (db : DB σ) (next : χ → δ → Option (UInt64 × χ))

/-- What a step does. -/
def step (s : Inserters ι σ χ) : InserterEvent ι δ → Option (Inserters ι σ χ)
  | .take client =>
      match s.held client with
      | some _ => none
      | none =>
          let (keyNum, wl) := s.bench.wl.nextSequenceKeyNum
          some { s with
            bench := { s.bench with wl := wl }
            held := Function.update s.held client (some keyNum)
            taken := s.taken ++ [keyNum] }
  | .store client values =>
      match s.held client with
      | none => none
      | some keyNum =>
          let wl := s.bench.wl
          (s.bench.insert db wl.tableName (wl.keyName keyNum) (wl.buildValues values)).map
            fun (_, bench) => { s with
              bench := bench
              held := Function.update s.held client none
              inserted := s.inserted ++ [keyNum] }
  | .other client draws =>
      if s.held client = none ∧ draws.op ≠ .INSERT then
        (s.bench.transaction db next draws).map fun (_, bench) => { s with bench := bench }
      else none

/-- The machine whose runs are the interleavings of the clients. -/
def machine : Machine (Inserters ι σ χ) (InserterEvent ι δ) := ⟨step db next⟩

/-- The workload as `Init` leaves it, and clients that have not begun. -/
def start (p : Properties) (store : σ) (keyChooser : χ) : Inserters ι σ χ :=
  ⟨⟨store, .init p, keyChooser, []⟩, fun _ => none, [], []⟩

/-! ## What the clients have done together -/

/-- The clients have taken the first `k` numbers of the counter.  If it has not wrapped,
each of them is inserted once or held by one client. -/
structure Counted (p : Properties) (k : ℕ) (s : Inserters ι σ χ) : Prop where
  wl : s.bench.wl =
    { CoreWorkload.init p with keyGenerator := ⟨sizeOfInt p.insertStart + UInt64.ofNat k⟩ }
  taken : s.taken = numbers (sizeOfInt p.insertStart) k
  custody : (sizeOfInt p.insertStart).toNat + k ≤ 2 ^ 64 → Custody s.held s.taken s.inserted

omit [DecidableEq ι] in
theorem counted_start (p : Properties) (store : σ) (keyChooser : χ) :
    Counted p 0 (start p store keyChooser : Inserters ι σ χ) where
  wl := by
    rw [show sizeOfInt p.insertStart + UInt64.ofNat 0 = sizeOfInt p.insertStart from
      UInt64.add_zero _, ← CoreWorkload.keyGenerator_init]
    rfl
  taken := rfl
  custody _ := Custody.start

section Steps

variable {db next} {p : Properties} {k : ℕ} {s s' : Inserters ι σ χ} {client : ι}
  (hs : Counted p k s)

include hs

/-- A `fetch_add` hands out the next number. -/
theorem Counted.take (hstep : step db next s (.take client : InserterEvent ι δ) = some s') :
    Counted p (k + 1) s' := by
  have hnext : s.bench.wl.nextSequenceKeyNum = (sizeOfInt p.insertStart + UInt64.ofNat k,
      { CoreWorkload.init p with
        keyGenerator := ⟨sizeOfInt p.insertStart + UInt64.ofNat (k + 1)⟩ }) := by
    rw [hs.wl, UInt64.ofNat_add, ← UInt64.add_assoc]
    rfl
  rw [step] at hstep
  split at hstep
  next => cases hstep
  next hfree =>
    rw [hnext] at hstep
    cases hstep
    constructor
    · rfl
    · rw [hs.taken, numbers_succ]
    · intro hwrap
      refine (hs.custody (by omega)).issue hfree ?_
      rw [hs.taken]
      exact notMem_numbers (by omega)

/-- An insert into the database hands a number in. -/
theorem Counted.store {values : ℕ → CoreWorkload.ValueDraw}
    (hstep : step db next s (.store client values : InserterEvent ι δ) = some s') : Counted p k s' := by
  rw [step] at hstep
  split at hstep
  next => cases hstep
  next keyNum hheld =>
    obtain ⟨⟨code, bench⟩, hinsert, rfl⟩ := Option.map_eq_some_iff.mp hstep
    constructor
    · rw [← hs.wl]
      exact Bench.wl_of_insert hinsert
    · exact hs.taken
    · intro hwrap
      exact (hs.custody hwrap).handIn hheld

/-- Another transaction does not use the counter. -/
theorem Counted.other {draws : TransactionDraws δ}
    (hstep : step db next s (.other client draws) = some s') : Counted p k s' := by
  rw [step] at hstep
  split at hstep
  next hother =>
    obtain ⟨⟨code, bench⟩, htransaction, rfl⟩ := Option.map_eq_some_iff.mp hstep
    refine ⟨?_, hs.taken, hs.custody⟩
    rw [← hs.wl]
    exact Bench.wl_of_transaction hother.2 htransaction
  next => cases hstep

end Steps

variable {db next} {p : Properties} {store : σ} {keyChooser : χ} {s : Inserters ι σ χ}
  {events : List (InserterEvent ι δ)}

/-- Whatever the order in which the clients move, they take the numbers of the counter. -/
theorem counted_run (hrun : (machine db next).run (start p store keyChooser) events = some s) :
    Counted p (events.countP InserterEvent.isTake) s := by
  refine (machine db next).run_trace
    (I := fun events s => Counted p (events.countP InserterEvent.isTake) s) ?_
    (counted_start p store keyChooser) hrun
  intro events s e s' hs hstep
  change step db next s e = some s' at hstep
  rw [List.countP_append]
  cases e with
  | take client => exact hs.take hstep
  | store client values => exact hs.store hstep
  | other client draws => exact hs.other hstep

/-- In every state that clients reach by `k` steps of `fetch_add` and any others, the key
numbers handed out are `insertstart .. insertstart + k - 1`, and each of them has been
inserted once or is held by one client, which has not inserted it. -/
theorem taken_once (hinsert : 0 ≤ p.insertStart.toInt)
    (hrun : (machine db next).run (start p store keyChooser) events = some s)
    (hwrap : (events.countP InserterEvent.isTake : ℤ) < 2 ^ 64 - p.insertStart.toInt) :
    s.taken.Nodup ∧
      s.taken.map UInt64.toNat =
        List.range' p.insertStart.toInt.toNat (events.countP InserterEvent.isTake) ∧
      ∀ keyNum ∈ s.taken,
        s.inserted.count keyNum = 1 ∧ (∀ client, s.held client ≠ some keyNum) ∨
          s.inserted.count keyNum = 0 ∧ ∃! client, s.held client = some keyNum := by
  have hs := counted_run hrun
  have hstart := toNat_sizeOfInt hinsert
  have hcustody := hs.custody (by omega)
  refine ⟨hcustody.nodup_issued, ?_, fun keyNum => hcustody.once⟩
  rw [hs.taken, map_toNat_numbers (by omega), hstart]

/-- A client with no other in between makes a `DoInsert`. -/
theorem run_doInsert {client : ι} (hfree : s.held client = none)
    (values : ℕ → CoreWorkload.ValueDraw) :
    ((machine db next).run s [.take client, .store client values]).map Inserters.bench =
      (s.bench.doInsert db values).map Prod.snd := by
  have htake : (machine db next).step s (.take client) = some { s with
      bench := s.bench.nextSequenceKey.2
      held := Function.update s.held client (some s.bench.wl.keyGenerator.counter)
      taken := s.taken ++ [s.bench.wl.keyGenerator.counter] } := by
    simp only [machine, step, hfree]
    rfl
  rw [Machine.run_cons, htake, Option.bind_some, Machine.run_cons]
  simp only [machine, step, Function.update_self, Machine.run_nil, Option.bind_fun_some,
    Option.map_map, Bench.doInsert]
  rfl

/-- Two clients take a key each, and the second inserts its key first. -/
def twoClients : List (InserterEvent Bool Unit) :=
  [.take false, .take true, .store true fun _ => ⟨1, 0⟩]

/-- Two records of one field. -/
def twoRecords : Properties := { recordCount := 2, operationCount := 0, fieldCount := 1 }

/-- The theorem at these clients, on a `HashtableDB`. -/
theorem taken_once_twoClients :
    ∃ s : Inserters Bool HashtableDB Unit,
      (machine (HashtableDB.asDB .latestFirst) fun _ _ => none).run
        (start twoRecords .empty ()) twoClients = some s ∧
      s.taken.Nodup ∧ s.taken.map UInt64.toNat = [0, 1] ∧
      ∀ keyNum ∈ s.taken,
        s.inserted.count keyNum = 1 ∧ (∀ client, s.held client ≠ some keyNum) ∨
          s.inserted.count keyNum = 0 ∧ ∃! client, s.held client = some keyNum := by
  have hreturns : ((machine (HashtableDB.asDB .latestFirst) fun _ _ => none).run
      (start twoRecords .empty ()) twoClients).isSome := by decide +kernel
  obtain ⟨s, hrun⟩ := Option.isSome_iff_exists.mp hreturns
  exact ⟨s, hrun, taken_once (by decide) hrun (by decide)⟩

end Inserters

end YcsbC
