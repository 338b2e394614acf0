import YcsbC.Core.ClientSimulation
import YcsbC.Foundation.WriteLog
import YcsbC.Main.KeptValues
import YcsbC.Main.LoadThenRun

/-!
# The store that a benchmark needs

`WrittenRecords` is a log of the values that records were given.  An `Insert` can be
made of a record that is not there, and a `Read` or an `Update` of one that is.  A load
and a run can be made on it, and so on every database that simulates it, whenever its
threads call `Init` (`load_then_run_of_simulates`).
-/

namespace YcsbC

/-- The last values that were put under keys, the oldest first. -/
abbrev WrittenRecords := WriteLog Str Str

namespace WrittenRecords

/-- A write of a list of pairs puts the last of its values. -/
def write (log : WrittenRecords) (key : Str) (values : List KVPair) :
    Option (ℤ × WrittenRecords) :=
  values.getLast?.map fun pair => (kOK, log ++ [(key, pair.2)])

/-- The log as a database.  It has no result for a call that the benchmark does not make. -/
def asDB : DB WrittenRecords where
  read log _ key _ := if (log.last key).isSome then some (kOK, [], log) else none
  scan log _ _ _ _ := some (kOK, [], log)
  update log _ key values := if (log.last key).isSome then write log key values else none
  insert log _ key values := if (log.last key).isNone then write log key values else none

theorem write_eq_some {log log' : WrittenRecords} {key : Str} {values : List KVPair} {code : ℤ}
    (hwrite : write log key values = some (code, log')) :
    ∃ pair, values.getLast? = some pair ∧ code = kOK ∧ log' = log ++ [(key, pair.2)] := by
  obtain ⟨pair, hlast, heq⟩ := Option.map_eq_some_iff.mp hwrite
  cases heq
  exact ⟨pair, hlast, rfl, rfl⟩

/-- A write of a list that is not empty can be made. -/
theorem exists_write (log : WrittenRecords) (key : Str) {values : List KVPair}
    (hne : values ≠ []) : ∃ value, write log key values = some (kOK, log ++ [(key, value)]) := by
  refine ⟨(values.getLast hne).2, ?_⟩
  rw [write, List.getLast?_eq_some_getLast hne, Option.map_some]

end WrittenRecords

/-- The call inserts a record. -/
def BenchCall.inserts {δ : Type} : BenchCall δ → Bool
  | doInsert _ => true
  | doTransaction draws => draws.op = .INSERT

namespace Bench

variable {χ δ : Type} {next : χ → δ → Option (UInt64 × χ)}

/-! ## The log in a load and a run -/

/-- The store after `k` inserts: it has the first `k` keys, and no call has failed. -/
structure Logged (p : Properties) (k : ℕ) (t : Bench WrittenRecords χ) : Prop where
  wl : t.wl = { CoreWorkload.init p with keyGenerator := ⟨.ofNat k⟩ }
  keys : ∀ key, (t.store.last key).isSome ↔ ∃ j < k, key = (CoreWorkload.init p).keyName (.ofNat j)
  codes : ∀ code ∈ t.codes, code = kOK

theorem logged_start {p : Properties} (hstart : p.insertStart = 0) (keyChooser : χ) :
    Logged p 0 ⟨[], .init p, keyChooser, []⟩ where
  wl := by
    have hzero : (CoreWorkload.init p).keyGenerator = ⟨.ofNat 0⟩ := by
      rw [CoreWorkload.keyGenerator_init, hstart]
      rfl
    rw [← hzero]
  keys := by simp
  codes := by simp

theorem keyName_inj {p : Properties} {i j : ℕ} (hi : i < 2 ^ 32) (hj : j < 2 ^ 32)
    (heq : (CoreWorkload.init p).keyName (.ofNat i) = (CoreWorkload.init p).keyName (.ofNat j)) :
    i = j :=
  index_inj hi hj (congrArg (p.table ++ ·) heq)

/-- Values of a record with a field are not none. -/
theorem buildValues_ne_nil {wl : CoreWorkload} (hfields : 1 ≤ wl.fieldCount.toInt)
    (draw : ℕ → CoreWorkload.ValueDraw) : wl.buildValues draw ≠ [] := by
  rw [CoreWorkload.buildValues, ne_eq, List.map_eq_nil_iff, List.range_eq_nil]
  omega

variable {p : Properties} {k : ℕ} {t : Bench WrittenRecords χ}

section Calls

variable (ht : Logged p k t)

include ht

theorem Logged.codes_append : ∀ code ∈ t.codes ++ [kOK], code = kOK := by
  intro code hmem
  rcases List.mem_append.mp hmem with hold | hnew
  · exact ht.codes code hold
  · exact List.mem_singleton.mp hnew

theorem Logged.read {j : ℕ} (hj : j < k) (table : Str) (fields : Option (List Str)) :
    ∃ t', t.read WrittenRecords.asDB table ((CoreWorkload.init p).keyName (.ofNat j)) fields =
      some (kOK, t') ∧ Logged p k t' := by
  have hpresent := (ht.keys _).mpr ⟨j, hj, rfl⟩
  refine ⟨{ t with codes := t.codes ++ [kOK] }, ?_, { ht with codes := ht.codes_append }⟩
  rw [Bench.read, WrittenRecords.asDB]
  dsimp only
  rw [if_pos hpresent, Option.map_some]

theorem Logged.scan (table key : Str) (len : Int32) (fields : Option (List Str)) :
    ∃ t', t.scan WrittenRecords.asDB table key len fields = some (kOK, t') ∧ Logged p k t' :=
  ⟨{ t with codes := t.codes ++ [kOK] }, rfl, { ht with codes := ht.codes_append }⟩

/-- Writing the record of one key number, a new one or not. -/
theorem Logged.write {j k' : ℕ} (hrange : ∀ i, i < k' ↔ i < k ∨ i = j) (value : Str)
    {wl : CoreWorkload} (hwl : wl = { CoreWorkload.init p with keyGenerator := ⟨.ofNat k'⟩ }) :
    Logged p k' { t with
      store := t.store ++ [((CoreWorkload.init p).keyName (.ofNat j), value)]
      wl := wl
      codes := t.codes ++ [kOK] } where
  wl := hwl
  keys key := by
    rw [WriteLog.last_append_singleton]
    split
    · rename_i hkey
      simp only [Option.isSome_some, true_iff]
      exact ⟨j, (hrange j).mpr (Or.inr rfl), hkey.symm⟩
    · rename_i hkey
      rw [ht.keys]
      constructor
      · rintro ⟨i, hi, heq⟩
        exact ⟨i, (hrange i).mpr (Or.inl hi), heq⟩
      · rintro ⟨i, hi, heq⟩
        rcases (hrange i).mp hi with hlt | rfl
        · exact ⟨i, hlt, heq⟩
        · exact absurd heq.symm hkey
  codes := ht.codes_append

theorem Logged.update {j : ℕ} (hj : j < k) (table : Str) {values : List KVPair}
    (hvalues : values ≠ []) :
    ∃ t', t.update WrittenRecords.asDB table ((CoreWorkload.init p).keyName (.ofNat j)) values =
      some (kOK, t') ∧ Logged p k t' := by
  have hpresent := (ht.keys _).mpr ⟨j, hj, rfl⟩
  obtain ⟨value, hwrite⟩ := WrittenRecords.exists_write t.store
    ((CoreWorkload.init p).keyName (.ofNat j)) hvalues
  refine ⟨_, ?_, ht.write (j := j) (fun i => by omega) value ht.wl⟩
  rw [Bench.update, WrittenRecords.asDB]
  dsimp only
  rw [if_pos hpresent, hwrite]
  rfl

/-- The next insert meets no record, since its key number has not been used. -/
theorem Logged.insert (hk : k < 2 ^ 32) (hfields : 1 ≤ (CoreWorkload.init p).fieldCount.toInt)
    (values : ℕ → CoreWorkload.ValueDraw) :
    ∃ t', t.nextSequenceKey.2.insert WrittenRecords.asDB t.nextSequenceKey.2.wl.tableName
        t.nextSequenceKey.1 (t.nextSequenceKey.2.wl.buildValues values) = some (kOK, t') ∧
      Logged p (k + 1) t' := by
  have habsent : (t.store.last ((CoreWorkload.init p).keyName (.ofNat k))).isNone := by
    rw [Option.isNone_iff_eq_none, ← Option.not_isSome_iff_eq_none, ht.keys]
    rintro ⟨j, hj, heq⟩
    exact absurd (keyName_inj hk (hj.trans hk) heq) hj.ne'
  -- the call as it is made under this invariant
  have hcall : t.nextSequenceKey = ((CoreWorkload.init p).keyName (.ofNat k),
      { t with wl := { CoreWorkload.init p with keyGenerator := ⟨.ofNat (k + 1)⟩ } }) := by
    rw [nextSequenceKey, ht.wl, CoreWorkload.nextSequenceKey, CoreWorkload.nextSequenceKeyNum,
      UInt64.ofNat_add]
    rfl
  obtain ⟨value, hwrite⟩ := WrittenRecords.exists_write t.store
    ((CoreWorkload.init p).keyName (.ofNat k)) (buildValues_ne_nil hfields values)
  rw [hcall]
  refine ⟨_, ?_, ht.write (j := k) (fun i => by omega) value rfl⟩
  rw [Bench.insert, WrittenRecords.asDB]
  dsimp only
  rw [if_pos habsent]
  change (WrittenRecords.write _ _ ((CoreWorkload.init p).buildValues values)).map _ = _
  rw [hwrite]
  rfl

/-- The key of a transaction is the key of a loaded record. -/
theorem Logged.nextTransactionKey (hrecords : 1 ≤ p.recordCount.toInt)
    (hloaded : p.recordCount.toInt.toNat ≤ k) {draws : List δ}
    (hends : (t.wl.nextTransactionKeyNum next t.keyChooser draws).isSome) :
    ∃ j < k, ∃ t', t.nextTransactionKey next draws =
      some ((CoreWorkload.init p).keyName (.ofNat j), t') ∧ Logged p k t' := by
  obtain ⟨⟨keyNum, keyChooser⟩, hloop⟩ := Option.isSome_iff_exists.mp hends
  obtain ⟨-, hle, -⟩ := CoreWorkload.nextTransactionKeyNum_eq_some (I := fun _ => True)
    (fun _ _ _ _ _ _ => trivial) trivial hloop
  have hlast := CoreWorkload.toNat_last_init hrecords
  rw [ht.wl, UInt64.le_iff_toNat_le] at hle
  change keyNum.toNat ≤ (CoreWorkload.init p).insertKeySequence.last.toNat at hle
  refine ⟨keyNum.toNat, by omega, { t with keyChooser := keyChooser }, ?_, { ht with }⟩
  rw [Bench.nextTransactionKey, CoreWorkload.nextTransactionKey, hloop, UInt64.ofNat_toNat, ht.wl]
  rfl

theorem Logged.updateValues_ne_nil (hfields : 1 ≤ (CoreWorkload.init p).fieldCount.toInt)
    (draws : TransactionDraws δ) : t.updateValues draws ≠ [] := by
  rw [Bench.updateValues, ht.wl]
  split
  · exact buildValues_ne_nil hfields draws.values
  · exact List.cons_ne_nil _ _

end Calls

/-- What the threads of `DelegateClient` do on one database: each calls `Init` before the
calls of its client. -/
def threadCalls {σ : Type} (db : DB σ) (init : σ → σ) (next : χ → δ → Option (UInt64 × χ)) :
    Machine (Bench σ χ) (Option (BenchCall δ)) where
  step s
    | none => some { s with store := init s.store }
    | some call => (clientCalls db next).step s call

/-- The random draws of a call end the key loop, if it has one. -/
def DrawsEnd {σ : Type} (next : χ → δ → Option (UInt64 × χ)) (s : Bench σ χ) :
    Option (BenchCall δ) → Prop
  | none | some (.doInsert _) => True
  | some (.doTransaction draws) => draws.op ≠ .INSERT →
      (s.wl.nextTransactionKeyNum next s.keyChooser draws.keys).isSome

section Transactions

variable (ht : Logged p k t) (hk : k < 2 ^ 32)
  (hfields : 1 ≤ (CoreWorkload.init p).fieldCount.toInt)

include ht hk hfields

theorem Logged.doInsert (values : ℕ → CoreWorkload.ValueDraw) :
    ∃ t', t.doInsert WrittenRecords.asDB values = some (true, t') ∧ Logged p (k + 1) t' := by
  obtain ⟨t', hinsert, ht'⟩ := ht.insert hk hfields values
  refine ⟨t', ?_, ht'⟩
  rw [Bench.doInsert]
  dsimp only
  rw [hinsert]
  rfl

theorem Logged.doTransaction (hrecords : 1 ≤ p.recordCount.toInt)
    (hloaded : p.recordCount.toInt.toNat ≤ k) {draws : TransactionDraws δ}
    (hends : draws.op ≠ .INSERT →
      (t.wl.nextTransactionKeyNum next t.keyChooser draws.keys).isSome) :
    ∃ t', t.doTransaction WrittenRecords.asDB next draws = some (true, t') ∧
      Logged p (k + if draws.op = .INSERT then 1 else 0) t' := by
  suffices htransaction : ∃ t', t.transaction WrittenRecords.asDB next draws = some (kOK, t') ∧
      Logged p (k + if draws.op = .INSERT then 1 else 0) t' by
    obtain ⟨t', htransaction, ht'⟩ := htransaction
    refine ⟨t', ?_, ht'⟩
    rw [Bench.doTransaction, htransaction]
    rfl
  rw [Bench.transaction]
  cases hop : draws.op with
  | INSERT => exact ht.insert hk hfields draws.values
  | READ =>
      rw [hop] at hends
      obtain ⟨j, hj, t₁, hkey, ht₁⟩ := ht.nextTransactionKey hrecords hloaded (hends (by simp))
      obtain ⟨t', hread, ht'⟩ := ht₁.read hj t₁.wl.tableName (t₁.readFields draws.readField)
      refine ⟨t', ?_, ht'⟩
      simp only [Bench.transactionRead, hkey, Option.bind_eq_bind, Option.bind_some, hread]
  | UPDATE =>
      rw [hop] at hends
      obtain ⟨j, hj, t₁, hkey, ht₁⟩ := ht.nextTransactionKey hrecords hloaded (hends (by simp))
      obtain ⟨t', hupdate, ht'⟩ :=
        ht₁.update hj t₁.wl.tableName (ht₁.updateValues_ne_nil hfields draws)
      refine ⟨t', ?_, ht'⟩
      simp only [Bench.transactionUpdate, hkey, Option.bind_eq_bind, Option.bind_some, hupdate]
  | SCAN =>
      rw [hop] at hends
      obtain ⟨j, -, t₁, hkey, ht₁⟩ := ht.nextTransactionKey hrecords hloaded (hends (by simp))
      obtain ⟨t', hscan, ht'⟩ := ht₁.scan t₁.wl.tableName
        ((CoreWorkload.init p).keyName (.ofNat j)) draws.scanLength.toUInt32.toInt32
        (t₁.readFields draws.readField)
      refine ⟨t', ?_, ht'⟩
      simp only [Bench.transactionScan, hkey, Option.bind_eq_bind, Option.bind_some, hscan]
  | READMODIFYWRITE =>
      rw [hop] at hends
      obtain ⟨j, hj, t₁, hkey, ht₁⟩ := ht.nextTransactionKey hrecords hloaded (hends (by simp))
      obtain ⟨t₂, hread, ht₂⟩ := ht₁.read hj t₁.wl.tableName (t₁.readFields draws.readField)
      obtain ⟨t', hupdate, ht'⟩ :=
        ht₂.update hj t₂.wl.tableName (ht₂.updateValues_ne_nil hfields draws)
      refine ⟨t', ?_, ht'⟩
      simp only [Bench.transactionReadModifyWrite, hkey, Option.bind_eq_bind, Option.bind_some,
        hread, hupdate]

/-- A call can be made, after the load if it is a transaction. -/
theorem Logged.step (hrecords : 1 ≤ p.recordCount.toInt) {call : BenchCall δ}
    (hloaded : ∀ draws, call = .doTransaction draws → p.recordCount.toInt.toNat ≤ k)
    (hends : DrawsEnd next t (some call)) :
    ∃ t', (clientCalls WrittenRecords.asDB next).step t call = some t' ∧
      Logged p (k + if call.inserts then 1 else 0) t' := by
  cases call with
  | doInsert values =>
      obtain ⟨t', hinsert, ht'⟩ := ht.doInsert hk hfields values
      exact ⟨t', by simp [clientCalls, hinsert], ht'⟩
  | doTransaction draws =>
      obtain ⟨t', htransaction, ht'⟩ :=
        ht.doTransaction hk hfields hrecords (hloaded draws rfl) hends
      refine ⟨t', by simp [clientCalls, htransaction], ?_⟩
      simpa [BenchCall.inserts] using ht'

end Transactions

/-! ## Runs -/

section Simulation

variable {σ : Type} {db : DB σ} {R : σ → WrittenRecords → Prop} {Good : DBCall → Prop}
  (hsim : db.Simulates Good WrittenRecords.asDB R)
  (hgood : ∀ call, (CoreWorkload.init p).Makes call → Good call)

include hsim hgood

/-- A call is made on both databases. -/
theorem Related.step {s : Bench σ χ} (hst : Related R s t) (ht : Logged p k t)
    {t' : Bench WrittenRecords χ} {call : BenchCall δ}
    (hstep : (clientCalls WrittenRecords.asDB next).step t call = some t') :
    ∃ s', (clientCalls db next).step s call = some s' ∧ Related R s' t' := by
  have hgood' : ∀ call, t.wl.Makes call → Good call := by
    rw [ht.wl]
    exact hgood
  cases call with
  | doInsert values =>
      obtain ⟨⟨ok, _⟩, hinsert, rfl⟩ := Option.map_eq_some_iff.mp hstep
      obtain ⟨s', hinsert', hst'⟩ := hst.doInsert hsim hgood' values hinsert
      exact ⟨s', by simp [clientCalls, hinsert'], hst'⟩
  | doTransaction draws =>
      obtain ⟨⟨ok, _⟩, htransaction, rfl⟩ := Option.map_eq_some_iff.mp hstep
      obtain ⟨s', htransaction', hst'⟩ := hst.doTransaction hsim hgood' next draws htransaction
      exact ⟨s', by simp [clientCalls, htransaction'], hst'⟩

variable {init : σ → σ} (hinit : ∀ {s t}, R s t → R (init s) t)

include hinit

/-- The calls of a run are made on both databases, and none fails. -/
theorem Logged.run {s : Bench σ χ} (hst : Related R s t) (ht : Logged p k t)
    (hfields : 1 ≤ (CoreWorkload.init p).fieldCount.toInt) (hrecords : 1 ≤ p.recordCount.toInt)
    {events : List (Option (BenchCall δ))} (hk : k + events.countP Option.isSome ≤ 2 ^ 32)
    (hloaded : ∀ draws, some (.doTransaction draws) ∈ events → p.recordCount.toInt.toNat ≤ k)
    (hends : (threadCalls db init next).Along (DrawsEnd next) s events) :
    ∃ s' t', (threadCalls db init next).run s events = some s' ∧
      (threadCalls WrittenRecords.asDB id next).run t events = some t' ∧ Related R s' t' ∧
      Logged p (k + events.countP (·.any BenchCall.inserts)) t' := by
  induction events generalizing k s t with
  | nil => exact ⟨s, t, rfl, rfl, hst, ht⟩
  | cons event events ih =>
      rw [List.countP_cons] at hk
      have hloaded' := fun draws hmem => hloaded draws (List.mem_cons_of_mem _ hmem)
      cases event with
      | none =>
          have hst₁ : Related R { s with store := init s.store } t :=
            ⟨hinit hst.store, hst.wl, hst.keyChooser, hst.codes⟩
          obtain ⟨s', t', hrun, hrun', hst', ht'⟩ := ih hst₁ ht hk hloaded' (hends.2 _ rfl)
          exact ⟨s', t', (threadCalls db init next).run_cons_eq_some.mpr ⟨_, rfl, hrun⟩,
            (threadCalls _ id next).run_cons_eq_some.mpr ⟨t, rfl, hrun'⟩, hst', ht'⟩
      | some call =>
          rw [Option.isSome_some, if_pos rfl] at hk
          have hends' : DrawsEnd next t (some call) := by
            have hcall := hends.1
            cases call with
            | doInsert values => trivial
            | doTransaction draws =>
                intro hop
                rw [← hst.wl, ← hst.keyChooser]
                exact hcall hop
          obtain ⟨t₁, hstep, ht₁⟩ := ht.step (by omega) hfields hrecords
            (fun draws hcall => hloaded draws (hcall ▸ List.mem_cons_self)) hends'
          obtain ⟨s₁, hstep', hst₁⟩ := hst.step hsim hgood ht hstep
          have hadds : (if call.inserts then 1 else 0) ≤ 1 := by split <;> omega
          obtain ⟨s', t', hrun, hrun', hst', ht'⟩ := ih hst₁ ht₁ (by omega)
            (fun draws hmem => (hloaded' draws hmem).trans (by omega)) (hends.2 s₁ hstep')
          refine ⟨s', t', (threadCalls db init next).run_cons_eq_some.mpr ⟨s₁, hstep', hrun⟩,
            (threadCalls _ id next).run_cons_eq_some.mpr ⟨t₁, hstep, hrun'⟩, hst', ?_⟩
          rwa [List.countP_cons, Nat.add_comm (List.countP _ _), ← Nat.add_assoc]

omit hsim hgood hinit in
/-- A load draws no keys. -/
theorem along_loads (loads : List (Option (ℕ → CoreWorkload.ValueDraw))) (s : Bench σ χ) :
    (threadCalls db init next).Along (DrawsEnd next) s (loads.map (Option.map .doInsert)) := by
  induction loads generalizing s with
  | nil => exact trivial
  | cons values loads ih =>
      refine ⟨?_, fun s' _ => ih s'⟩
      cases values with
      | none | some values => trivial

/-- A database that simulates the log can be loaded and run on. -/
theorem load_then_run_of_simulates {store : σ} (hstore : R store [])
    (hstart : p.insertStart = 0) (hrecords : 1 ≤ p.recordCount.toInt)
    (hfields : 1 ≤ (CoreWorkload.init p).fieldCount.toInt) (keyChooser : χ)
    {loads : List (Option (ℕ → CoreWorkload.ValueDraw))}
    (hloads : loads.countP Option.isSome = p.recordCount.toInt.toNat)
    {transactions : List (Option (TransactionDraws δ))}
    (htransactions : transactions.countP Option.isSome < 2 ^ 31)
    (hends : (threadCalls db init next).Along (DrawsEnd next) ⟨store, .init p, keyChooser, []⟩
      (loads.map (Option.map .doInsert) ++ transactions.map (Option.map .doTransaction))) :
    ∃ s t, (threadCalls db init next).run ⟨store, .init p, keyChooser, []⟩
        (loads.map (Option.map .doInsert) ++ transactions.map (Option.map .doTransaction)) =
          some s ∧
      (threadCalls WrittenRecords.asDB id next).run ⟨[], .init p, keyChooser, []⟩
        (loads.map (Option.map .doInsert) ++ transactions.map (Option.map .doTransaction)) =
          some t ∧
      Related R s t ∧
      Logged p (p.recordCount.toInt.toNat + transactions.countP (·.any (·.op = .INSERT))) t := by
  have hlt := Int32.toInt_lt p.recordCount
  have hcalls : ∀ {α β : Type} (f : α → β) (l : List (Option α)),
      (l.map (Option.map f)).countP Option.isSome = l.countP Option.isSome := by
    intro α β f l
    rw [List.countP_map]
    exact List.countP_congr fun x _ => by simp
  have hinserts : (loads.map (Option.map (BenchCall.doInsert (δ := δ)))).countP
      (·.any BenchCall.inserts) = p.recordCount.toInt.toNat := by
    rw [List.countP_map, ← hloads]
    refine List.countP_congr fun values _ => ?_
    cases values with
    | none => simp
    | some values => simp [BenchCall.inserts]
  have hinserts' : (transactions.map (Option.map BenchCall.doTransaction)).countP
      (·.any BenchCall.inserts) = transactions.countP (·.any (·.op = .INSERT)) := by
    rw [List.countP_map]
    refine List.countP_congr fun draws _ => ?_
    cases draws with
    | none => simp
    | some draws => simp [BenchCall.inserts]
  obtain ⟨s₁, t₁, hload, hload', hst₁, ht₁⟩ := (logged_start hstart keyChooser).run hsim hgood
    hinit (s := ⟨store, .init p, keyChooser, []⟩) ⟨hstore, rfl, rfl, rfl⟩ hfields hrecords
    (by rw [hcalls]; omega) (by simp) (along_loads loads _)
  rw [hinserts, Nat.zero_add] at ht₁
  obtain ⟨s, t, hrun, hrun', hst, ht⟩ := ht₁.run hsim hgood hinit hst₁ hfields hrecords
    (by rw [hcalls]; omega) (fun _ _ => le_rfl)
    ((threadCalls db init next).along_append hends hload)
  rw [hinserts'] at ht
  exact ⟨s, t, (threadCalls db init next).run_append_eq_some.mpr ⟨s₁, hload, hrun⟩,
    (threadCalls _ id next).run_append_eq_some.mpr ⟨t₁, hload', hrun'⟩, hst, ht⟩

end Simulation

end Bench

end YcsbC
