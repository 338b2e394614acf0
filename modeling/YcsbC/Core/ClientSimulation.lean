import YcsbC.Core.Client

/-!
# Clients on two databases

Of what a database returns a client looks at the codes only.  So if one database can
match each call that a client makes of another (`CoreWorkload.Makes`) and returns the
same code, then a client that runs on the other runs on the one, with the same keys and
codes.
-/

namespace YcsbC

/-- A call of a database. -/
inductive DBCall where
  | init
  | read (table key : Str) (fields : Option (List Str))
  | scan (table key : Str) (len : Int32) (fields : Option (List Str))
  | update (table key : Str) (values : List KVPair)
  | insert (table key : Str) (values : List KVPair)
  | delete (table key : Str)
deriving DecidableEq, Repr

/-- What `db'` can do in a state at a call that is `Good`, `db` does in the states
related to it. -/
structure DB.Simulates {σ τ : Type*} (Good : DBCall → Prop) (db : DB σ) (db' : DB τ)
    (R : σ → τ → Prop) : Prop where
  read : ∀ {s t table key fields code result t'}, R s t → Good (.read table key fields) →
    db'.read t table key fields = some (code, result, t') →
      ∃ result' s', db.read s table key fields = some (code, result', s') ∧ R s' t'
  scan : ∀ {s t table key len fields code result t'}, R s t → Good (.scan table key len fields) →
    db'.scan t table key len fields = some (code, result, t') →
      ∃ result' s', db.scan s table key len fields = some (code, result', s') ∧ R s' t'
  update : ∀ {s t table key values code t'}, R s t → Good (.update table key values) →
    db'.update t table key values = some (code, t') →
      ∃ s', db.update s table key values = some (code, s') ∧ R s' t'
  insert : ∀ {s t table key values code t'}, R s t → Good (.insert table key values) →
    db'.insert t table key values = some (code, t') →
      ∃ s', db.insert s table key values = some (code, s') ∧ R s' t'

/-- The fields that a client asks for: all, or one. -/
def AsksFor : Option (List Str) → Prop
  | none => True
  | some fields => ∃ draw, fields = ["field".toList ++ CoreWorkload.nextFieldName draw]

/-- A call that a client makes. -/
def CoreWorkload.Makes (wl : CoreWorkload) : DBCall → Prop
  | .read table key fields | .scan table key _ fields =>
      table = wl.tableName ∧ (∃ keyNum, key = wl.keyName keyNum) ∧ AsksFor fields
  | .update table key values =>
      table = wl.tableName ∧ (∃ keyNum, key = wl.keyName keyNum) ∧
        ((∃ draw, values = wl.buildValues draw) ∨ ∃ field draw, values = buildUpdate field draw)
  | .insert table key values =>
      table = wl.tableName ∧ (∃ keyNum, key = wl.keyName keyNum) ∧
        ∃ draw, values = wl.buildValues draw
  | .init | .delete .. => False

namespace Bench

variable {σ τ χ δ α β : Type*} {R : σ → τ → Prop}

/-- The clients differ in the states of their databases only, and these are related. -/
structure Related (R : σ → τ → Prop) (s : Bench σ χ) (t : Bench τ χ) : Prop where
  store : R s.store t.store
  wl : s.wl = t.wl
  keyChooser : s.keyChooser = t.keyChooser
  codes : s.codes = t.codes

/-- What returns on the right returns the same on the left. -/
def Matches (R : σ → τ → Prop) (x : Option (α × Bench σ χ)) (y : Option (α × Bench τ χ)) : Prop :=
  ∀ ⦃a : α⦄ ⦃t : Bench τ χ⦄, y = some (a, t) → ∃ s, x = some (a, s) ∧ Related R s t

theorem Matches.bind {x : Option (α × Bench σ χ)} {y : Option (α × Bench τ χ)}
    {f : α × Bench σ χ → Option (β × Bench σ χ)} {g : α × Bench τ χ → Option (β × Bench τ χ)}
    (hxy : Matches R x y) (hfg : ∀ a s t, Related R s t → Matches R (f (a, s)) (g (a, t))) :
    Matches R (x.bind f) (y.bind g) := by
  intro b t' hbind
  obtain ⟨⟨a, t⟩, hy, hg⟩ := Option.bind_eq_some_iff.mp hbind
  obtain ⟨s, hx, hst⟩ := hxy hy
  obtain ⟨s', hf, hst'⟩ := hfg a s t hst hg
  exact ⟨s', Option.bind_eq_some_iff.mpr ⟨(a, s), hx, hf⟩, hst'⟩

theorem Matches.map {x : Option (α × Bench σ χ)} {y : Option (α × Bench τ χ)}
    (hxy : Matches R x y) (f : α → β) :
    Matches R (x.map fun (a, s) => (f a, s)) (y.map fun (a, t) => (f a, t)) := by
  intro b t hmap
  obtain ⟨⟨a, t⟩, hy, heq⟩ := Option.map_eq_some_iff.mp hmap
  cases heq
  obtain ⟨s, hx, hst⟩ := hxy hy
  exact ⟨s, by rw [hx, Option.map_some], hst⟩

variable {db : DB σ} {db' : DB τ} {Good : DBCall → Prop}
  (hsim : db.Simulates Good db' R) {s : Bench σ χ} {t : Bench τ χ}
  (hst : Related R s t)

include hst

/-! ## Calls of the database and the workload -/

section Calls

include hsim

theorem Related.read {table key : Str} {fields : Option (List Str)}
    (hgood : Good (.read table key fields)) :
    Matches R (s.read db table key fields) (t.read db' table key fields) := by
  intro code t' hread
  obtain ⟨⟨code', result, store⟩, hcall, heq⟩ := Option.map_eq_some_iff.mp hread
  cases heq
  obtain ⟨result', store', hcall', hstore⟩ := hsim.read hst.store hgood hcall
  refine ⟨{ s with store := store', codes := s.codes ++ [code] }, ?_, hstore, hst.wl,
    hst.keyChooser, by rw [hst.codes]⟩
  rw [Bench.read, hcall', Option.map_some]

theorem Related.scan {table key : Str} {len : Int32} {fields : Option (List Str)}
    (hgood : Good (.scan table key len fields)) :
    Matches R (s.scan db table key len fields) (t.scan db' table key len fields) := by
  intro code t' hscan
  obtain ⟨⟨code', result, store⟩, hcall, heq⟩ := Option.map_eq_some_iff.mp hscan
  cases heq
  obtain ⟨result', store', hcall', hstore⟩ := hsim.scan hst.store hgood hcall
  refine ⟨{ s with store := store', codes := s.codes ++ [code] }, ?_, hstore, hst.wl,
    hst.keyChooser, by rw [hst.codes]⟩
  rw [Bench.scan, hcall', Option.map_some]

theorem Related.update {table key : Str} {values : List KVPair}
    (hgood : Good (.update table key values)) :
    Matches R (s.update db table key values) (t.update db' table key values) := by
  intro code t' hupdate
  obtain ⟨⟨code', store⟩, hcall, heq⟩ := Option.map_eq_some_iff.mp hupdate
  cases heq
  obtain ⟨store', hcall', hstore⟩ := hsim.update hst.store hgood hcall
  refine ⟨{ s with store := store', codes := s.codes ++ [code] }, ?_, hstore, hst.wl,
    hst.keyChooser, by rw [hst.codes]⟩
  rw [Bench.update, hcall', Option.map_some]

theorem Related.insert {table key : Str} {values : List KVPair}
    (hgood : Good (.insert table key values)) :
    Matches R (s.insert db table key values) (t.insert db' table key values) := by
  intro code t' hinsert
  obtain ⟨⟨code', store⟩, hcall, heq⟩ := Option.map_eq_some_iff.mp hinsert
  cases heq
  obtain ⟨store', hcall', hstore⟩ := hsim.insert hst.store hgood hcall
  refine ⟨{ s with store := store', codes := s.codes ++ [code] }, ?_, hstore, hst.wl,
    hst.keyChooser, by rw [hst.codes]⟩
  rw [Bench.insert, hcall', Option.map_some]

end Calls

theorem Related.nextSequenceKey :
    s.nextSequenceKey.1 = t.nextSequenceKey.1 ∧
      Related R s.nextSequenceKey.2 t.nextSequenceKey.2 := by
  refine ⟨?_, hst.store, ?_, hst.keyChooser, hst.codes⟩
  · exact congrArg (fun wl => wl.nextSequenceKey.1) hst.wl
  · exact congrArg (fun wl => wl.nextSequenceKey.2) hst.wl

theorem Related.nextTransactionKey (next : χ → δ → Option (UInt64 × χ)) (draws : List δ) :
    Matches R (s.nextTransactionKey next draws) (t.nextTransactionKey next draws) := by
  intro key t' hkey
  obtain ⟨⟨key', keyChooser⟩, hloop, heq⟩ := Option.map_eq_some_iff.mp hkey
  cases heq
  refine ⟨{ s with keyChooser := keyChooser }, ?_, hst.store, hst.wl, rfl, hst.codes⟩
  rw [Bench.nextTransactionKey, hst.wl, hst.keyChooser, hloop, Option.map_some]

theorem Related.readFields (draw : UInt64) : s.readFields draw = t.readFields draw := by
  rw [Bench.readFields, Bench.readFields, hst.wl]

theorem Related.updateValues (draws : TransactionDraws δ) :
    s.updateValues draws = t.updateValues draws := by
  rw [Bench.updateValues, Bench.updateValues, hst.wl]

omit hst

/-! ## Calls of a client -/

theorem asksFor_readFields (t : Bench τ χ) (draw : UInt64) : AsksFor (t.readFields draw) := by
  rw [Bench.readFields]
  split
  · exact ⟨draw, rfl⟩
  · exact trivial

theorem makes_updateValues (t : Bench τ χ) (keyNum : UInt64) (draws : TransactionDraws δ) :
    t.wl.Makes (.update t.wl.tableName (t.wl.keyName keyNum) (t.updateValues draws)) := by
  refine ⟨rfl, ⟨keyNum, rfl⟩, ?_⟩
  rw [Bench.updateValues]
  split
  · exact Or.inl ⟨draws.values, rfl⟩
  · exact Or.inr ⟨draws.updateField, draws.updateValue, rfl⟩

/-- The key of a transaction is that of a key number. -/
theorem exists_keyNum {next : χ → δ → Option (UInt64 × χ)} {t t' : Bench τ χ} {draws : List δ}
    {key : Str} (hkey : t.nextTransactionKey next draws = some (key, t')) :
    t'.wl = t.wl ∧ ∃ keyNum, key = t.wl.keyName keyNum := by
  obtain ⟨_, hloop, heq⟩ := Option.map_eq_some_iff.mp hkey
  obtain ⟨⟨keyNum, _⟩, -, rfl⟩ := Option.map_eq_some_iff.mp hloop
  cases heq
  exact ⟨rfl, keyNum, rfl⟩

section Transactions

variable (hgood : ∀ call, t.wl.Makes call → Good call)

include hsim hst hgood

theorem Related.doInsert (values : ℕ → CoreWorkload.ValueDraw) :
    Matches R (s.doInsert db values) (t.doInsert db' values) := by
  obtain ⟨hkey, hst'⟩ := hst.nextSequenceKey
  have hinsert := hst'.insert hsim
    (hgood (.insert t.wl.tableName t.nextSequenceKey.1 (t.wl.buildValues values))
      ⟨rfl, ⟨_, rfl⟩, _, rfl⟩)
  rw [Bench.doInsert, Bench.doInsert]
  dsimp only
  rw [hkey, hst'.wl]
  exact hinsert.map fun status => status == kOK

theorem Related.transactionInsert (draws : TransactionDraws δ) :
    Matches R (s.transactionInsert db draws) (t.transactionInsert db' draws) := by
  obtain ⟨hkey, hst'⟩ := hst.nextSequenceKey
  rw [Bench.transactionInsert, Bench.transactionInsert]
  dsimp only
  rw [hkey, hst'.wl]
  exact hst'.insert hsim (hgood _ ⟨rfl, ⟨_, rfl⟩, _, rfl⟩)

variable (next : χ → δ → Option (UInt64 × χ)) (draws : TransactionDraws δ)

omit hsim hgood in
/-- What comes after `NextTransactionKey`. -/
theorem Related.bind_nextTransactionKey {f : Str × Bench σ χ → Option (β × Bench σ χ)}
    {g : Str × Bench τ χ → Option (β × Bench τ χ)}
    (hfg : ∀ keyNum s₁ t₁, Related R s₁ t₁ → t₁.wl = t.wl →
      Matches R (f (t.wl.keyName keyNum, s₁)) (g (t.wl.keyName keyNum, t₁))) :
    Matches R ((s.nextTransactionKey next draws.keys).bind f)
      ((t.nextTransactionKey next draws.keys).bind g) := by
  intro b t' hbind
  obtain ⟨⟨key, t₁⟩, hkey, hg⟩ := Option.bind_eq_some_iff.mp hbind
  obtain ⟨hwl, keyNum, rfl⟩ := exists_keyNum hkey
  obtain ⟨s₁, hkey', hst₁⟩ := hst.nextTransactionKey next draws.keys hkey
  obtain ⟨s', hf, hst'⟩ := hfg keyNum s₁ t₁ hst₁ hwl hg
  exact ⟨s', Option.bind_eq_some_iff.mpr ⟨_, hkey', hf⟩, hst'⟩

theorem Related.transactionRead :
    Matches R (s.transactionRead db next draws) (t.transactionRead db' next draws) := by
  refine hst.bind_nextTransactionKey next draws fun keyNum s₁ t₁ hst₁ hwl => ?_
  dsimp only
  rw [hst₁.wl, hst₁.readFields]
  exact hst₁.read hsim (hgood _ ⟨by rw [hwl], ⟨keyNum, rfl⟩, t₁.asksFor_readFields _⟩)

theorem Related.transactionScan :
    Matches R (s.transactionScan db next draws) (t.transactionScan db' next draws) := by
  refine hst.bind_nextTransactionKey next draws fun keyNum s₁ t₁ hst₁ hwl => ?_
  dsimp only
  rw [hst₁.wl, hst₁.readFields]
  exact hst₁.scan hsim (hgood _ ⟨by rw [hwl], ⟨keyNum, rfl⟩, t₁.asksFor_readFields _⟩)

theorem Related.transactionUpdate :
    Matches R (s.transactionUpdate db next draws) (t.transactionUpdate db' next draws) := by
  refine hst.bind_nextTransactionKey next draws fun keyNum s₁ t₁ hst₁ hwl => ?_
  dsimp only
  rw [hst₁.wl, hst₁.updateValues]
  refine hst₁.update hsim (hgood _ ?_)
  rw [← hwl]
  exact t₁.makes_updateValues keyNum draws

theorem Related.transactionReadModifyWrite :
    Matches R (s.transactionReadModifyWrite db next draws)
      (t.transactionReadModifyWrite db' next draws) := by
  refine hst.bind_nextTransactionKey next draws fun keyNum s₁ t₁ hst₁ hwl => ?_
  dsimp only
  rw [hst₁.wl, hst₁.readFields]
  have hread := hst₁.read hsim
    (hgood (.read t₁.wl.tableName (t.wl.keyName keyNum) (t₁.readFields draws.readField))
      ⟨by rw [hwl], ⟨keyNum, rfl⟩, t₁.asksFor_readFields _⟩)
  intro code t' hbind
  obtain ⟨⟨code', t₂⟩, hcall, hupdate⟩ := Option.bind_eq_some_iff.mp hbind
  obtain ⟨s₂, hcall', hst₂⟩ := hread hcall
  have hwl₂ : t₂.wl = t.wl := (wl_of_read hcall).trans hwl
  have hgood₂ : Good (.update t₂.wl.tableName (t.wl.keyName keyNum) (t₂.updateValues draws)) := by
    refine hgood _ ?_
    rw [← hwl₂]
    exact t₂.makes_updateValues keyNum draws
  obtain ⟨s', hupdate', hst'⟩ := hst₂.update hsim hgood₂ hupdate
  refine ⟨s', Option.bind_eq_some_iff.mpr ⟨_, hcall', ?_⟩, hst'⟩
  dsimp only
  rw [hst₂.wl, hst₂.updateValues]
  exact hupdate'

theorem Related.doTransaction :
    Matches R (s.doTransaction db next draws) (t.doTransaction db' next draws) := by
  have htransaction : Matches R (s.transaction db next draws) (t.transaction db' next draws) := by
    rw [Bench.transaction, Bench.transaction]
    cases draws.op with
    | READ => exact hst.transactionRead hsim hgood next draws
    | UPDATE => exact hst.transactionUpdate hsim hgood next draws
    | INSERT => exact hst.transactionInsert hsim hgood draws
    | SCAN => exact hst.transactionScan hsim hgood next draws
    | READMODIFYWRITE => exact hst.transactionReadModifyWrite hsim hgood next draws
  refine htransaction.bind fun status s' t' hst' => ?_
  dsimp only
  split
  · rintro _ _ ⟨⟩
    exact ⟨s', rfl, hst'⟩
  · intro _ _ hreturn
    cases hreturn

end Transactions

end Bench

end YcsbC
