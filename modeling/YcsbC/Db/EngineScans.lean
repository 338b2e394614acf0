import YcsbC.Db.EngineReads

/-!
# Which records a scan passes

The loop of `Scan` keeps none of the records it reads, but it reads the right ones.
`scanTrace` is the loop with a list of what it reads: the iterator of each turn, and the
key and the value that it has there.  Through an engine whose iterator goes through the
records in key order these are the first records from the start key on, as many as asked
for or as there are (`scans_inOrder`).
-/

namespace YcsbC

/-! ## The records from a key on -/

/-- What comes after a key that is not before another is not either. -/
theorem filter_eq_self_of_isGE {key : Str} {record : Str × Str} {l : List (Str × Str)}
    (hafter : ∀ other ∈ l, compare record.1 other.1 = .lt)
    (hrecord : (compare record.1 key).isGE) :
    l.filter (fun other => (compare other.1 key).isGE) = l := by
  rw [List.filter_eq_self]
  intro other hmem
  cases hcompare : compare other.1 key with
  | lt =>
      rw [Std.TransCmp.lt_trans (hafter other hmem) hcompare] at hrecord
      cases hrecord
  | eq => rfl
  | gt => rfl

/-- In an ordered list the records from a key on are those that are not before it. -/
theorem dropWhile_eq_filter_of_pairwise {key : Str} {l : List (Str × Str)}
    (hordered : l.Pairwise fun a b => compare a.1 b.1 = .lt) :
    l.dropWhile (fun record => (compare record.1 key).isLT) =
      l.filter fun record => (compare record.1 key).isGE := by
  induction l with
  | nil => rfl
  | cons record l ih =>
      obtain ⟨hafter, hrest⟩ := List.pairwise_cons.mp hordered
      rw [List.dropWhile_cons, List.filter_cons]
      cases hcompare : compare record.1 key with
      | lt => exact ih hrest
      | eq => rw [filter_eq_self_of_isGE hafter (by rw [hcompare]; rfl)]; rfl
      | gt => rw [filter_eq_self_of_isGE hafter (by rw [hcompare]; rfl)]; rfl

namespace Records

/-- The records whose keys are not before a key, in the order of the map. -/
def atLeast (records : Records) (key : Str) : List (Str × Str) :=
  records.toList.filter fun record => (compare record.1 key).isGE

theorem startingAt_eq_atLeast (records : Records) (key : Str) :
    records.startingAt key = records.atLeast key :=
  dropWhile_eq_filter_of_pairwise Std.ExtTreeMap.ordered_keys_toList

theorem pairwise_atLeast (records : Records) (key : Str) :
    (records.atLeast key).Pairwise fun a b => compare a.1 b.1 = .lt :=
  Std.ExtTreeMap.ordered_keys_toList.sublist List.filter_sublist

end Records

namespace EngineDB

/-- A turn of the loop of `Scan`: the iterator, and what is read from it. -/
structure ScanRead (ι : Type) where
  /-- `it`. -/
  it : ι
  /-- `it->key()`. -/
  key : Str
  /-- `it->value()`. -/
  value : Str

variable {σ ι : Type} (E : Engine σ ι)

/-- The loop of `Scan` with a list of its turns. -/
def scanTrace : ℕ → ScanLoop ι → Option (List (ScanRead ι) × ScanLoop ι)
  | 0, loop => some ([], loop)
  | turns + 1, loop =>
      if E.valid loop.it then do
        let k ← E.key loop.it
        let val ← E.value loop.it
        let it ← E.next loop.it
        let cnt := if val.isEmpty then loop.cnt + 1 else loop.cnt
        let (reads, last) ← scanTrace turns ⟨it, k, val, loop.i + 1, cnt⟩
        some (⟨loop.it, k, val⟩ :: reads, last)
      else some ([], loop)

/-- The list is all that the trace adds to the loop. -/
theorem map_scanTrace (turns : ℕ) (loop : ScanLoop ι) :
    (scanTrace E turns loop).map Prod.snd = scanLoop E turns loop := by
  induction turns generalizing loop with
  | zero => rfl
  | succ turns ih =>
      rw [scanTrace, scanLoop]
      split
      · cases E.key loop.it with
        | none => rfl
        | some k =>
            cases E.value loop.it with
            | none => rfl
            | some val =>
                cases E.next loop.it with
                | none => rfl
                | some it =>
                    simp only [Option.bind_eq_bind, Option.bind_some, ← ih]
                    cases scanTrace E turns
                      ⟨it, k, val, loop.i + 1, if val.isEmpty then loop.cnt + 1 else loop.cnt⟩ <;> rfl
      · rfl

/-- What is read from an iterator that is valid. -/
def ScanRead.FromValid (read : ScanRead ι) : Prop :=
  E.valid read.it = true ∧ E.key read.it = some read.key ∧ E.value read.it = some read.value

variable {E} {records : σ → Records}

/-- The loop reads the records ahead of its iterator, one a turn and each from a valid
iterator, as many as it has turns or as there are. -/
theorem exists_scanTrace {ahead : ι → List (Str × Str)} (hiter : E.Iterates records ahead)
    (turns : ℕ) (loop : ScanLoop ι) :
    ∃ reads last, scanTrace E turns loop = some (reads, last) ∧
      (∀ read ∈ reads, read.FromValid E) ∧
      reads.map (fun read => (read.key, read.value)) = (ahead loop.it).take turns := by
  induction turns generalizing loop with
  | zero => exact ⟨[], loop, rfl, by simp, by simp⟩
  | succ turns ih =>
      cases hahead : ahead loop.it with
      | nil =>
          refine ⟨[], loop, ?_, by simp, by simp⟩
          simp [scanTrace, hiter.valid_eq_false hahead]
      | cons record rest =>
          obtain ⟨hvalid, hkey, hval, it, hnext, hrest⟩ := hiter.at_cons hahead
          obtain ⟨reads, last, htrace, hfrom, hreads⟩ := ih ⟨it, record.1, record.2, loop.i + 1,
            if record.2.isEmpty then loop.cnt + 1 else loop.cnt⟩
          rw [hrest] at hreads
          refine ⟨⟨loop.it, record.1, record.2⟩ :: reads, last, ?_, ?_, ?_⟩
          · rw [scanTrace, if_pos hvalid, hkey, hval, hnext]
            simp only [Option.bind_eq_bind, Option.bind_some, htrace]
          · rw [List.forall_mem_cons]
            exact ⟨⟨hvalid, hkey, hval⟩, hfrom⟩
          · simpa using hreads

variable (E records) in
/-- A call of `Scan` passes the first `len` records from the key on, or all of them if there
are fewer.  It reads their keys and values in key order, each once and from an iterator that
is valid, has counted them and the empty values among them at the end, and reports that it
got fewer than asked exactly when it did. -/
def ScansInOrder (adapter : Adapter) (s : EngineDB σ) (table key : Str) (len : Int32)
    (fields : Option (List Str)) : Prop :=
  let there := (records s.db).atLeast key
  let start : ScanLoop ι := ⟨E.seek (E.newIterator s.db) key, [], [], 0, 0⟩
  ∃ reads last, scanTrace E len.toInt.toNat start = some (reads, last) ∧
    scanLoop E len.toInt.toNat start = some last ∧
    (∀ read ∈ reads, read.FromValid E) ∧
    reads.map (fun read => (read.key, read.value)) = there.take len.toInt.toNat ∧
    (reads.map ScanRead.key).Pairwise (fun a b => compare a b = .lt) ∧
    (last.i : ℤ) = min (max len.toInt 0) there.length ∧
    last.cnt = (there.take len.toInt.toNat).countP (·.2.isEmpty) ∧
    let short := if there.length < len.toInt ∧ 0 < len.toInt then [shortScan last.i len] else []
    let empty := if last.cnt > 0 then [toStr last.cnt ++ "empty values".toList] else []
    adapter.scan E s table key len fields = some (kOK, [],
      { s with cout := s.cout ++ short ++ empty, cerr := s.cerr ++ short })

/-- The loop of both adapters visits the right records, for every map, key and length. -/
theorem scans_inOrder {ahead : ι → List (Str × Str)} (hiter : E.Iterates records ahead)
    (adapter : Adapter) (s : EngineDB σ) (table key : Str) (len : Int32)
    (fields : Option (List Str)) : ScansInOrder E records adapter s table key len fields := by
  obtain ⟨reads, last, htrace, hfrom, hreads⟩ := exists_scanTrace hiter len.toInt.toNat
    ⟨E.seek (E.newIterator s.db) key, [], [], 0, 0⟩
  obtain ⟨last', hloop, hi, hcnt, -⟩ := exists_scanLoop hiter len.toInt.toNat
    ⟨E.seek (E.newIterator s.db) key, [], [], 0, 0⟩
  have hsame := map_scanTrace E len.toInt.toNat ⟨E.seek (E.newIterator s.db) key, [], [], 0, 0⟩
  rw [htrace, hloop] at hsame
  obtain rfl : last = last' := Option.some.inj hsame
  rw [hiter.seek, Records.startingAt_eq_atLeast] at hreads hi hcnt
  have hcount : (last.i : ℤ) = min (max len.toInt 0) ((records s.db).atLeast key).length := by
    dsimp only at hi
    omega
  have hkeys : (reads.map ScanRead.key).Pairwise fun a b => compare a b = .lt := by
    have hmap : reads.map ScanRead.key =
        (((records s.db).atLeast key).take len.toInt.toNat).map Prod.fst := by
      rw [← hreads, List.map_map]
      rfl
    rw [hmap, List.pairwise_map]
    exact (Records.pairwise_atLeast _ key).sublist (List.take_sublist _ _)
  -- fewer records than asked for is fewer turns than asked for
  have hshort : (last.i : ℤ) < len.toInt ↔
      ((records s.db).atLeast key).length < len.toInt ∧ 0 < len.toInt := by omega
  refine ⟨reads, last, htrace, hloop, hfrom, hreads, hkeys, hcount, by simpa using hcnt, ?_⟩
  rw [Adapter.scan_eq, scanRecords]
  simp only [hloop, hshort, Option.bind_eq_bind, Option.bind_some]

/-- The theorem at three records, of which a scan of three from `b` on passes two, one of them
with an empty value. -/
theorem scans_inOrder_threeEngineRecords :
    Records.atLeast threeEngineRecords.db ['b'] = [(['k'], []), (['m'], ['v'])] ∧
      ScansInOrder treeEngine id .rocksdb threeEngineRecords ['t'] ['b'] 3 none ∧
      ScansInOrder treeEngine id .leveldb threeEngineRecords ['t'] ['b'] 3 none :=
  ⟨by decide +kernel,
    scans_inOrder iterates_treeEngine .rocksdb threeEngineRecords ['t'] ['b'] 3 none,
    scans_inOrder iterates_treeEngine .leveldb threeEngineRecords ['t'] ['b'] 3 none⟩

end EngineDB

end YcsbC
