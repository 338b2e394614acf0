import YcsbC.Core.KeyChooser

/-!
# Whether the key loop can end

`NextTransactionKey` draws until the key is at most `insert_key_sequence_.Last()`.  With
a zipfian request distribution the keys drawn are the hashes of the ranks `0 .. n - 1`
modulo the number of items `n`, which counts the keys still to be inserted as well.
Hashing modulo `n` is not a permutation, so some numbers below `n` are missed by all
ranks.  When they are as many as there are records, they may be the records, and then
every draw is rejected; when they are fewer, the loop can end (`keyLoopCanEnd_of_missed`).
-/

namespace YcsbC

/-- The least key number that a rank below `n` is scrambled to. -/
def leastScrambled (n : UInt64) : ℕ :=
  (List.range n.toNat).foldr
    (fun rank least => min (Utils.fnvHash64 (.ofNat rank) % n).toNat least) n.toNat

theorem foldr_min_lt_iff {ι α : Type*} [LinearOrder α] {f : ι → α} {l : List ι} {top bound : α} :
    l.foldr (fun i least => min (f i) least) top < bound ↔ top < bound ∨ ∃ i ∈ l, f i < bound := by
  induction l with
  | nil => simp
  | cons i l ih =>
      rw [List.foldr_cons, min_lt_iff, ih, List.exists_mem_cons_iff]
      exact or_left_comm

/-- Some rank is scrambled below a bound when the least is. -/
theorem leastScrambled_lt_iff {n : UInt64} (hn : 0 < n) {bound : ℕ} :
    leastScrambled n < bound ↔ ∃ rank < n, (Utils.fnvHash64 rank % n).toNat < bound := by
  rw [leastScrambled, foldr_min_lt_iff]
  constructor
  · rintro (htop | ⟨rank, hrank, hlt⟩)
    · -- below a bound that is greater than `n` is any rank
      refine ⟨0, hn, lt_trans ?_ htop⟩
      exact UInt64.lt_iff_toNat_lt.mp (UInt64.mod_lt _ hn)
    · have hlt' := List.mem_range.mp hrank
      refine ⟨.ofNat rank, ?_, hlt⟩
      rw [UInt64.lt_iff_toNat_lt, UInt64.toNat_ofNat_of_lt' (hlt'.trans n.toNat_lt)]
      exact hlt'
  · rintro ⟨rank, hrank, hlt⟩
    refine Or.inr ⟨rank.toNat, List.mem_range.mpr (UInt64.lt_iff_toNat_lt.mp hrank), ?_⟩
    rwa [UInt64.ofNat_toNat]

/-- The key numbers below `n` to which no rank is scrambled. -/
def missedNumbers (n : UInt64) : Finset ℕ :=
  Finset.range n.toNat \
    (Finset.range n.toNat).image fun rank => (Utils.fnvHash64 (.ofNat rank) % n).toNat

theorem mem_missedNumbers {n : UInt64} {keyNum : ℕ} : keyNum ∈ missedNumbers n ↔
    keyNum < n.toNat ∧ ∀ rank < n.toNat, (Utils.fnvHash64 (.ofNat rank) % n).toNat ≠ keyNum := by
  simp [missedNumbers]

/-- When fewer numbers are missed than there are below a bound, some rank is scrambled below
the bound. -/
theorem leastScrambled_lt_of_missed {n : UInt64} (hn : 0 < n) {bound : ℕ}
    (hmissed : (missedNumbers n).card < bound) : leastScrambled n < bound := by
  by_contra hge
  rw [leastScrambled_lt_iff hn] at hge
  have hscrambled (rank : ℕ) (hrank : rank < n.toNat) :
      bound ≤ (Utils.fnvHash64 (.ofNat rank) % n).toNat := by
    by_contra hlt
    refine hge ⟨.ofNat rank, ?_, not_le.mp hlt⟩
    rwa [UInt64.lt_iff_toNat_lt, UInt64.toNat_ofNat_of_lt' (hrank.trans n.toNat_lt)]
  have hpos : 0 < n.toNat := UInt64.lt_iff_toNat_lt.mp hn
  have hbound : bound ≤ n.toNat :=
    (hscrambled 0 hpos).trans (UInt64.lt_iff_toNat_lt.mp (UInt64.mod_lt _ hn)).le
  -- all numbers below the bound are missed
  have hsubset : Finset.range bound ⊆ missedNumbers n := by
    intro keyNum hmem
    rw [Finset.mem_range] at hmem
    refine mem_missedNumbers.mpr ⟨hmem.trans_le hbound, fun rank hrank heq => ?_⟩
    exact absurd (heq ▸ hscrambled rank hrank) (not_le.mpr hmem)
  have hcard := Finset.card_le_card hsubset
  rw [Finset.card_range] at hcard
  omega

namespace KeyChooser

variable {p : Properties}

/-- The machine of draws from `key_chooser_`, none of which moves the counters. -/
noncomputable def drawing (p : Properties) : Machine KeyChooser RandomDraw :=
  ⟨fun g draw => (next (CoreWorkload.init p).insertKeySequence g draw).map (·.2)⟩

/-- Some rank of the `n` items is scrambled to a key that is not rejected, and whatever
has been drawn before, there are draws that end the loop of `NextTransactionKey`. -/
structure KeyLoopCanEnd (p : Properties) (n : UInt64) (g₀ : KeyChooser) : Prop where
  accepts : ∃ rank < n, Utils.fnvHash64 rank % n ≤ (CoreWorkload.init p).insertKeySequence.last
  ends : ∀ before g, (drawing p).run g₀ before = some g → ∃ draws,
    ((CoreWorkload.init p).nextTransactionKeyNum (next (CoreWorkload.init p).insertKeySequence)
      g draws).isSome

/-- The loop of a generator that draws `keys` can end when one of them is not rejected. -/
theorem exists_draws_iff {basis : CounterGenerator} {I : KeyChooser → Prop} {keys : Set UInt64}
    (hdraws : DrawsFrom basis I keys) {wl : CoreWorkload} {g : KeyChooser} (hg : I g) :
    (∃ draws, (wl.nextTransactionKeyNum (next basis) g draws).isSome) ↔
      ∃ keyNum ∈ keys, keyNum ≤ wl.insertKeySequence.last := by
  constructor
  · rintro ⟨draws, hsome⟩
    obtain ⟨⟨keyNum, g'⟩, hloop⟩ := Option.isSome_iff_exists.mp hsome
    obtain ⟨-, hle, g₁, draw, hg₁, hnext⟩ := CoreWorkload.nextTransactionKeyNum_eq_some
      (fun g draw keyNum g' hg hnext => (hdraws.mem g draw keyNum g' hg hnext).1) hg hloop
    exact ⟨keyNum, (hdraws.mem g₁ draw keyNum g' hg₁ hnext).2, hle⟩
  · rintro ⟨keyNum, hmem, hle⟩
    obtain ⟨draw, g', hnext⟩ := hdraws.exists_draw g keyNum hg hmem
    have haccepts : wl.rejects keyNum = false := by
      rw [CoreWorkload.rejects, decide_eq_false_iff_not, gt_iff_lt, UInt64.not_lt]
      exact hle
    refine ⟨[draw], ?_⟩
    simp [CoreWorkload.nextTransactionKeyNum, hnext, haccepts]

theorem isScrambledZipfian_of_init (hzipfian : p.requestDistribution = "zipfian".toList)
    {draw draw' : RandomDraw} {g₀ : KeyChooser} (hinit : init p draw draw' = some g₀) {n : UInt64}
    (hn : scrambledItems p = some n) : IsScrambledZipfian n g₀ := by
  obtain ⟨newKeys, hnewKeys, rfl⟩ := Option.map_eq_some_iff.mp hn
  rw [init, hzipfian, if_neg (by decide), if_pos rfl, hnewKeys, Option.bind_some] at hinit
  obtain ⟨g, hmake, rfl⟩ := Option.map_eq_some_iff.mp hinit
  exact isScrambledZipfian_of_make hmake

theorem IsScrambledZipfian.pos {n : UInt64} {g : KeyChooser} (hg : IsScrambledZipfian n g) :
    0 < n := by
  obtain ⟨z, hz, -⟩ := hg
  rw [UInt64.lt_iff_toNat_lt]
  exact Nat.lt_of_lt_of_le Nat.two_pos hz.two_le_toNat

/-- With a zipfian request distribution the key loop can end exactly when there are more
records than the least key number that a rank is scrambled to. -/
theorem keyLoopCanEnd_iff_leastScrambled (hzipfian : p.requestDistribution = "zipfian".toList)
    (hrecords : 1 ≤ p.recordCount.toInt) {draw draw' : RandomDraw} {g₀ : KeyChooser}
    (hinit : init p draw draw' = some g₀) {n : UInt64} (hn : scrambledItems p = some n) :
    KeyLoopCanEnd p n g₀ ↔ (leastScrambled n : ℤ) < p.recordCount.toInt := by
  have hlast := CoreWorkload.toNat_last_init hrecords
  have hg := isScrambledZipfian_of_init hzipfian hinit hn
  have hpos := hg.pos
  have hdraws := drawsFrom_scrambledZipfian (CoreWorkload.init p).insertKeySequence n
  have haccepts : (∃ rank < n,
      Utils.fnvHash64 rank % n ≤ (CoreWorkload.init p).insertKeySequence.last) ↔
        (leastScrambled n : ℤ) < p.recordCount.toInt := by
    rw [← Int.lt_toNat, leastScrambled_lt_iff hpos]
    refine exists_congr fun rank => and_congr_right fun _ => ?_
    rw [UInt64.le_iff_toNat_le]
    omega
  rw [← haccepts]
  constructor
  · exact KeyLoopCanEnd.accepts
  · intro hrank
    refine ⟨hrank, fun before g hrun => ?_⟩
    obtain ⟨rank, hlt, hle⟩ := hrank
    refine (exists_draws_iff hdraws ?_).mpr ⟨_, ⟨rank, hlt, rfl⟩, hle⟩
    refine (drawing p).run_invariant ?_ hg hrun
    intro g draw g' hg hstep
    obtain ⟨⟨keyNum, g₁⟩, hnext, rfl⟩ := Option.map_eq_some_iff.mp hstep
    exact (hdraws.mem g draw keyNum g₁ hg hnext).1

/-- With a zipfian request distribution the key loop can end when the scrambling misses
fewer numbers than there are records. -/
theorem keyLoopCanEnd_of_missed (hzipfian : p.requestDistribution = "zipfian".toList)
    (hrecords : 1 ≤ p.recordCount.toInt) {draw draw' : RandomDraw} {g₀ : KeyChooser}
    (hinit : init p draw draw' = some g₀) {n : UInt64} (hn : scrambledItems p = some n)
    (hmissed : ((missedNumbers n).card : ℤ) < p.recordCount.toInt) : KeyLoopCanEnd p n g₀ := by
  rw [keyLoopCanEnd_iff_leastScrambled hzipfian hrecords hinit hn, ← Int.lt_toNat]
  exact leastScrambled_lt_of_missed (isScrambledZipfian_of_init hzipfian hinit hn).pos (by omega)

/-- `Init` makes the generator when there are two items and not too many. -/
theorem exists_init_of_items (hzipfian : p.requestDistribution = "zipfian".toList) {n : UInt64}
    (hn : scrambledItems p = some n) (htwo : 2 ≤ n) (hmax : n < ZipfianGenerator.kMaxNumItems) :
    ∃ draw g₀, init p draw draw = some g₀ ∧ IsScrambledZipfian n g₀ := by
  let u : RandomDouble := ⟨0, le_rfl, zero_lt_one⟩
  obtain ⟨z, hz, -⟩ := ZipfianGenerator.exists_grown htwo hmax u
  have hmake : ScrambledZipfianGenerator.ofNumItems n (.double u) = some ⟨0, n, z⟩ := by
    rw [ScrambledZipfianGenerator.ofNumItems, ScrambledZipfianGenerator.make,
      ← ZipfianGenerator.ofNumItems, hz, Option.map_some, UInt64.sub_zero, UInt64.sub_add_cancel]
  refine ⟨.double u, .scrambledZipfian ⟨0, n, z⟩, ?_, isScrambledZipfian_of_make hmake⟩
  obtain ⟨newKeys, hnewKeys, hitems⟩ := Option.map_eq_some_iff.mp hn
  rw [init, hzipfian, if_neg (by decide), if_pos rfl, hnewKeys, Option.bind_some, hitems, hmake,
    Option.map_some]

/-- A zipfian workload, of which one in twenty transactions inserts. -/
def oneInTwenty (recordCount operationCount : Int32) : Properties where
  recordCount := recordCount
  operationCount := operationCount
  insertProportion := .ofRat (1 / 20)
  requestDistribution := "zipfian".toList

/-- Twenty records, and room for the keys of 260 transactions, twice over. -/
def twentyRecords : Properties := oneInTwenty 20 260

theorem scrambledItems_twentyRecords : scrambledItems twentyRecords = some 46 := by
  decide +kernel

theorem exists_init_twentyRecords :
    ∃ draw g₀, init twentyRecords draw draw = some g₀ ∧ IsScrambledZipfian 46 g₀ :=
  exists_init_of_items rfl scrambledItems_twentyRecords (by decide) (by decide)

/-- Of thirty records and 26 more numbers, the scrambling misses nine. -/
theorem keyLoopCanEnd_of_missed_thirtyRecords :
    ∃ draw g₀, init (oneInTwenty 30 260) draw draw = some g₀ ∧
      KeyLoopCanEnd (oneInTwenty 30 260) 56 g₀ := by
  have hn : scrambledItems (oneInTwenty 30 260) = some 56 := by decide +kernel
  obtain ⟨draw, g₀, hinit, -⟩ := exists_init_of_items rfl hn (by decide) (by decide)
  exact ⟨draw, g₀, hinit, keyLoopCanEnd_of_missed rfl (by decide) hinit hn (by decide +kernel)⟩

/-- No rank below 46 is scrambled to one of the twenty records, so no draws end the loop. -/
theorem not_keyLoopCanEnd_twentyRecords :
    ∃ draw g₀, init twentyRecords draw draw = some g₀ ∧
      scrambledItems twentyRecords = some 46 ∧ ¬ KeyLoopCanEnd twentyRecords 46 g₀ ∧
      ∀ draws, (CoreWorkload.init twentyRecords).nextTransactionKeyNum
        (next (CoreWorkload.init twentyRecords).insertKeySequence) g₀ draws = none := by
  have hrejects : ¬ ∃ rank < 46, Utils.fnvHash64 rank % 46 ≤
      (CoreWorkload.init twentyRecords).insertKeySequence.last := by
    rintro ⟨rank, hrank, hle⟩
    have hleast : leastScrambled 46 < 20 := by
      refine (leastScrambled_lt_iff (by decide)).mpr ⟨rank, hrank, ?_⟩
      exact Nat.lt_succ_of_le (UInt64.le_iff_toNat_le.mp hle)
    revert hleast
    decide +kernel
  obtain ⟨draw, g₀, hinit, hg₀⟩ := exists_init_twentyRecords
  refine ⟨draw, g₀, hinit, scrambledItems_twentyRecords, fun hends => hrejects hends.accepts, ?_⟩
  intro draws
  have hnone := (exists_draws_iff
    (drawsFrom_scrambledZipfian (CoreWorkload.init twentyRecords).insertKeySequence 46) hg₀).not.mpr
      (by rintro ⟨_, ⟨rank, hrank, rfl⟩, hle⟩; exact hrejects ⟨rank, hrank, hle⟩)
  rw [not_exists] at hnone
  exact Option.not_isSome_iff_eq_none.mp (hnone draws)

end KeyChooser

end YcsbC
