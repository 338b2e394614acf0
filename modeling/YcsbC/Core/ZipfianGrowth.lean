import YcsbC.Core.ZipfianState

/-!
# Growing a zipfian generator

A call with a number above those before it extends the zeta sum to this number, which gives
the sum of a new generator.  It also computes `eta_` again, but `Eta()` reads `num_items_`,
which is still the number of items the generator was made on.  So a generator that has grown
differs from a new one in `eta_` (`growsAsNew_iff`).
-/

namespace YcsbC

namespace ZipfianGenerator

/-- The generator has the parameters of each new generator on `n` items and gives the same
values on them. -/
def SameAsNew (n : UInt64) (g : ZipfianGenerator) : Prop :=
  ∀ u₀, ∃ f, ofNumItems n (.double u₀) = some f ∧
    g.zetaN = f.zetaN ∧ g.eta = f.eta ∧ g.nForZeta = f.nForZeta ∧
    ∀ u, (g.nextOf n (.double u)).map (·.1) = (f.nextOf n (.double u)).map (·.1)

/-- After these calls a generator made on `n₀` items is the same as a new one on the largest
number of items. -/
def GrowsAsNew (n₀ : UInt64) (u₀ : RandomDouble) (calls : List (UInt64 × RandomDouble)) : Prop :=
  ∃ g₀ g, ofNumItems n₀ (.double u₀) = some g₀ ∧ calling.run g₀ calls = some g ∧
    SameAsNew (UInt64.ofNat (largest n₀.toNat calls)) g

/-! ## The largest number -/

theorem le_largest (n : ℕ) (calls : List (UInt64 × RandomDouble)) : n ≤ largest n calls := by
  induction calls generalizing n with
  | nil => exact le_rfl
  | cons call calls ih => exact (le_max_left n _).trans (ih _)

/-- The largest number is below a bound if all numbers are. -/
theorem largest_lt_iff {n bound : ℕ} {calls : List (UInt64 × RandomDouble)} :
    largest n calls < bound ↔ n < bound ∧ ∀ call ∈ calls, call.1.toNat < bound := by
  induction calls generalizing n with
  | nil => simp [largest]
  | cons call calls ih =>
      rw [largest, List.foldl_cons, ← largest, ih]
      simp [and_assoc]

/-! ## The parameters -/

/-- Calls in the range of the `assert` can all be made. -/
theorem Grown.exists_run {min n₀ n : ℕ} {g : ZipfianGenerator} (hg : Grown min n₀ n g)
    {calls : List (UInt64 × RandomDouble)}
    (hcalls : ∀ call ∈ calls, 2 ≤ call.1 ∧ call.1 < kMaxNumItems) :
    ∃ g', calling.run g calls = some g' := by
  induction calls generalizing n g with
  | nil => exact ⟨g, rfl⟩
  | cons call calls ih =>
      obtain ⟨hcall, hrest⟩ := List.forall_mem_cons.mp hcalls
      obtain ⟨g₁, hnext, hg₁⟩ := hg.nextOf hcall.1 hcall.2 call.2
      obtain ⟨g', hrun⟩ := ih hg₁ hrest
      refine ⟨g', calling.run_cons_eq_some.mpr ⟨g₁, ?_, hrun⟩⟩
      exact Option.map_eq_some_iff.mpr ⟨_, hnext, rfl⟩

/-- The numerator of `eta_` tells the number of items apart. -/
theorem Grown.eta_eq_iff {n₀ n : ℕ} {g f : ZipfianGenerator} (hg : Grown 0 n₀ n g)
    (hf : Grown 0 n n f) : g.eta = f.eta ↔ n = n₀ := by
  rw [hg.eta, hf.eta]
  constructor
  · intro heq
    by_contra hne
    have hlt : n₀ < n := lt_of_le_of_ne hg.le (Ne.symm hne)
    refine (PowerLaw.slope_lt_slope two_pos ?_ (Nat.cast_lt.mpr hlt) exponent_pos
      (zetaOf_ratio_lt_one (hg.two_le.trans_lt hlt))).ne heq
    exact Nat.cast_pos.mpr (Nat.zero_lt_of_lt hg.two_le)
  · rintro rfl
    rfl

/-- A generator is the same as a new one if it has not grown. -/
theorem Grown.sameAsNew_iff {n₀ n : ℕ} {g : ZipfianGenerator} (hg : Grown 0 n₀ n g)
    (hmax : n < kMaxNumItems.toNat) : SameAsNew (UInt64.ofNat n) g ↔ n = n₀ := by
  have hnat : (UInt64.ofNat n).toNat = n := by
    rw [UInt64.toNat_ofNat_of_lt' (hmax.trans kMaxNumItems.toNat_lt)]
  have htwo : 2 ≤ UInt64.ofNat n := by
    rw [UInt64.le_iff_toNat_le, hnat]
    exact hg.two_le.trans hg.le
  have hlt : UInt64.ofNat n < kMaxNumItems := by
    rwa [UInt64.lt_iff_toNat_lt, hnat]
  constructor
  · intro hsame
    obtain ⟨f, hmake, -, heta, -⟩ := hsame ⟨0, le_rfl, zero_lt_one⟩
    obtain ⟨f', hmake', hf'⟩ := exists_grown htwo hlt ⟨0, le_rfl, zero_lt_one⟩
    cases hmake.symm.trans hmake'
    rw [hnat] at hf'
    exact (hg.eta_eq_iff hf').mp heta
  · rintro rfl u₀
    obtain ⟨f, hmake, hf⟩ := exists_grown htwo hlt u₀
    rw [hnat] at hf
    refine ⟨f, hmake, hg.zetaN.trans hf.zetaN.symm, hg.eta.trans hf.eta.symm,
      UInt64.toNat_inj.mp (hg.nForZeta.trans hf.nForZeta.symm), fun u => ?_⟩
    obtain ⟨g', hnext, -⟩ := hg.nextOf htwo hlt u
    obtain ⟨f', hnext', -⟩ := hf.nextOf htwo hlt u
    rw [hnext, hnext']
    rfl

section Calls

variable {n₀ : UInt64} (htwo : 2 ≤ n₀) (hmax : n₀ < kMaxNumItems) (u₀ : RandomDouble)
  {calls : List (UInt64 × RandomDouble)}
  (hcalls : ∀ call ∈ calls, n₀ ≤ call.1 ∧ call.1 < kMaxNumItems)

include htwo hmax hcalls

theorem growsAsNew_iff_largest :
    GrowsAsNew n₀ u₀ calls ↔ largest n₀.toNat calls = n₀.toNat := by
  obtain ⟨g₀, hmake, hg₀⟩ := exists_grown htwo hmax u₀
  obtain ⟨g, hrun⟩ := hg₀.exists_run fun call hmem =>
    ⟨UInt64.le_trans htwo (hcalls call hmem).1, (hcalls call hmem).2⟩
  have hlargest : largest n₀.toNat calls < kMaxNumItems.toNat :=
    largest_lt_iff.mpr ⟨hg₀.lt_max, fun call hmem => UInt64.lt_iff_toNat_lt.mp (hcalls call hmem).2⟩
  rw [← (hg₀.run hrun).sameAsNew_iff hlargest]
  constructor
  · rintro ⟨g₁, g₂, hmake', hrun', hsame⟩
    cases hmake.symm.trans hmake'
    cases hrun.symm.trans hrun'
    exact hsame
  · exact fun hsame => ⟨g₀, g, hmake, hrun, hsame⟩

/-- A generator grows as a new one is made exactly when no call makes it grow. -/
theorem growsAsNew_iff : GrowsAsNew n₀ u₀ calls ↔ ∀ call ∈ calls, call.1 ≤ n₀ := by
  have hle := le_largest n₀.toNat calls
  rw [growsAsNew_iff_largest htwo hmax u₀ hcalls, le_antisymm_iff, and_iff_left hle,
    ← Nat.lt_succ_iff, largest_lt_iff]
  simp [UInt64.le_iff_toNat_le]

end Calls

/-- The theorem for a call that does not make the generator grow. -/
theorem growsAsNew_iff_three :
    GrowsAsNew 3 0 [(3, 0)] ↔ ∀ call ∈ [((3 : UInt64), (0 : RandomDouble))], call.1 ≤ 3 :=
  growsAsNew_iff (by decide) (by decide) 0 (by simp; decide)

/-- A generator made on three items that is used for four has another `eta_` than a new one on
four. -/
theorem not_growsAsNew_fourOnThree : ¬ GrowsAsNew 3 0 [(4, 0)] := by
  rw [growsAsNew_iff_largest (by decide) (by decide) 0 (by simp; decide)]
  decide

end ZipfianGenerator

end YcsbC
