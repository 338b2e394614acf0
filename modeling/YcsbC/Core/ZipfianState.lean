import YcsbC.Core.ZipfianRange
import YcsbC.Foundation.Machine
import Mathlib.Algebra.Order.Interval.Set.Instances

/-!
# Zipfian generators after any calls

`Next(num)` extends the zeta sum when `num` is above every number passed before it, and
computes `eta_` again from the extended sum and from `num_items_`, which stays the number
of items the generator was made on.  The fields of a generator are therefore known from its
least item, this number, and the largest number passed (`Grown`), and so is the value that a
draw gives (`item`).
-/

namespace YcsbC

namespace ZipfianGenerator

/-- The machine of the calls `Next(num)`. -/
noncomputable def calling : Machine ZipfianGenerator (UInt64 × RandomDouble) :=
  ⟨fun g call => (g.nextOf call.1 (.double call.2)).map (·.2)⟩

/-- The machine of the calls `Next()`. -/
noncomputable def drawing : Machine ZipfianGenerator RandomDouble :=
  ⟨fun g u => (g.next (.double u)).map (·.2)⟩

/-- A generator made on `n₀` items from `min`, with `n` the largest number of items it has
been used for. -/
structure Grown (min n₀ n : ℕ) (g : ZipfianGenerator) : Prop where
  two_le : 2 ≤ n₀
  lt_max : n₀ < kMaxNumItems.toNat
  le : n₀ ≤ n
  numItems : g.numItems.toNat = n₀
  base : g.base.toNat = min
  theta : g.theta = kZipfianConst
  zetaN : g.zetaN = zetaOf n
  eta : g.eta = PowerLaw.slope 2 n₀ (1 - kZipfianConst) (zetaOf 2 / zetaOf n)
  alpha : g.alpha = 1 / (1 - kZipfianConst)
  zeta2 : g.zeta2 = zetaOf 2
  nForZeta : g.nForZeta.toNat = n

/-- What the power law gives for a draw when `num` is passed. -/
noncomputable def powerLaw (n₀ n num : ℕ) (u : ℝ) : ℝ :=
  PowerLaw.value num (1 - kZipfianConst)
    (PowerLaw.slope (2 : ℕ) n₀ (1 - kZipfianConst) (zetaOf 2 / zetaOf n)) u

/-- The value of a draw when `num` is passed. -/
noncomputable def item (min n₀ n num : ℕ) (u : ℝ) : ℕ :=
  open Classical in
  if u * zetaOf n < 1 then 0
  else if u * zetaOf n < zetaOf 2 then 1
  else ⌊min + powerLaw n₀ n num u⌋₊

theorem rank_eq_item (n : ℕ) (u : ℝ) : rank n u = item 0 n n n u := by
  simp [rank, item, powerLaw]

/-! ## The zeta sum -/

/-- The zeta sum extended from one number of items to another. -/
theorem zeta_zetaOf {n num : ℕ} (hle : n ≤ num) :
    zeta n num kZipfianConst (zetaOf n) = zetaOf num := by
  obtain ⟨k, rfl⟩ := Nat.exists_eq_add_of_le hle
  simp only [zetaOf, zeta, Nat.sub_zero, Nat.add_sub_cancel_left, ← List.foldl_append]
  rw [Nat.add_comm n 1, Nat.zero_add, List.range'_append_1]

/-! ## The branches -/

theorem item_of_lt_one {min n₀ n num : ℕ} {u : ℝ} (hu : u * zetaOf n < 1) :
    item min n₀ n num u = 0 := by
  simp [item, hu]

theorem item_of_lt_two {min n₀ n num : ℕ} {u : ℝ} (hone : 1 ≤ u * zetaOf n)
    (htwo : u * zetaOf n < zetaOf 2) : item min n₀ n num u = 1 := by
  simp [item, hone.not_gt, htwo]

section PowerLaw

variable {n₀ n : ℕ} (h₀ : 2 ≤ n₀) (hn : n₀ ≤ n) {u : ℝ} (hu : zetaOf 2 ≤ u * zetaOf n)

include h₀ hn

theorem zetaOf_pos : 0 < zetaOf n := zero_lt_one.trans (one_lt_zetaOf (h₀.trans hn))

include hu

theorem ratio_le_draw : zetaOf 2 / zetaOf n ≤ u := (div_le_iff₀ (zetaOf_pos h₀ hn)).mpr hu

variable (hu1 : u < 1)

include hu1

theorem ratio_lt_one : zetaOf 2 / zetaOf n < 1 := (ratio_le_draw h₀ hn hu).trans_lt hu1

theorem powerLaw_nonneg (num : ℕ) : 0 ≤ powerLaw n₀ n num u :=
  PowerLaw.value_nonneg two_pos (Nat.ofNat_le_cast.mpr h₀) exponent_pos
    (ratio_lt_one h₀ hn hu hu1) num.cast_nonneg (ratio_le_draw h₀ hn hu) hu1.le

theorem powerLaw_le (num : ℕ) : powerLaw n₀ n num u ≤ num :=
  PowerLaw.value_le two_pos (Nat.ofNat_le_cast.mpr h₀) exponent_pos
    (ratio_lt_one h₀ hn hu hu1) num.cast_nonneg (ratio_le_draw h₀ hn hu) hu1.le

theorem powerLaw_mono {v : ℝ} (huv : u ≤ v) (hv1 : v < 1) (num : ℕ) :
    powerLaw n₀ n num u ≤ powerLaw n₀ n num v :=
  PowerLaw.value_mono two_pos (Nat.ofNat_le_cast.mpr h₀) exponent_pos
    (ratio_lt_one h₀ hn hu hu1) num.cast_nonneg (ratio_le_draw h₀ hn hu) huv hv1.le

/-- The third branch adds what the power law gives to the least item. -/
theorem item_of_le (min num : ℕ) :
    item min n₀ n num u = min + ⌊powerLaw n₀ n num u⌋₊ := by
  have hone := (one_lt_zetaOf le_rfl).le.trans hu
  rw [item, if_neg hone.not_gt, if_neg hu.not_gt, add_comm, Nat.floor_add_natCast, add_comm]
  exact powerLaw_nonneg h₀ hn hu hu1 num

end PowerLaw

/-- The branch of a draw, with its item. -/
theorem item_cases {n₀ n : ℕ} (h₀ : 2 ≤ n₀) (hn : n₀ ≤ n) (u : RandomDouble) (min num : ℕ) :
    (u * zetaOf n < 1 ∧ item min n₀ n num u = 0) ∨
    (1 ≤ u * zetaOf n ∧ u * zetaOf n < zetaOf 2 ∧ item min n₀ n num u = 1) ∨
    (zetaOf 2 ≤ u * zetaOf n ∧ item min n₀ n num u = min + ⌊powerLaw n₀ n num u⌋₊) := by
  rcases lt_or_ge ((u : ℝ) * zetaOf n) 1 with hfirst | hfirst
  · exact .inl ⟨hfirst, item_of_lt_one hfirst⟩
  · rcases lt_or_ge ((u : ℝ) * zetaOf n) (zetaOf 2) with hsecond | hsecond
    · exact .inr (.inl ⟨hfirst, hsecond, item_of_lt_two hfirst hsecond⟩)
    · exact .inr (.inr ⟨hsecond, item_of_le h₀ hn hsecond u.2.2 min num⟩)

/-- The third branch is never taken on two items. -/
theorem two_lt {n : ℕ} (hn : 2 ≤ n) {u : ℝ} (hu : zetaOf 2 ≤ u * zetaOf n) (hu1 : u < 1) :
    2 < n :=
  zetaOf_strictMono.lt_iff_lt.mp ((div_lt_one (zetaOf_pos hn le_rfl)).mp
    (ratio_lt_one hn le_rfl hu hu1))

/-- Before any growth the power law gives the items from 2 on. -/
theorem floor_powerLaw_mem {n : ℕ} (hn : 2 ≤ n) {u : ℝ} (hu : zetaOf 2 ≤ u * zetaOf n)
    (hu1 : u < 1) : 2 ≤ ⌊powerLaw n n n u⌋₊ ∧ ⌊powerLaw n n n u⌋₊ < n := by
  obtain ⟨hge, hlt⟩ := PowerLaw.value_mem two_pos (Nat.ofNat_lt_cast.mpr (two_lt hn hu hu1))
    exponent_pos (ratio_lt_one hn le_rfl hu hu1) (ratio_le_draw hn le_rfl hu) hu1
  exact ⟨Nat.le_floor hge, (Nat.floor_lt (two_pos.le.trans hge)).mpr hlt⟩

/-! ## A call -/

/-- The part of `Next(num)` under the comment "Recompute zeta_n and eta". -/
noncomputable def grow (g : ZipfianGenerator) (num : UInt64) : Option ZipfianGenerator :=
  if num > g.nForZeta then (g.raiseZeta num).map fun g => { g with eta := g.calcEta } else some g

open Classical in
/-- The value that the rest of `Next(num)` returns. -/
noncomputable def valueOf (g : ZipfianGenerator) (num : UInt64) (u : ℝ) : UInt64 :=
  if u * g.zetaN < 1 then 0
  else if u * g.zetaN < 1 + (1 / (2 : ℕ) : ℝ) ^ g.theta then 1
  else UInt64.ofNat ⌊(g.base.toNat : ℝ) + num.toNat * (g.eta * u - g.eta + 1) ^ g.alpha⌋₊

theorem nextOf_eq (g : ZipfianGenerator) {num : UInt64} (htwo : 2 ≤ num)
    (hmax : num < kMaxNumItems) (u : RandomDouble) :
    g.nextOf num (.double u) = (g.grow num).map fun g =>
      (g.valueOf num u, { g with lastValue := g.valueOf num u }) := by
  rw [nextOf, if_pos ⟨htwo, hmax⟩, grow]
  split
  · cases g.raiseZeta num <;> rfl
  · rfl

section Grown

variable {min n₀ n : ℕ} {g : ZipfianGenerator} (hg : Grown min n₀ n g)

include hg

/-- A call first brings the fields up to the number passed. -/
theorem Grown.exists_grow (num : UInt64) :
    ∃ g', g.grow num = some g' ∧ Grown min n₀ (max n num.toNat) g' := by
  have hiff : g.nForZeta < num ↔ n < num.toNat := by rw [UInt64.lt_iff_toNat_lt, hg.nForZeta]
  rw [grow]
  split
  · rename_i hgt
    have hlt := hiff.mp hgt
    have hle : g.nForZeta ≤ num := by
      rw [UInt64.le_iff_toNat_le, hg.nForZeta]
      exact hlt.le
    rw [raiseZeta, if_pos hle, hg.nForZeta, hg.theta, hg.zetaN, zeta_zetaOf hlt.le,
      max_eq_right hlt.le]
    refine ⟨_, rfl, hg.two_le, hg.lt_max, hg.le.trans hlt.le, hg.numItems, hg.base, rfl, rfl, ?_,
      hg.alpha, hg.zeta2, rfl⟩
    simp [calcEta, PowerLaw.slope, hg.numItems, hg.zeta2]
  · rename_i hge
    rw [max_eq_left (not_lt.mp (mt hiff.mpr hge))]
    exact ⟨g, rfl, hg⟩

theorem Grown.valueOf_eq (num : UInt64) (u : ℝ) :
    g.valueOf num u = UInt64.ofNat (item min n₀ n num.toNat u) := by
  rw [valueOf, item, powerLaw, hg.zetaN, hg.theta, Nat.cast_ofNat, ← zetaOf_two, hg.base, hg.eta,
    hg.alpha]
  split
  · rfl
  · split <;> rfl

theorem Grown.drawn (value : UInt64) : Grown min n₀ n { g with lastValue := value } :=
  ⟨hg.two_le, hg.lt_max, hg.le, hg.numItems, hg.base, hg.theta, hg.zetaN, hg.eta, hg.alpha,
    hg.zeta2, hg.nForZeta⟩

/-- What a call of `Next(num)` does. -/
theorem Grown.nextOf {num : UInt64} (htwo : 2 ≤ num) (hmax : num < kMaxNumItems)
    (u : RandomDouble) :
    ∃ g', g.nextOf num (.double u) =
        some (UInt64.ofNat (item min n₀ (max n num.toNat) num.toNat u), g') ∧
      Grown min n₀ (max n num.toNat) g' := by
  obtain ⟨g₁, hgrow, hg₁⟩ := hg.exists_grow num
  rw [nextOf_eq g htwo hmax, hgrow, Option.map_some, hg₁.valueOf_eq]
  exact ⟨_, rfl, hg₁.drawn _⟩

/-- `Next()` returns its item. -/
theorem Grown.next (u : RandomDouble) : ∃ g',
    g.next (.double u) = some (UInt64.ofNat (item min n₀ n n₀ u), g') ∧ Grown min n₀ n g' := by
  have htwo : 2 ≤ g.numItems := by
    rw [UInt64.le_iff_toNat_le, hg.numItems]
    exact hg.two_le
  have hmax : g.numItems < kMaxNumItems := by
    rw [UInt64.lt_iff_toNat_lt, hg.numItems]
    exact hg.lt_max
  obtain ⟨g', hnext, hg'⟩ := hg.nextOf htwo hmax u
  rw [hg.numItems, max_eq_left hg.le] at hnext hg'
  exact ⟨g', hnext, hg'⟩

/-- The fields after a call that gives something, so that its `assert` holds. -/
theorem Grown.of_nextOf {num value : UInt64} {u : RandomDouble} {g' : ZipfianGenerator}
    (hnext : g.nextOf num (.double u) = some (value, g')) :
    Grown min n₀ (max n num.toNat) g' := by
  rcases Classical.em (2 ≤ num ∧ num < kMaxNumItems) with hrange | hrange
  · obtain ⟨g₁, hnext₁, hg₁⟩ := hg.nextOf hrange.1 hrange.2 u
    rw [hnext₁] at hnext
    cases hnext
    exact hg₁
  · rw [ZipfianGenerator.nextOf, if_neg hrange] at hnext
    cases hnext

end Grown

/-! ## Runs -/

/-- The largest number of items after some calls. -/
def largest (n : ℕ) (calls : List (UInt64 × RandomDouble)) : ℕ :=
  calls.foldl (fun n call => max n call.1.toNat) n

/-- The fields after any calls. -/
theorem Grown.run {min n₀ n : ℕ} {g g' : ZipfianGenerator} (hg : Grown min n₀ n g)
    {calls : List (UInt64 × RandomDouble)} (hrun : calling.run g calls = some g') :
    Grown min n₀ (largest n calls) g' := by
  induction calls generalizing n g with
  | nil =>
      cases hrun
      exact hg
  | cons call calls ih =>
      obtain ⟨g₁, hstep, hrest⟩ := calling.run_cons_eq_some.mp hrun
      obtain ⟨⟨value, g₂⟩, hnext, rfl⟩ := Option.map_eq_some_iff.mp hstep
      exact ih (hg.of_nextOf hnext) hrest

/-- Draws do not grow a generator. -/
theorem Grown.drawing_run {min n₀ n : ℕ} {g g' : ZipfianGenerator} (hg : Grown min n₀ n g)
    {draws : List RandomDouble} (hrun : drawing.run g draws = some g') : Grown min n₀ n g' := by
  refine drawing.run_invariant (fun g₁ u g₂ hg₁ hstep => ?_) hg hrun
  obtain ⟨g₃, hnext, hg₃⟩ := hg₁.next u
  rw [drawing, Option.map_eq_some_iff] at hstep
  obtain ⟨drawn, hdrawn, rfl⟩ := hstep
  cases hnext.symm.trans hdrawn
  exact hg₃

/-! ## The constructor -/

/-- The fields before the first draw. -/
theorem exists_fresh {min max : UInt64} (htwo : 2 ≤ max - min + 1)
    (hmax : max - min + 1 < kMaxNumItems) : ∃ g, fresh min max kZipfianConst = some g ∧
      Grown min.toNat (max - min + 1).toNat (max - min + 1).toNat g := by
  rw [fresh]
  dsimp only
  rw [if_pos ⟨htwo, hmax⟩, raiseZeta, if_pos UInt64.zero_le]
  exact ⟨_, rfl, UInt64.le_iff_toNat_le.mp htwo, UInt64.lt_iff_toNat_lt.mp hmax, le_rfl, rfl, rfl,
    rfl, rfl, rfl, rfl, rfl, rfl⟩

/-- The constructor makes a generator, whatever it draws. -/
theorem exists_make {min max : UInt64} (htwo : 2 ≤ max - min + 1)
    (hmax : max - min + 1 < kMaxNumItems) (u : RandomDouble) :
    ∃ g, make min max (.double u) = some g ∧
      Grown min.toNat (max - min + 1).toNat (max - min + 1).toNat g := by
  obtain ⟨g, hfresh, hg⟩ := exists_fresh htwo hmax
  have hnum : g.numItems = max - min + 1 := UInt64.toNat_inj.mp hg.numItems
  obtain ⟨g', hnext, hg'⟩ := hg.nextOf (hnum ▸ htwo) (hnum ▸ hmax) u
  rw [hg.numItems, max_self] at hg'
  rw [make, hfresh, Option.bind_some, next, hnext]
  exact ⟨g', rfl, hg'⟩

/-- What the constructor makes, if its `assert` holds. -/
theorem make_eq_some {min max : UInt64} {draw : RandomDraw} {g : ZipfianGenerator}
    (hmake : make min max draw = some g) :
    Grown min.toNat (max - min + 1).toNat (max - min + 1).toNat g := by
  cases draw with
  | int draw =>
      rw [make, Option.bind_eq_some_iff] at hmake
      obtain ⟨g₀, -, hdraw⟩ := hmake
      cases hdraw
  | double u =>
      rcases Classical.em (2 ≤ max - min + 1 ∧ max - min + 1 < kMaxNumItems) with hrange | hrange
      · obtain ⟨g', hmake', hg'⟩ := exists_make hrange.1 hrange.2 u
        cases hmake.symm.trans hmake'
        exact hg'
      · simp [make, fresh, hrange] at hmake

/-- A generator on a number of items. -/
theorem exists_grown {n : UInt64} (htwo : 2 ≤ n) (hmax : n < kMaxNumItems) (u : RandomDouble) :
    ∃ g, ofNumItems n (.double u) = some g ∧ Grown 0 n.toNat n.toNat g := by
  have hnum : n - 1 - 0 + 1 = n := by rw [UInt64.sub_zero, UInt64.sub_add_cancel]
  obtain ⟨g, hmake, hg⟩ : ∃ g, make 0 (n - 1) (.double u) = some g ∧
      Grown 0 (n - 1 - 0 + 1).toNat (n - 1 - 0 + 1).toNat g :=
    exists_make (by rwa [hnum]) (by rwa [hnum]) u
  rw [hnum] at hg
  exact ⟨g, hmake, hg⟩

/-- A generator that has not grown gives the ranks of its items. -/
theorem Grown.onItems {n : UInt64} {g : ZipfianGenerator} (hg : Grown 0 n.toNat n.toNat g) :
    OnItems n g where
  two_le := UInt64.le_iff_toNat_le.mpr hg.two_le
  lt_max := UInt64.lt_iff_toNat_lt.mpr hg.lt_max
  numItems := UInt64.toNat_inj.mp hg.numItems
  base := UInt64.toNat_inj.mp hg.base
  theta := hg.theta
  zetaN := hg.zetaN
  eta := hg.eta
  alpha := hg.alpha
  nForZeta := UInt64.toNat_inj.mp hg.nForZeta

theorem ofNumItems_eq_some {n : UInt64} {draw : RandomDraw} {g : ZipfianGenerator}
    (hmake : ofNumItems n draw = some g) : OnItems n g := by
  have hg := make_eq_some hmake
  rw [UInt64.sub_zero, UInt64.sub_add_cancel] at hg
  exact hg.onItems

end ZipfianGenerator

end YcsbC
