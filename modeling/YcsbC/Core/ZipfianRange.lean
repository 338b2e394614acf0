import YcsbC.Core.Generators

/-!
# The ranks of a zipfian generator

A zipfian generator on `n` items turns a draw `u` into 0, into 1, or into a value of a
power law that starts with 2 at the draw where the second branch ends.  Its ranks are
therefore below `n` (`rank_lt`), and each of them has a draw (`exists_rank_eq`).
-/

namespace YcsbC

namespace ZipfianGenerator

/-- The zeta constant of `n` items. -/
noncomputable def zetaOf (n : ℕ) : ℝ := zeta 0 n kZipfianConst 0

/-- The rank that a draw gives on `n` items. -/
noncomputable def rank (n : ℕ) (u : ℝ) : ℕ :=
  open Classical in
  if u * zetaOf n < 1 then 0
  else if u * zetaOf n < zetaOf 2 then 1
  else ⌊PowerLaw.value n (1 - kZipfianConst)
    (PowerLaw.slope (2 : ℕ) n (1 - kZipfianConst) (zetaOf 2 / zetaOf n)) u⌋₊

/-! ## The zeta constants -/

theorem zetaOf_succ (n : ℕ) :
    zetaOf (n + 1) = zetaOf n + 1 / ((n + 1 : ℕ) : ℝ) ^ kZipfianConst := by
  rw [zetaOf, zeta, Nat.sub_zero, List.range'_1_concat, List.foldl_append, Nat.add_comm (0 + 1) n,
    zetaOf, zeta, Nat.sub_zero]
  rfl

theorem zetaOf_lt_succ (n : ℕ) : zetaOf n < zetaOf (n + 1) := by
  rw [zetaOf_succ, lt_add_iff_pos_right]
  exact one_div_pos.mpr (Real.rpow_pos_of_pos (Nat.cast_pos.mpr n.succ_pos) _)

theorem zetaOf_strictMono : StrictMono zetaOf := strictMono_nat_of_lt_succ zetaOf_lt_succ

theorem zetaOf_one : zetaOf 1 = 1 := by
  rw [zetaOf_succ, show zetaOf 0 = 0 from rfl, Nat.cast_one, Real.one_rpow]
  norm_num

/-- The bound that the second branch of `Next` compares with. -/
theorem zetaOf_two : zetaOf 2 = 1 + (1 / 2 : ℝ) ^ kZipfianConst := by
  rw [zetaOf_succ, zetaOf_one, Real.div_rpow zero_le_one zero_le_two, Real.one_rpow]
  norm_num

theorem one_lt_zetaOf {n : ℕ} (hn : 2 ≤ n) : 1 < zetaOf n := by
  rw [← zetaOf_one]
  exact zetaOf_strictMono hn

/-! ## Which ranks there are -/

theorem exponent_pos : 0 < 1 - kZipfianConst := by
  rw [kZipfianConst]
  norm_num

theorem zetaOf_ratio_lt_one {n : ℕ} (hn : 2 < n) : zetaOf 2 / zetaOf n < 1 :=
  (div_lt_one (zero_lt_one.trans (one_lt_zetaOf hn.le))).mpr (zetaOf_strictMono hn)

/-- A rank is one of the `n` items. -/
theorem rank_lt {n : ℕ} (hn : 2 ≤ n) {u : ℝ} (hu : u < 1) : rank n u < n := by
  have hzeta : 0 < zetaOf n := zero_lt_one.trans (one_lt_zetaOf hn)
  rw [rank, Nat.cast_ofNat]
  split
  · exact Nat.zero_lt_of_lt hn
  · split
    · exact hn
    · rename_i hsecond
      rw [not_lt, ← div_le_iff₀ hzeta] at hsecond
      -- on two items the draw would have to be 1
      have hlt : 2 < n := by
        refine lt_of_le_of_ne hn fun heq => ?_
        rw [← heq, div_self (zero_lt_one.trans (one_lt_zetaOf le_rfl)).ne'] at hsecond
        exact absurd hu hsecond.not_gt
      have hvalue := PowerLaw.value_mem two_pos (Nat.ofNat_lt_cast.mpr hlt) exponent_pos
        (zetaOf_ratio_lt_one hlt) hsecond hu
      exact (Nat.floor_lt (two_pos.le.trans hvalue.1)).mpr hvalue.2

/-- Every item is the rank of a draw. -/
theorem exists_rank_eq {n r : ℕ} (hn : 2 ≤ n) (hr : r < n) :
    ∃ u : RandomDouble, rank n u = r := by
  have hone := one_lt_zetaOf hn
  have hzeta : 0 < zetaOf n := zero_lt_one.trans hone
  rcases Nat.lt_or_ge r 2 with hsmall | hlarge
  · rcases Nat.lt_or_ge r 1 with hzero | hpos
    · refine ⟨⟨0, le_rfl, zero_lt_one⟩, ?_⟩
      rw [rank, if_pos (by rw [zero_mul]; exact zero_lt_one)]
      omega
    · refine ⟨⟨1 / zetaOf n, (one_div_pos.mpr hzeta).le, (div_lt_one hzeta).mpr hone⟩, ?_⟩
      have hmul : 1 / zetaOf n * zetaOf n = 1 := one_div_mul_cancel hzeta.ne'
      rw [rank, hmul, if_neg (lt_irrefl 1), if_pos (one_lt_zetaOf le_rfl)]
      omega
  · have hlt : 2 < n := hlarge.trans_lt hr
    obtain ⟨u, hfirst, hu, hvalue⟩ := PowerLaw.exists_value_eq two_pos
      (Nat.ofNat_lt_cast.mpr hlt) exponent_pos (zetaOf_ratio_lt_one hlt)
      (Nat.ofNat_le_cast.mpr hlarge) (Nat.cast_lt.mpr hr)
    have hzetaTwo : 0 < zetaOf 2 := zero_lt_one.trans (one_lt_zetaOf le_rfl)
    have hsecond : zetaOf 2 ≤ u * zetaOf n := (div_le_iff₀ hzeta).mp hfirst
    refine ⟨⟨u, (div_nonneg hzetaTwo.le hzeta.le).trans hfirst, hu⟩, ?_⟩
    rw [rank, if_neg ((one_lt_zetaOf le_rfl).le.trans hsecond).not_gt, if_neg hsecond.not_gt,
      Nat.cast_ofNat, hvalue, Nat.floor_natCast]

/-! ## The generator gives these ranks -/

/-- A generator on `n` items from 0 that has not grown. -/
structure OnItems (n : UInt64) (g : ZipfianGenerator) : Prop where
  two_le : 2 ≤ n
  lt_max : n < kMaxNumItems
  numItems : g.numItems = n
  base : g.base = 0
  theta : g.theta = kZipfianConst
  zetaN : g.zetaN = zetaOf n.toNat
  eta : g.eta = PowerLaw.slope 2 n.toNat (1 - kZipfianConst) (zetaOf 2 / zetaOf n.toNat)
  alpha : g.alpha = 1 / (1 - kZipfianConst)
  nForZeta : g.nForZeta = n

section OnItems

variable {n : UInt64} {g : ZipfianGenerator} (hg : OnItems n g)

include hg

theorem OnItems.two_le_toNat : 2 ≤ n.toNat := UInt64.le_iff_toNat_le.mp hg.two_le

/-- A draw gives its rank. -/
theorem OnItems.nextOf (u : RandomDouble) :
    g.nextOf n (.double u) =
      some (UInt64.ofNat (rank n.toNat u), { g with lastValue := UInt64.ofNat (rank n.toNat u) }) := by
  have hgrow : ¬ n > g.nForZeta := by
    rw [hg.nForZeta]
    exact UInt64.lt_irrefl _
  have hvalue : (if (u : ℝ) * g.zetaN < 1 then (0 : UInt64)
      else if (u : ℝ) * g.zetaN < 1 + (1 / 2 : ℝ) ^ g.theta then 1
      else UInt64.ofNat ⌊(g.base.toNat : ℝ) + n.toNat *
        (g.eta * u - g.eta + 1) ^ g.alpha⌋₊) = UInt64.ofNat (rank n.toNat u) := by
    rw [rank, hg.zetaN, hg.theta, ← zetaOf_two, hg.base, hg.eta, hg.alpha, UInt64.toNat_zero,
      Nat.cast_zero, zero_add]
    split
    · rfl
    · split <;> rfl
  rw [ZipfianGenerator.nextOf, if_pos ⟨hg.two_le, hg.lt_max⟩, if_neg hgrow]
  exact congrArg (fun value => some (value, { g with lastValue := value })) hvalue

/-- A draw leaves a generator on the same items. -/
theorem OnItems.drawn (value : UInt64) : OnItems n { g with lastValue := value } :=
  ⟨hg.two_le, hg.lt_max, hg.numItems, hg.base, hg.theta, hg.zetaN, hg.eta, hg.alpha, hg.nForZeta⟩

/-- What `Next(n)` gives is one of the items. -/
theorem OnItems.nextOf_eq_some {g' : ZipfianGenerator} {draw : RandomDraw} {value : UInt64}
    (hnext : g.nextOf n draw = some (value, g')) : value < n ∧ OnItems n g' := by
  cases draw with
  | int draw => cases hnext
  | double u =>
      rw [hg.nextOf] at hnext
      cases hnext
      have hlt := rank_lt hg.two_le_toNat u.2.2
      refine ⟨?_, hg.drawn _⟩
      rw [UInt64.lt_iff_toNat_lt, UInt64.toNat_ofNat_of_lt' (hlt.trans n.toNat_lt)]
      exact hlt

/-- Every item is what `Next(n)` gives for some draw. -/
theorem OnItems.exists_nextOf {value : UInt64} (hlt : value < n) :
    ∃ draw, g.nextOf n draw = some (value, { g with lastValue := value }) := by
  obtain ⟨u, hu⟩ := exists_rank_eq hg.two_le_toNat (UInt64.lt_iff_toNat_lt.mp hlt)
  refine ⟨.double u, ?_⟩
  rw [hg.nextOf, hu, UInt64.ofNat_toNat]

end OnItems

end ZipfianGenerator

end YcsbC
