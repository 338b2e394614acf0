import YcsbC.Core.ZipfianState
import Mathlib.Logic.Function.Basic

/-!
# Clients that share a skewed latest generator

`SkewedLatestGenerator::Next` reads the counter, draws a rank under the lock of the zipfian
generator, and stores the difference.  Other clients may run between these steps, and the
counter may move, so the number that a client has read can be smaller than what the zipfian
generator has meanwhile grown to.

A rank is at most the number that its client has read all the same (`next_noWrap`): `eta_` is
computed from the number of items the generator was made on, and no client reads a smaller
one.
-/

namespace YcsbC

namespace ZipfianGenerator

/-- A rank is at most the number passed, which may be smaller than what the generator has
grown to. -/
theorem Grown.item_le {n₀ n : ℕ} {g : ZipfianGenerator} (hg : Grown 0 n₀ n g) {num : ℕ}
    (hnum : n₀ ≤ num) (u : RandomDouble) : item 0 n₀ n num u ≤ num := by
  have htwo := hg.two_le
  obtain ⟨-, hitem⟩ | ⟨-, -, hitem⟩ | ⟨hsecond, hitem⟩ := item_cases htwo hg.le u 0 num
  · omega
  · omega
  · rw [hitem, Nat.zero_add]
    exact Nat.floor_le_of_le (powerLaw_le htwo hg.le hsecond u.2.2 num)

end ZipfianGenerator

open ZipfianGenerator (Grown kMaxNumItems)

/-- Where a client is in `SkewedLatestGenerator::Next`. -/
inductive LatestPhase where
  /-- Not in it. -/
  | idle
  /-- It has read `max` from `basis_`. -/
  | read (max : UInt64)
  /-- It has drawn `rank` from `zipfian_`. -/
  | drawn (max rank : UInt64)

/-- The clients that share a skewed latest generator. -/
structure LatestClients (ι : Type*) where
  /-- The counter that `basis_` refers to. -/
  basis : CounterGenerator
  /-- The generator. -/
  generator : SkewedLatestGenerator
  /-- Where each client is. -/
  phase : ι → LatestPhase

/-- A step of a client or of the counter. -/
inductive LatestEvent (ι : Type*) where
  /-- The counter moves, never back. -/
  | move (basis : CounterGenerator)
  /-- `basis_.Last()`. -/
  | read (client : ι)
  /-- `zipfian_.Next(max)`, which holds its lock while it draws. -/
  | draw (client : ι) (u : RandomDouble)
  /-- `last_ = max - rank`, which is also what `Next` returns. -/
  | store (client : ι)

namespace LatestClients

variable {ι : Type*}

/-- The clients before any of them has called `Next`. -/
def start (basis : CounterGenerator) (generator : SkewedLatestGenerator) : LatestClients ι :=
  ⟨basis, generator, fun _ => .idle⟩

section Steps

variable [DecidableEq ι]

/-- The client goes on. -/
def goto (s : LatestClients ι) (client : ι) (phase : LatestPhase) : LatestClients ι :=
  { s with phase := Function.update s.phase client phase }

/-- What a step does. -/
noncomputable def step (s : LatestClients ι) : LatestEvent ι → Option (LatestClients ι)
  | .move basis =>
      if s.basis.last ≤ basis.last ∧ basis.last < kMaxNumItems then some { s with basis := basis }
      else none
  | .read client =>
      match s.phase client with
      | .idle => some (s.goto client (.read s.basis.last))
      | _ => none
  | .draw client u =>
      match s.phase client with
      | .read max =>
          (s.generator.zipfian.nextOf max (.double u)).map fun (rank, zipfian) =>
            { s with generator.zipfian := zipfian }.goto client (.drawn max rank)
      | _ => none
  | .store client =>
      match s.phase client with
      | .drawn max rank => some ({ s with generator.last := max - rank }.goto client .idle)
      | _ => none

/-- The machine of these steps. -/
noncomputable def machine (ι : Type*) [DecidableEq ι] : Machine (LatestClients ι) (LatestEvent ι) :=
  ⟨step⟩

/-- The three steps of a client with no others in between are `SkewedLatestGenerator::Next`. -/
theorem run_next (s : LatestClients ι) (client : ι) (u : RandomDouble)
    (hidle : s.phase client = .idle) :
    (machine ι).run s [.read client, .draw client u, .store client] =
      (s.generator.next s.basis (.double u)).map fun (_, g) => { s with generator := g } := by
  cases hnext : s.generator.zipfian.nextOf s.basis.last (.double u) with
  | none => simp [machine, Machine.run_cons, step, goto, SkewedLatestGenerator.next, hidle, hnext]
  | some drawn =>
      simp [machine, Machine.run_cons, step, goto, SkewedLatestGenerator.next,
        SkewedLatestGenerator.keyOfRank, hidle, hnext]

end Steps

/-! ## No wrap -/

/-- The difference that a client stores is that of natural numbers. -/
structure Fits (max rank : UInt64) : Prop where
  rank_le : rank ≤ max
  toNat_sub : (max - rank).toNat = max.toNat - rank.toNat
  sub_le : max - rank ≤ max

/-- A client that has read `max` can draw, and each rank that it draws or has drawn fits; the
last key number is at most the newest. -/
structure NoWrap (s : LatestClients ι) : Prop where
  read : ∀ client max, s.phase client = .read max → ∀ u : RandomDouble, ∃ rank zipfian,
    s.generator.zipfian.nextOf max (.double u) = some (rank, zipfian) ∧ Fits max rank
  drawn : ∀ client max rank, s.phase client = .drawn max rank → Fits max rank
  last_le : s.generator.last ≤ s.basis.last

theorem fits_of_le {max rank : UInt64} (hle : rank ≤ max) : Fits max rank := by
  have hsub := UInt64.toNat_sub_of_le max rank hle
  refine ⟨hle, hsub, ?_⟩
  rw [UInt64.le_iff_toNat_le, hsub]
  exact Nat.sub_le _ _

/-- What a client holds is between the first number of items and the newest key. -/
def PhaseOk (n₀ : ℕ) (last : UInt64) : LatestPhase → Prop
  | .idle => True
  | .read max => n₀ ≤ max.toNat ∧ max ≤ last
  | .drawn max rank => rank ≤ max ∧ max ≤ last

/-- The invariant of the clients, on a generator made on `n₀` items. -/
structure Inv (n₀ : ℕ) (s : LatestClients ι) : Prop where
  grown : ∃ n, Grown 0 n₀ n s.generator.zipfian
  le_basis : n₀ ≤ s.basis.last.toNat
  basis_lt : s.basis.last < kMaxNumItems
  phase : ∀ client, PhaseOk n₀ s.basis.last (s.phase client)
  last_le : s.generator.last ≤ s.basis.last

theorem PhaseOk.mono {n₀ : ℕ} {last last' : UInt64} (hle : last ≤ last') {phase : LatestPhase}
    (hphase : PhaseOk n₀ last phase) : PhaseOk n₀ last' phase := by
  cases phase with
  | idle => trivial
  | read max => exact ⟨hphase.1, UInt64.le_trans hphase.2 hle⟩
  | drawn max rank => exact ⟨hphase.1, UInt64.le_trans hphase.2 hle⟩

section Inv

variable {n₀ : ℕ} {s : LatestClients ι} (hs : s.Inv n₀)

include hs

/-- A client that has read `max` draws a rank up to it. -/
theorem Inv.exists_nextOf {max : UInt64} (hmax : PhaseOk n₀ s.basis.last (.read max))
    (u : RandomDouble) : ∃ rank zipfian n,
      s.generator.zipfian.nextOf max (.double u) = some (rank, zipfian) ∧ rank ≤ max ∧
        Grown 0 n₀ n zipfian := by
  obtain ⟨n, hgrown⟩ := hs.grown
  have htwo : 2 ≤ max := UInt64.le_iff_toNat_le.mpr (hgrown.two_le.trans hmax.1)
  have hlt : max < kMaxNumItems := UInt64.lt_of_le_of_lt hmax.2 hs.basis_lt
  obtain ⟨zipfian, hnext, hzipfian⟩ := hgrown.nextOf htwo hlt u
  refine ⟨_, zipfian, _, hnext, ?_, hzipfian⟩
  have hle := hzipfian.item_le hmax.1 u
  rw [UInt64.le_iff_toNat_le, UInt64.toNat_ofNat_of_lt' (hle.trans_lt max.toNat_lt)]
  exact hle

/-- The invariant allows no wrap. -/
theorem Inv.noWrap : s.NoWrap where
  read := fun client max hread u => by
    obtain ⟨rank, zipfian, n, hnext, hle, -⟩ := hs.exists_nextOf (hread ▸ hs.phase client) u
    exact ⟨rank, zipfian, hnext, fits_of_le hle⟩
  drawn := fun client max rank hdrawn => by
    have hphase := hs.phase client
    rw [hdrawn] at hphase
    exact fits_of_le hphase.1
  last_le := hs.last_le

end Inv

variable (ι) in
/-- The invariant holds when the generator has been made. -/
theorem exists_make {basis : CounterGenerator} (htwo : 2 ≤ basis.last)
    (hmax : basis.last < kMaxNumItems) (u u' : RandomDouble) :
    ∃ g₀, SkewedLatestGenerator.make basis (.double u) (.double u') = some g₀ ∧
      (start basis g₀ : LatestClients ι).Inv basis.last.toNat := by
  obtain ⟨zipfian, hmake, hzipfian⟩ := ZipfianGenerator.exists_grown htwo hmax u
  have hs : (start basis ⟨zipfian, 0⟩ : LatestClients ι).Inv basis.last.toNat :=
    ⟨⟨_, hzipfian⟩, le_rfl, hmax, fun _ => trivial, UInt64.zero_le⟩
  -- the constructor calls `Next` once
  obtain ⟨rank, zipfian', n, hnext, hle, hzipfian'⟩ :=
    hs.exists_nextOf ⟨le_rfl, UInt64.le_refl _⟩ u'
  refine ⟨⟨zipfian', basis.last - rank⟩, ?_, ⟨n, hzipfian'⟩, le_rfl, hmax, fun _ => trivial,
    (fits_of_le hle).sub_le⟩
  have hdraw : zipfian.nextOf basis.last (.double u') = some (rank, zipfian') := hnext
  rw [SkewedLatestGenerator.make, hmake, Option.bind_some, SkewedLatestGenerator.next, hdraw]
  rfl

section Steps

variable [DecidableEq ι]

/-- A step of a client to a phase that is in order. -/
theorem Inv.goto {n₀ : ℕ} {s : LatestClients ι} (hs : s.Inv n₀) {client : ι}
    {phase : LatestPhase} (hphase : PhaseOk n₀ s.basis.last phase) :
    (s.goto client phase).Inv n₀ := by
  refine ⟨hs.grown, hs.le_basis, hs.basis_lt, fun other => ?_, hs.last_le⟩
  rcases eq_or_ne other client with rfl | hne
  · simpa [LatestClients.goto] using hphase
  · simpa [LatestClients.goto, hne] using hs.phase other

/-- Every step keeps the invariant. -/
theorem Inv.step {n₀ : ℕ} {s s' : LatestClients ι} (hs : s.Inv n₀) {event : LatestEvent ι}
    (hstep : s.step event = some s') : s'.Inv n₀ := by
  cases event with
  | move basis =>
      rw [LatestClients.step] at hstep
      split at hstep
      · rename_i hmove
        cases hstep
        exact ⟨hs.grown, hs.le_basis.trans (UInt64.le_iff_toNat_le.mp hmove.1), hmove.2,
          fun client => (hs.phase client).mono hmove.1, UInt64.le_trans hs.last_le hmove.1⟩
      · cases hstep
  | read client =>
      rw [LatestClients.step] at hstep
      split at hstep
      · cases hstep
        exact hs.goto ⟨hs.le_basis, UInt64.le_refl _⟩
      · cases hstep
  | draw client u =>
      rw [LatestClients.step] at hstep
      split at hstep
      · rename_i max hread
        have hmax := hread ▸ hs.phase client
        obtain ⟨rank, zipfian, n, hnext, hle, hzipfian⟩ := hs.exists_nextOf hmax u
        rw [hnext] at hstep
        cases hstep
        have hdrawn : Inv n₀ { s with generator.zipfian := zipfian } :=
          ⟨⟨n, hzipfian⟩, hs.le_basis, hs.basis_lt, hs.phase, hs.last_le⟩
        exact hdrawn.goto ⟨hle, hmax.2⟩
      · cases hstep
  | store client =>
      rw [LatestClients.step] at hstep
      split at hstep
      · rename_i max rank hdrawn
        have hphase := hdrawn ▸ hs.phase client
        cases hstep
        have hstored : Inv n₀ { s with generator.last := max - rank } :=
          ⟨hs.grown, hs.le_basis, hs.basis_lt, hs.phase,
            UInt64.le_trans (fits_of_le hphase.1).sub_le hphase.2⟩
        exact hstored.goto trivial
      · cases hstep

/-- Whatever the clients and the counter do in between, no client draws a rank above the
number that it has read. -/
theorem next_noWrap {basis : CounterGenerator} (htwo : 2 ≤ basis.last)
    (hmax : basis.last < kMaxNumItems) (u u' : RandomDouble) :
    ∃ g₀, SkewedLatestGenerator.make basis (.double u) (.double u') = some g₀ ∧
      ∀ events s, (machine ι).run (start basis g₀) events = some s → s.NoWrap := by
  obtain ⟨g₀, hmake, hg₀⟩ := exists_make ι htwo hmax u u'
  refine ⟨g₀, hmake, fun events s hrun => ?_⟩
  exact ((machine ι).run_invariant (fun s event s' hs hstep => hs.step hstep) hg₀ hrun).noWrap

end Steps

/-- The theorem for a counter of four records. -/
theorem next_noWrap_four :
    ∃ g₀, SkewedLatestGenerator.make ⟨4⟩ (.double 0) (.double 0) = some g₀ ∧
      ∀ events s, (machine ℕ).run (start ⟨4⟩ g₀) events = some s → s.NoWrap :=
  next_noWrap (by decide) (by decide) 0 0

end LatestClients

end YcsbC
