import YcsbC.Core.CoreWorkload
import YcsbC.Foundation.Machine
import YcsbC.Foundation.RunningSum
import Mathlib.Algebra.Order.Field.Basic
import Mathlib.Data.Rat.Cast.Order
import Mathlib.Order.Interval.Set.Defs
import Mathlib.Tactic.Linarith

/-!
# The discrete generator

`Next` compares its random number with the share of one value after the other, and takes
the share off when it goes on to the next one.  What is left is the number less the shares
so far, so the loop stops at the value whose share of the interval from 0 to 1 holds the
number (`next_proportional`).
-/

namespace YcsbC

/-- `DiscreteGenerator`, with weights in `W`: `double`s in the code, of which `ℚ` is the exact
arithmetic. -/
structure DiscreteGenerator (V W : Type*) where
  /-- `values_`. -/
  values : List (V × W)
  /-- `sum_`. -/
  sum : W
  /-- `last_`, which the first `AddValue` sets. -/
  last : Option V

namespace DiscreteGenerator

open RunningSum

variable {V W : Type*}

/-- The constructor. -/
def empty [Zero W] : DiscreteGenerator V W := ⟨[], 0, none⟩

/-- `AddValue`. -/
def addValue [Add W] (g : DiscreteGenerator V W) (value : V) (weight : W) :
    DiscreteGenerator V W where
  values := g.values ++ [(value, weight)]
  sum := g.sum + weight
  last := if g.values.isEmpty then some value else g.last

/-- The loop of `Next` on the values left, which ends at an `assert(false)`. -/
def pick (sum chooser : ℚ) : List (V × ℚ) → Option V
  | [] => none
  | (value, weight) :: rest =>
      if chooser < weight / sum then some value else pick sum (chooser - weight / sum) rest

/-- `Next`, on the number that `RandomDouble` returns. -/
def next (g : DiscreteGenerator V ℚ) (chooser : ℚ) : Option (V × DiscreteGenerator V ℚ) :=
  (pick g.sum chooser g.values).map fun value => (value, { g with last := some value })

/-- A generator to which these pairs have been added. -/
def ofEntries [Zero W] [Add W] (entries : List (V × W)) : DiscreteGenerator V W :=
  entries.foldl (fun g entry => g.addValue entry.1 entry.2) empty

/-- The machine of draws. -/
def drawing (V : Type*) : Machine (DiscreteGenerator V ℚ) ℚ :=
  ⟨fun g chooser => (g.next chooser).map (·.2)⟩

/-- The sum of all weights. -/
def total (entries : List (V × ℚ)) : ℚ := (entries.map Prod.snd).sum

/-- The share of the `i`-th pair of the interval from 0 to 1. -/
def share (entries : List (V × ℚ)) (i : ℕ) : Set ℚ :=
  Set.Ico (before Prod.snd entries i / total entries)
    (before Prod.snd entries (i + 1) / total entries)

/-- The shares are a partition of the interval from 0 to 1 into intervals as long as the
weights are great, and `Next` returns the value in whose share its random number is. -/
structure Proportional (entries : List (V × ℚ)) (g : DiscreteGenerator V ℚ) : Prop where
  partition : ∀ c : ℚ, 0 ≤ c → c < 1 → ∃! i : Fin entries.length, c ∈ share entries i
  next : ∀ (i : Fin entries.length), ∀ c ∈ share entries i,
    g.next c = some ((entries.get i).1, { g with last := some (entries.get i).1 })
  interval : ∀ i : Fin entries.length, ∃ a, 0 ≤ a ∧
    a + (entries.get i).2 / total entries ≤ 1 ∧
    share entries i = Set.Ico a (a + (entries.get i).2 / total entries)

/-! ## The pairs added -/

theorem values_foldl_addValue [Add W] (entries : List (V × W)) (g : DiscreteGenerator V W) :
    (entries.foldl (fun g entry => g.addValue entry.1 entry.2) g).values =
      g.values ++ entries := by
  induction entries generalizing g with
  | nil => simp
  | cons entry entries ih =>
      rw [List.foldl_cons, ih]
      simp [addValue]

theorem sum_foldl_addValue (entries : List (V × ℚ)) (g : DiscreteGenerator V ℚ) :
    (entries.foldl (fun g entry => g.addValue entry.1 entry.2) g).sum = g.sum + total entries := by
  induction entries generalizing g with
  | nil => simp [total]
  | cons entry entries ih =>
      rw [List.foldl_cons, ih]
      simp [addValue, total, add_assoc]

@[simp] theorem values_ofEntries [Zero W] [Add W] (entries : List (V × W)) :
    (ofEntries entries).values = entries := by
  simpa [empty, ofEntries] using values_foldl_addValue entries empty

@[simp] theorem sum_ofEntries (entries : List (V × ℚ)) :
    (ofEntries entries).sum = total entries := by
  simpa [empty, ofEntries] using sum_foldl_addValue entries empty

/-- Draws change neither the pairs nor their sum. -/
theorem drawing_run {g g' : DiscreteGenerator V ℚ} {draws : List ℚ}
    (hrun : (drawing V).run g draws = some g') : g'.values = g.values ∧ g'.sum = g.sum := by
  refine (drawing V).run_invariant (I := fun g' => g'.values = g.values ∧ g'.sum = g.sum)
    (fun g₁ c g₂ hg₁ hstep => ?_) ⟨rfl, rfl⟩ hrun
  obtain ⟨⟨value, g₃⟩, hnext, rfl⟩ := Option.map_eq_some_iff.mp hstep
  obtain ⟨value', -, heq⟩ := Option.map_eq_some_iff.mp hnext
  cases heq
  exact hg₁

/-! ## The loop -/

/-- The loop stops where the shares so far exceed the random number. -/
theorem pick_of_stop {sum c s : ℚ} {l : List (V × ℚ)} {i : ℕ}
    (hstop : stop (fun entry => entry.2 / sum) (c < ·) s l = some i) :
    ∃ entry, l[i]? = some entry ∧ pick sum (c - s) l = some entry.1 := by
  induction l generalizing s i with
  | nil => cases hstop
  | cons entry rest ih =>
      rw [stop] at hstop
      split at hstop
      · rename_i hlt
        cases hstop
        exact ⟨entry, rfl, by rw [pick, if_pos (by linarith)]⟩
      · rename_i hge
        obtain ⟨i, hrest, rfl⟩ := Option.map_eq_some_iff.mp hstop
        obtain ⟨entry', hentry', hpick⟩ := ih hrest
        refine ⟨entry', by simpa using hentry', ?_⟩
        rw [pick, if_neg (by linarith), ← hpick, sub_sub]

theorem before_div (l : List (V × ℚ)) (sum : ℚ) (i : ℕ) :
    before (fun entry => entry.2 / sum) l i = before Prod.snd l i / sum := by
  induction l generalizing i with
  | nil => simp [before]
  | cons entry rest ih =>
      cases i with
      | zero => simp
      | succ i => rw [before_cons_succ, before_cons_succ, ih, add_div]

/-- The random number is in the share of the pair at which the shares exceed it. -/
theorem isCut_iff {entries : List (V × ℚ)} {c : ℚ} {i : ℕ} (hi : i < entries.length) :
    IsCut (fun entry => entry.2 / total entries) (c < ·) entries i ↔ c ∈ share entries i := by
  rw [share, Set.mem_Ico, ← before_div, ← before_div]
  exact ⟨fun hcut => ⟨not_lt.mp hcut.not_before, hcut.upto⟩,
    fun hmem => ⟨hi, not_lt.mpr hmem.1, hmem.2⟩⟩

section Weights

variable {entries : List (V × ℚ)} (hne : entries ≠ []) (hpos : ∀ entry ∈ entries, 0 < entry.2)

include hne hpos

theorem total_pos : 0 < total entries := by
  refine List.sum_pos _ (fun weight hmem => ?_) (by simpa using hne)
  obtain ⟨entry, hentry, rfl⟩ := List.mem_map.mp hmem
  exact hpos entry hentry

theorem weight_nonneg : ∀ entry ∈ entries, 0 ≤ entry.2 / total entries := fun entry hentry =>
  div_nonneg (hpos entry hentry).le (total_pos hne hpos).le

theorem existsUnique_share {c : ℚ} (hc0 : 0 ≤ c) (hc1 : c < 1) :
    ∃! i : Fin entries.length, c ∈ share entries i := by
  have hwhole : ((entries.map fun entry => entry.2 / total entries).sum : ℚ) = 1 := by
    rw [← before_length, before_div, before_length, ← total,
      div_self (total_pos hne hpos).ne']
  obtain ⟨i, hi⟩ := exists_isCut (fun entry : V × ℚ => entry.2 / total entries) (P := (c < ·))
    (not_lt.mpr hc0) (by rwa [hwhole])
  refine ⟨⟨i, hi.lt⟩, (isCut_iff hi.lt).mp hi, fun j hj => Fin.ext ?_⟩
  exact ((isCut_iff j.isLt).mpr hj).unique (weight_nonneg hne hpos)
    (fun _ _ hle hlt => lt_of_lt_of_le hlt hle) hi

/-- In every state `Next` returns the value in whose share its random number is. -/
theorem next_of_mem_share {g : DiscreteGenerator V ℚ} (hvalues : g.values = entries)
    (hsum : g.sum = total entries) {i : Fin entries.length} {c : ℚ} (hc : c ∈ share entries i) :
    g.next c = some ((entries.get i).1, { g with last := some (entries.get i).1 }) := by
  have hstop := ((isCut_iff i.isLt).mpr hc).stop_eq (weight_nonneg hne hpos)
    fun _ _ hle hlt => lt_of_lt_of_le hlt hle
  obtain ⟨entry, hentry, hpick⟩ := pick_of_stop hstop
  obtain rfl : entries.get i = entry := by simpa using hentry
  rw [next, hvalues, hsum, ← sub_zero c, hpick]
  rfl

theorem share_eq (i : Fin entries.length) : ∃ a, 0 ≤ a ∧
    a + (entries.get i).2 / total entries ≤ 1 ∧
    share entries i = Set.Ico a (a + (entries.get i).2 / total entries) := by
  have htotal := total_pos hne hpos
  have hmono : Monotone (before Prod.snd entries) :=
    before_mono fun entry hentry => (hpos entry hentry).le
  have hend : before Prod.snd entries i / total entries + (entries.get i).2 / total entries =
      before Prod.snd entries (i + 1) / total entries := by
    rw [before_succ _ i.isLt, add_div]
    rfl
  refine ⟨before Prod.snd entries i / total entries, ?_, ?_, ?_⟩
  · exact div_nonneg (by simpa using hmono (Nat.zero_le i)) htotal.le
  · rw [hend, div_le_one htotal, total, ← before_length]
    exact hmono i.isLt
  · rw [hend, share]

/-- In every state that draws lead to, the draws of a value make up an interval as long as
its weight is great. -/
theorem next_proportional {g : DiscreteGenerator V ℚ} {draws : List ℚ}
    (hrun : (drawing V).run (ofEntries entries) draws = some g) : Proportional entries g := by
  obtain ⟨hvalues, hsum⟩ := drawing_run hrun
  rw [values_ofEntries] at hvalues
  rw [sum_ofEntries] at hsum
  exact ⟨fun c hc0 hc1 => existsUnique_share hne hpos hc0 hc1,
    fun i c hc => next_of_mem_share hne hpos hvalues hsum hc, share_eq hne hpos⟩

end Weights

/-- Nineteen reads to one update. -/
def readUpdate : List (Operation × ℚ) := [(.READ, 19), (.UPDATE, 1)]

/-- The theorem after a draw that has chosen a read. -/
theorem next_proportional_readUpdate :
    ∃ g, (drawing Operation).run (ofEntries readUpdate) [1 / 2] = some g ∧
      Proportional readUpdate g := by
  obtain ⟨g, hrun⟩ : ∃ g, (drawing Operation).run (ofEntries readUpdate) [1 / 2] = some g :=
    Option.isSome_iff_exists.mp (by decide +kernel)
  exact ⟨g, hrun, next_proportional (by simp [readUpdate]) (by simp [readUpdate]) hrun⟩

end DiscreteGenerator

/-! ## The operation chooser -/

/-- The proportions of the operations that `Init` reads. -/
structure Proportions (W : Type*) where
  /-- `readproportion`. -/
  read : W
  /-- `updateproportion`. -/
  update : W
  /-- `insertproportion`. -/
  insert : W
  /-- `scanproportion`. -/
  scan : W
  /-- `readmodifywriteproportion`. -/
  readModifyWrite : W

namespace CoreWorkload

open DiscreteGenerator

section OpChooser

variable {W : Type*} [Zero W] [Add W] [LT W] [DecidableLT W]

/-- `AddValue` under the test that `Init` makes. -/
def addOperation (g : DiscreteGenerator Operation W) (op : Operation) (proportion : W) :
    DiscreteGenerator Operation W :=
  if proportion > 0 then g.addValue op proportion else g

/-- `op_chooser_`. -/
def opChooser (p : Proportions W) : DiscreteGenerator Operation W :=
  let g := addOperation .empty .READ p.read
  let g := addOperation g .UPDATE p.update
  let g := addOperation g .INSERT p.insert
  let g := addOperation g .SCAN p.scan
  addOperation g .READMODIFYWRITE p.readModifyWrite

/-- The operations with a positive proportion. -/
def opEntries (p : Proportions W) : List (Operation × W) :=
  [(.READ, p.read), (.UPDATE, p.update), (.INSERT, p.insert), (.SCAN, p.scan),
    (.READMODIFYWRITE, p.readModifyWrite)].filter (0 < ·.2)

theorem foldl_addOperation (entries : List (Operation × W)) (g : DiscreteGenerator Operation W) :
    entries.foldl (fun g entry => addOperation g entry.1 entry.2) g =
      (entries.filter (0 < ·.2)).foldl (fun g entry => g.addValue entry.1 entry.2) g := by
  induction entries generalizing g with
  | nil => rfl
  | cons entry entries ih =>
      rw [List.foldl_cons, ih]
      by_cases hpos : 0 < entry.2
      · simp [addOperation, hpos]
      · simp [addOperation, hpos]

theorem opChooser_eq (p : Proportions W) : opChooser p = ofEntries (opEntries p) :=
  foldl_addOperation [(.READ, p.read), (.UPDATE, p.update), (.INSERT, p.insert), (.SCAN, p.scan),
    (.READMODIFYWRITE, p.readModifyWrite)] .empty

omit [Add W] in
theorem opEntries_ne_nil_iff {p : Proportions W} : opEntries p ≠ [] ↔
    0 < p.read ∨ 0 < p.update ∨ 0 < p.insert ∨ 0 < p.scan ∨ 0 < p.readModifyWrite := by
  rw [opEntries, ne_eq, List.filter_eq_nil_iff]
  simp only [List.forall_mem_cons, decide_eq_true_eq, not_and_or, not_not]
  simp

end OpChooser

/-- The operations of a workload are drawn in proportion, if some proportion is positive. -/
theorem opChooser_proportional {p : Proportions ℚ} (hne : opEntries p ≠ [])
    {g : DiscreteGenerator Operation ℚ} {draws : List ℚ}
    (hrun : (drawing Operation).run (opChooser p) draws = some g) :
    Proportional (opEntries p) g := by
  rw [opChooser_eq] at hrun
  exact next_proportional hne (fun entry hmem => by simpa using (List.mem_filter.mp hmem).2) hrun

/-- Of the defaults, two operations are added. -/
example : opEntries ⟨19 / 20, 1 / 20, 0, 0, 0⟩ = [(.READ, 19 / 20), (.UPDATE, (1 / 20 : ℚ))] := by
  decide +kernel

end CoreWorkload

end YcsbC
