import Mathlib.Data.List.TakeDrop
import YcsbC.Foundation.Machine

/-!
# Moments of a run

The states that a run goes through, each at the number of the events before it.  A party
that looks at one part of the state after the other, while other parties move, sees each
part as it is at some moment (`Looks`).
-/

namespace Machine

variable {σ ε : Type*} (M : Machine σ ε)

/-- The state after so many events of a run. -/
def At (s₀ : σ) (es : List ε) (time : ℕ) (s : σ) : Prop :=
  time ≤ es.length ∧ M.run s₀ (es.take time) = some s

section At

variable {M} {s₀ s s' : σ} {es : List ε} {time : ℕ}

theorem run_concat {e : ε} (hrun : M.run s₀ es = some s) (hstep : M.step s e = some s') :
    M.run s₀ (es ++ [e]) = some s' :=
  M.run_append_eq_some.mpr ⟨s, hrun, M.run_cons_eq_some.mpr ⟨s', hstep, rfl⟩⟩

theorem at_length (hrun : M.run s₀ es = some s) : M.At s₀ es es.length s :=
  ⟨Nat.le_refl _, by rw [List.take_length, hrun]⟩

/-- What was at a moment is not changed by later events. -/
theorem At.append (hat : M.At s₀ es time s) (es' : List ε) : M.At s₀ (es ++ es') time s := by
  obtain ⟨htime, hrun⟩ := hat
  refine ⟨?_, ?_⟩
  · rw [List.length_append]
    omega
  · rw [List.take_append_of_le_length htime, hrun]

/-- The moments of a run with one more event. -/
theorem At.of_concat {e : ε} {s₁ : σ} (hat : M.At s₀ (es ++ [e]) time s₁)
    (hrun : M.run s₀ es = some s) (hstep : M.step s e = some s') :
    M.At s₀ es time s₁ ∨ time = es.length + 1 ∧ s₁ = s' := by
  obtain ⟨htime, htake⟩ := hat
  rw [List.length_append, List.length_singleton] at htime
  rcases Nat.lt_or_ge es.length time with hlt | hle
  · right
    have heq : time = es.length + 1 := by omega
    rw [heq, List.take_of_length_le (by simp), run_concat hrun hstep] at htake
    exact ⟨heq, (Option.some.inj htake).symm⟩
  · rw [List.take_append_of_le_length hle] at htake
    exact Or.inl ⟨hle, htake⟩

/-- The run from a moment to a later one. -/
theorem At.reaches {before : List ε} (hat : M.At s₀ (before ++ es) time s)
    (hrun : M.run s₀ before = some s') (htime : before.length ≤ time) : M.Reaches s' s := by
  obtain ⟨-, htake⟩ := hat
  rw [List.take_append, List.take_of_length_le htime] at htake
  obtain ⟨s₁, hrun₁, hrest⟩ := M.run_append_eq_some.mp htake
  cases hrun.symm.trans hrun₁
  exact ⟨_, hrest⟩

/-- A property of the run and its state that every step keeps. -/
theorem run_history {I : List ε → σ → Prop}
    (hstep : ∀ es s e s', M.run s₀ es = some s → I es s → M.step s e = some s' → I (es ++ [e]) s')
    (hI : I [] s₀) (hrun : M.run s₀ es = some s) : I es s := by
  suffices hboth : M.run s₀ es = some s ∧ I es s from hboth.2
  refine M.run_trace (I := fun es s => M.run s₀ es = some s ∧ I es s) ?_ ⟨rfl, hI⟩ hrun
  rintro es s e s' ⟨hrun, hI⟩ hs'
  exact ⟨run_concat hrun hs', hstep es s e s' hrun hI hs'⟩

end At

/-! ## Looking at parts -/

variable {κ β : Type*}

/-- A look at a part of the state. -/
structure Look (κ β : Type*) where
  /-- How many events are before the one that looks. -/
  time : ℕ
  /-- The part. -/
  part : κ
  /-- What is there. -/
  value : Option β

/-- What a look finds. -/
def Look.found (look : Look κ β) : Option (κ × β) := look.value.map fun value => (look.part, value)

theorem filterMap_found_concat (looks : List (Look κ β)) (look : Look κ β) :
    (looks ++ [look]).filterMap Look.found = looks.filterMap Look.found ++ look.found.toList := by
  rw [List.filterMap_append]
  cases hfound : look.found with
  | none => rw [List.filterMap_cons_none hfound, List.filterMap_nil, Option.toList_none]
  | some pair => rw [List.filterMap_cons_some hfound, List.filterMap_nil, Option.toList_some]

/-- Some parts are looked at one after the other, each by an event of its own after an event
with the number `after`. -/
structure Looks (view : σ → κ → Option β) (s₀ : σ) (es : List ε) (after : ℕ)
    (looks : List (Look κ β)) : Prop where
  inOrder : looks.Pairwise fun look look' => look.time < look'.time
  later : ∀ look ∈ looks, after < look.time ∧ look.time < es.length
  sees : ∀ look ∈ looks, ∃ s, M.At s₀ es look.time s ∧ view s look.part = look.value

section Looks

variable {M} {view : σ → κ → Option β} {s₀ s : σ} {es : List ε} {after : ℕ}
  {looks : List (Look κ β)}

theorem Looks.nil : M.Looks view s₀ es after [] := ⟨.nil, nofun, nofun⟩

theorem Looks.append (hlooks : M.Looks view s₀ es after looks) (es' : List ε) :
    M.Looks view s₀ (es ++ es') after looks := by
  refine ⟨hlooks.inOrder, fun look hmem => ?_, fun look hmem => ?_⟩
  · obtain ⟨hafter, hlt⟩ := hlooks.later look hmem
    rw [List.length_append]
    exact ⟨hafter, Nat.lt_add_right _ hlt⟩
  · obtain ⟨s, hat, hview⟩ := hlooks.sees look hmem
    exact ⟨s, hat.append es', hview⟩

/-- The next event looks at one more part. -/
theorem Looks.look (hlooks : M.Looks view s₀ es after looks) (hrun : M.run s₀ es = some s)
    (hafter : after < es.length) (e : ε) (part : κ) :
    M.Looks view s₀ (es ++ [e]) after (looks ++ [⟨es.length, part, view s part⟩]) := by
  have hold := hlooks.append [e]
  refine ⟨?_, fun look hmem => ?_, fun look hmem => ?_⟩
  · refine List.pairwise_append.mpr ⟨hold.inOrder, List.pairwise_singleton _ _, ?_⟩
    intro look hmem look' hmem'
    rw [List.mem_singleton.mp hmem']
    exact (hlooks.later look hmem).2
  · rcases List.mem_append.mp hmem with hmem | hmem
    · exact hold.later look hmem
    · rw [List.mem_singleton.mp hmem, List.length_append]
      exact ⟨hafter, Nat.lt_succ_self _⟩
  · rcases List.mem_append.mp hmem with hmem | hmem
    · exact hold.sees look hmem
    · rw [List.mem_singleton.mp hmem]
      exact ⟨s, (at_length hrun).append [e], rfl⟩

/-- What is found is of a part that was looked at, and was there at a moment of the run. -/
theorem Looks.of_mem_found (hlooks : M.Looks view s₀ es after looks) {pair : κ × β}
    (hmem : pair ∈ looks.filterMap Look.found) : pair.1 ∈ looks.map Look.part ∧
      ∃ time s, M.At s₀ es time s ∧ view s pair.1 = some pair.2 := by
  obtain ⟨look, hlook, hfound⟩ := List.mem_filterMap.mp hmem
  obtain ⟨value, hvalue, rfl⟩ := Option.map_eq_some_iff.mp hfound
  obtain ⟨s, hat, hview⟩ := hlooks.sees look hlook
  exact ⟨List.mem_map_of_mem hlook, look.time, s, hat, hview.trans hvalue⟩

end Looks

end Machine
