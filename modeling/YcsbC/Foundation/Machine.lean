import Mathlib.Data.List.Basic

/-!
# Machines and their runs

A machine says what an event does to a state, and that it cannot happen there by
giving no next state.  An interleaving of several parties is a list of events,
each naming the party that moves.

`run` plays a list of events.  Four rules turn facts about one step into facts
about runs: `run_invariant` for a property of states, `run_trace` for a property
of the state and the events so far, `run_invariant_of_along` for a property that
is only kept by the steps that satisfy a condition, and `along_of_invariant` for
a condition that an invariant implies at every step.  `exists_reaches_of_rank` finds a
run to a goal.
-/

/-- What an event does to a state, if it can happen there. -/
structure Machine (σ ε : Type*) where
  /-- The state after an event. -/
  step : σ → ε → Option σ

namespace Machine

variable {σ ε : Type*} (M : Machine σ ε)

/-- The state after a list of events, if each can happen in turn. -/
def run (s : σ) : List ε → Option σ
  | [] => some s
  | e :: es => (M.step s e).bind fun s' => run s' es

/-- Every event of a run satisfies `P` in the state in which it happens. -/
def Along (P : σ → ε → Prop) (s : σ) : List ε → Prop
  | [] => True
  | e :: es => P s e ∧ ∀ s', M.step s e = some s' → Along P s' es

/-- A condition that can be tested can be tested along a run. -/
instance decidableAlong (P : σ → ε → Prop) [∀ s e, Decidable (P s e)] (s : σ) :
    ∀ es : List ε, Decidable (M.Along P s es)
  | [] => isTrue trivial
  | e :: es =>
      let _ : Decidable (∀ s', M.step s e = some s' → M.Along P s' es) :=
        match M.step s e with
        | none => isTrue nofun
        | some s₁ =>
            let _ := decidableAlong P s₁ es
            decidable_of_iff (M.Along P s₁ es)
              ⟨fun h _ hs' => Option.some.inj hs' ▸ h, fun h => h s₁ rfl⟩
      inferInstanceAs (Decidable (P s e ∧ _))

@[simp] theorem run_nil (s : σ) : M.run s [] = some s := rfl

theorem run_cons (s : σ) (e : ε) (es : List ε) :
    M.run s (e :: es) = (M.step s e).bind fun s' => M.run s' es := rfl

theorem run_cons_eq_some {s s'' : σ} {e : ε} {es : List ε} :
    M.run s (e :: es) = some s'' ↔ ∃ s', M.step s e = some s' ∧ M.run s' es = some s'' := by
  rw [run_cons, Option.bind_eq_some_iff]

theorem run_append (s : σ) (es es' : List ε) :
    M.run s (es ++ es') = (M.run s es).bind fun s' => M.run s' es' := by
  induction es generalizing s with
  | nil => rfl
  | cons e es ih =>
      rw [List.cons_append, run_cons, run_cons, Option.bind_assoc]
      exact congrArg _ (funext ih)

theorem run_append_eq_some {s s'' : σ} {es es' : List ε} :
    M.run s (es ++ es') = some s'' ↔ ∃ s', M.run s es = some s' ∧ M.run s' es' = some s'' := by
  rw [run_append, Option.bind_eq_some_iff]

/-- A property of the events so far and the state, kept by every step. -/
theorem run_trace {I : List ε → σ → Prop}
    (hstep : ∀ es s e s', I es s → M.step s e = some s' → I (es ++ [e]) s') {s s' : σ}
    {es : List ε} (hI : I [] s) (hrun : M.run s es = some s') : I es s' := by
  suffices hrest : ∀ before, I before s → I (before ++ es) s' from hrest [] hI
  clear hI
  induction es generalizing s with
  | nil =>
      cases hrun
      intro before hbefore
      rwa [List.append_nil]
  | cons e es ih =>
      intro before hbefore
      obtain ⟨s₁, hs₁, hrun₁⟩ := M.run_cons_eq_some.mp hrun
      have h := ih hrun₁ (before ++ [e]) (hstep before s e s₁ hbefore hs₁)
      rwa [List.append_assoc, List.singleton_append] at h

/-- A property kept by the steps that satisfy `P` holds at the end of a run all of
whose steps do. -/
theorem run_invariant_of_along {I : σ → Prop} {P : σ → ε → Prop}
    (hstep : ∀ s e s', I s → P s e → M.step s e = some s' → I s') {s s' : σ} {es : List ε}
    (hI : I s) (hP : M.Along P s es) (hrun : M.run s es = some s') : I s' := by
  induction es generalizing s with
  | nil =>
      cases hrun
      exact hI
  | cons e es ih =>
      obtain ⟨s₁, hs₁, hrun₁⟩ := M.run_cons_eq_some.mp hrun
      exact ih (hstep s e s₁ hI hP.1 hs₁) (hP.2 s₁ hs₁) hrun₁

/-- A condition that follows from an invariant holds along every run. -/
theorem along_of_invariant {I : σ → Prop} {P : σ → ε → Prop}
    (hstep : ∀ s e s', I s → M.step s e = some s' → I s') (hP : ∀ s e, I s → P s e) {s : σ}
    (hI : I s) (es : List ε) : M.Along P s es := by
  induction es generalizing s with
  | nil => exact trivial
  | cons e es ih => exact ⟨hP s e hI, fun s' hs' => ih (hstep s e s' hI hs')⟩

/-- A property that every step keeps holds at the end of a run. -/
theorem run_invariant {I : σ → Prop}
    (hstep : ∀ s e s', I s → M.step s e = some s' → I s') {s s' : σ} {es : List ε}
    (hI : I s) (hrun : M.run s es = some s') : I s' :=
  M.run_invariant_of_along (P := fun _ _ => True) (fun s e s' hs _ => hstep s e s' hs) hI
    (M.along_of_invariant hstep (fun _ _ _ => trivial) hI es) hrun

/-- Along a run that can be played, `P` holds at each event. -/
theorem along_iff {P : σ → ε → Prop} {s s' : σ} {es : List ε} (hrun : M.run s es = some s') :
    M.Along P s es ↔ ∀ es₁ e es₂ s₁, es = es₁ ++ e :: es₂ → M.run s es₁ = some s₁ → P s₁ e := by
  induction es generalizing s with
  | nil => simp [Along]
  | cons e es ih =>
      obtain ⟨s₁, hs₁, hrun₁⟩ := M.run_cons_eq_some.mp hrun
      constructor
      · rintro ⟨hP, hrest⟩ es₁ e' es₂ s₂ hsplit hrun₂
        cases es₁ with
        | nil =>
            cases hrun₂
            cases hsplit
            exact hP
        | cons e₁ es₁ =>
            cases hsplit
            obtain ⟨s₃, hs₃, hrun₃⟩ := M.run_cons_eq_some.mp hrun₂
            cases hs₁.symm.trans hs₃
            exact (ih hrun₁).mp (hrest s₁ hs₁) es₁ e' es₂ s₂ rfl hrun₃
      · intro h
        refine ⟨h [] e es s rfl rfl, fun s₂ hs₂ => ?_⟩
        cases hs₁.symm.trans hs₂
        refine (ih hrun₁).mpr fun es₁ e' es₂ s₃ hsplit hrun₃ => ?_
        exact h (e :: es₁) e' es₂ s₃ (by rw [hsplit, List.cons_append])
          (M.run_cons_eq_some.mpr ⟨s₁, hs₁, hrun₃⟩)

/-- A condition along a run holds along its second part. -/
theorem along_append {P : σ → ε → Prop} {s s' : σ} {es es' : List ε}
    (hP : M.Along P s (es ++ es')) (hrun : M.run s es = some s') : M.Along P s' es' := by
  induction es generalizing s with
  | nil =>
      cases hrun
      exact hP
  | cons e es ih =>
      obtain ⟨s₁, hs₁, hrun₁⟩ := M.run_cons_eq_some.mp hrun
      exact ih (hP.2 s₁ hs₁) hrun₁

/-- Some events lead from one state to another. -/
def Reaches (s s' : σ) : Prop := ∃ es, M.run s es = some s'

theorem Reaches.refl (s : σ) : M.Reaches s s := ⟨[], rfl⟩

variable {M} in
theorem Reaches.head {s s₁ s' : σ} {e : ε} (hstep : M.step s e = some s₁)
    (hrest : M.Reaches s₁ s') : M.Reaches s s' :=
  hrest.imp' (e :: ·) fun _ hrun => M.run_cons_eq_some.mpr ⟨s₁, hstep, hrun⟩

/-- A property that every step keeps holds in what is reached. -/
theorem Reaches.invariant {M : Machine σ ε} {I : σ → Prop}
    (hstep : ∀ s e s', I s → M.step s e = some s' → I s') {s s' : σ} (hI : I s)
    (hreaches : M.Reaches s s') : I s' := by
  obtain ⟨es, hrun⟩ := hreaches
  exact M.run_invariant hstep hI hrun

/-- A goal is reached if outside it some step keeps an invariant and decreases a rank. -/
theorem exists_reaches_of_rank {I G : σ → Prop} (rank : σ → ℕ)
    (hstep : ∀ s, I s → ¬ G s → ∃ e s', M.step s e = some s' ∧ I s' ∧ rank s' < rank s) {s : σ}
    (hI : I s) : ∃ s', M.Reaches s s' ∧ I s' ∧ G s' := by
  induction hrank : rank s using Nat.strongRecOn generalizing s with
  | _ r ih =>
      by_cases hgoal : G s
      · exact ⟨s, .refl _ s, hI, hgoal⟩
      · obtain ⟨e, s₁, hs₁, hI₁, hlt⟩ := hstep s hI hgoal
        obtain ⟨s', hreaches, hfinal⟩ := ih _ (hrank ▸ hlt) hI₁ rfl
        exact ⟨s', hreaches.head hs₁, hfinal⟩

/-- No event can happen in this state. -/
def Stuck (s : σ) : Prop := ∀ e, M.step s e = none

/-! ## Groups of events as one -/

variable {α : Type*} (events : α → List ε)

/-- The machine whose events are groups of events of `M` that happen without others
in between. -/
def group : Machine σ α := ⟨fun s a => M.run s (events a)⟩

/-- A run of groups is a run of the events in them. -/
theorem run_group (s : σ) (groups : List α) :
    (M.group events).run s groups = M.run s (groups.flatMap events) := by
  induction groups generalizing s with
  | nil => rfl
  | cons a groups ih =>
      rw [List.flatMap_cons, run_append, run_cons]
      exact congrArg _ (funext ih)

end Machine
