import Mathlib.Data.List.Count
import Mathlib.Data.List.Nodup
import Mathlib.Logic.Function.Basic

/-!
# Custody of tickets

A dispenser issues tickets that are all different.  A holder takes one at a time and
hands it in later.  In every state each ticket issued is either handed in, once, or in
the hands of one holder (`Custody.once`).
-/

variable {ι α : Type*}

/-- The tickets `issued` so far, those that have been handed in, and those in the hands
of their holders. -/
structure Custody (held : ι → Option α) (issued handedIn : List α) : Prop where
  nodup_issued : issued.Nodup
  nodup_handedIn : handedIn.Nodup
  issued_of_handedIn : ∀ a ∈ handedIn, a ∈ issued
  issued_of_held : ∀ {i a}, held i = some a → a ∈ issued
  notMem_of_held : ∀ {i a}, held i = some a → a ∉ handedIn
  holder_unique : ∀ {i j a}, held i = some a → held j = some a → i = j
  accounted : ∀ a ∈ issued, a ∈ handedIn ∨ ∃ i, held i = some a

namespace Custody

variable {held : ι → Option α} {issued handedIn : List α}

theorem start : Custody (fun _ : ι => (none : Option α)) [] [] where
  nodup_issued := List.nodup_nil
  nodup_handedIn := List.nodup_nil
  issued_of_handedIn _ membership := membership
  issued_of_held := nofun
  notMem_of_held := nofun
  holder_unique := nofun
  accounted _ membership := Or.inl membership

variable [DecidableEq ι] (h : Custody held issued handedIn) {i : ι} {a : α}

include h

/-- A holder without a ticket takes a new one. -/
theorem issue (hfree : held i = none) (hnew : a ∉ issued) :
    Custody (Function.update held i (some a)) (issued ++ [a]) handedIn := by
  have old : ∀ {j b}, Function.update held i (some a) j = some b →
      j = i ∧ b = a ∨ j ≠ i ∧ held j = some b := by
    intro j b hj
    by_cases same : j = i
    · subst same
      rw [Function.update_self] at hj
      exact Or.inl ⟨rfl, (Option.some.inj hj).symm⟩
    · rw [Function.update_of_ne same] at hj
      exact Or.inr ⟨same, hj⟩
  constructor
  · simp [List.nodup_append, h.nodup_issued]
    rintro b hb rfl
    exact hnew hb
  · exact h.nodup_handedIn
  · intro b hb
    exact List.mem_append_left _ (h.issued_of_handedIn b hb)
  · intro j b hj
    rcases old hj with ⟨-, rfl⟩ | ⟨-, hb⟩
    · simp
    · exact List.mem_append_left _ (h.issued_of_held hb)
  · intro j b hj hb
    rcases old hj with ⟨-, rfl⟩ | ⟨-, hheld⟩
    · exact hnew (h.issued_of_handedIn b hb)
    · exact h.notMem_of_held hheld hb
  · intro j k b hj hk
    rcases old hj with ⟨rfl, rfl⟩ | ⟨-, hj'⟩
    · rcases old hk with ⟨rfl, -⟩ | ⟨-, hk'⟩
      · rfl
      · exact absurd (h.issued_of_held hk') hnew
    · rcases old hk with ⟨-, rfl⟩ | ⟨-, hk'⟩
      · exact absurd (h.issued_of_held hj') hnew
      · exact h.holder_unique hj' hk'
  · intro b hb
    rcases List.mem_append.mp hb with hold | hb
    · refine (h.accounted b hold).imp_right fun ⟨j, hj⟩ => ⟨j, ?_⟩
      rw [Function.update_of_ne (by rintro rfl; simp [hfree] at hj)]
      exact hj
    · rw [List.mem_singleton.mp hb]
      exact Or.inr ⟨i, Function.update_self ..⟩

/-- A holder hands in its ticket. -/
theorem handIn (hheld : held i = some a) :
    Custody (Function.update held i none) issued (handedIn ++ [a]) := by
  have old : ∀ {j b}, Function.update held i none j = some b → held j = some b ∧ b ≠ a := by
    intro j b hj
    by_cases same : j = i
    · simp [same] at hj
    · rw [Function.update_of_ne same] at hj
      refine ⟨hj, ?_⟩
      rintro rfl
      exact same (h.holder_unique hj hheld)
  constructor
  · exact h.nodup_issued
  · simp [List.nodup_append, h.nodup_handedIn]
    rintro b hb rfl
    exact h.notMem_of_held hheld hb
  · intro b hb
    rcases List.mem_append.mp hb with hold | hb
    · exact h.issued_of_handedIn b hold
    · rw [List.mem_singleton.mp hb]
      exact h.issued_of_held hheld
  · intro j b hj
    exact h.issued_of_held (old hj).1
  · intro j b hj
    simp [h.notMem_of_held (old hj).1, (old hj).2]
  · intro j k b hj hk
    exact h.holder_unique (old hj).1 (old hk).1
  · intro b hb
    rcases h.accounted b hb with hin | ⟨j, hj⟩
    · exact Or.inl (List.mem_append_left _ hin)
    · by_cases same : j = i
      · subst same
        rw [hheld] at hj
        simp [Option.some.inj hj]
      · exact Or.inr ⟨j, by rw [Function.update_of_ne same]; exact hj⟩

omit [DecidableEq ι] in
/-- A ticket is handed in once and held by nobody, or not handed in and held by one. -/
theorem once [DecidableEq α] (hissued : a ∈ issued) :
    handedIn.count a = 1 ∧ (∀ i, held i ≠ some a) ∨
      handedIn.count a = 0 ∧ ∃! i, held i = some a := by
  rcases h.accounted a hissued with hin | ⟨i, hi⟩
  · refine Or.inl ⟨List.count_eq_one_of_mem h.nodup_handedIn hin, ?_⟩
    intro i hi
    exact h.notMem_of_held hi hin
  · refine Or.inr ⟨List.count_eq_zero_of_not_mem (h.notMem_of_held hi), i, hi, ?_⟩
    intro j hj
    exact h.holder_unique hj hi

end Custody
