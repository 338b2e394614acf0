import Mathlib.Data.List.Forall2
import YcsbC.Foundation.Heap
import YcsbC.Lib.StlHashtable

/-!
# The hashtable and the memory of its keys

`StlHashtable` once more, now with the memory that it takes: `Insert` copies its key
with `String::Copy`, `Remove` frees the copy with `String::Free`, and `operator==`
follows the pointers of two keys whose hashes agree.  An operation fails (`none`) when
it follows or frees a pointer to memory that has been freed.

`Refines` relates it to `StlHashtable`, values being related by any relation.  Every
operation keeps it; what a search finds is said once, by `find_spec`.
-/

namespace YcsbC

/-- A pointer. -/
abbrev Ptr := ℕ

/-- A `vmp::String` in a table, by its members. -/
structure StringRef where
  /-- `hash_`. -/
  hash : UInt64
  /-- `value_`. -/
  value : Ptr
  /-- `len_`. -/
  len : ℕ

namespace StringRef

/-- `String::Copy`. -/
def copy (keys : Heap Str) (cstr : Str) : StringRef × Heap Str :=
  let str := cStr cstr
  let (value, keys) := keys.alloc str
  (⟨sdbmHash str, value, str.length⟩, keys)

/-- `String::Free`. -/
def free (keys : Heap Str) (hstr : StringRef) : Option (Heap Str) := keys.free hstr.value

/-- `operator==`, of a key in a table and one that is wrapped or has just been copied. -/
def eqv (keys : Heap Str) (a : StringRef) (b : HashString) : Option Bool :=
  if a.hash != b.hash then some false else (keys.read a.value).map fun text => text == b.value

end StringRef

/-- `vmp::StlHashtable`, whose keys are in memory. -/
structure MemHashtable (V : Type) where
  /-- The elements of `table_`. -/
  elements : List (StringRef × V)

/-- The order depends on the keys of the map, not on its values. -/
def IterationOrder.LooksAtKeys (order : IterationOrder) : Prop :=
  ∀ ⦃V W : Type⦄ (f : V → W) (l : List (Sigma fun _ : HashString => V)),
    order.visit (l.map fun pair => (⟨pair.1, f pair.2⟩ : Sigma fun _ : HashString => W)) =
      (order.visit l).map fun pair => ⟨pair.1, f pair.2⟩

theorem IterationOrder.looksAtKeys_latestFirst : IterationOrder.latestFirst.LooksAtKeys :=
  fun _ _ _ _ => rfl

namespace MemHashtable

variable {V W : Type}

/-- The constructor. -/
def empty : MemHashtable V := ⟨[]⟩

/-- `table_.find`.  In which order the map compares the elements of a bucket, and so
which ones it does not get to, is left open: all elements are compared here, and the
search fails if any order would. -/
def find (keys : Heap Str) (key : HashString) : List (StringRef × V) → Option (Option ℕ)
  | [] => some none
  | elem :: elements => do
      let equal ← elem.1.eqv keys key
      let later ← find keys key elements
      some (if equal then some 0 else later.map (· + 1))

/-- `Get`. -/
def get (t : MemHashtable V) (keys : Heap Str) (key : Str) : Option (Option V) := do
  match ← find keys (.wrap key) t.elements with
  | none => some none
  | some pos => (t.elements[pos]?).map fun elem => some elem.2

/-- `Insert`.  The copy of a key that is there already is not freed. -/
def insert (t : MemHashtable V) (keys : Heap Str) (key : Str) (value : V) :
    Option (Bool × Heap Str × MemHashtable V) := do
  let (skey, keys) := StringRef.copy keys key
  match ← find keys (.wrap key) t.elements with
  | none => some (true, keys, ⟨(skey, value) :: t.elements⟩)
  | some _ => some (false, keys, t)

/-- `Update`. -/
def update (t : MemHashtable V) (keys : Heap Str) (key : Str) (value : V) :
    Option (Option V × MemHashtable V) := do
  match ← find keys (.wrap key) t.elements with
  | none => some (none, t)
  | some pos =>
      (t.elements[pos]?).map fun elem => (some elem.2, ⟨t.elements.set pos (elem.1, value)⟩)

/-- `Remove`. -/
def remove (t : MemHashtable V) (keys : Heap Str) (key : Str) :
    Option (Option V × Heap Str × MemHashtable V) := do
  match ← find keys (.wrap key) t.elements with
  | none => some (none, keys, t)
  | some pos => do
      let elem ← t.elements[pos]?
      let keys ← elem.1.free keys
      some (some elem.2, keys, ⟨t.elements.eraseIdx pos⟩)

/-- The elements from the one with this key on. -/
def startAt (keys : Heap Str) (key : HashString) :
    List (StringRef × V) → Option (List (StringRef × V))
  | [] => some []
  | elem :: elements => do
      if ← elem.1.eqv keys key then some (elem :: elements) else startAt keys key elements

/-- The elements in the order of a map that has their texts for its keys. -/
def visited (t : MemHashtable V) (keys : Heap Str) (order : IterationOrder) :
    Option (List (StringRef × V)) := do
  let named ← t.elements.mapM fun elem => (keys.read elem.1.value).map fun text =>
    (⟨.wrap text, elem⟩ : Sigma fun _ : HashString => StringRef × V)
  some ((order.visit named).map Sigma.snd)

/-- `Entries`. -/
def entries (t : MemHashtable V) (keys : Heap Str) (order : IterationOrder) (key : Option Str)
    (n : Option UInt64) : Option (List (Ptr × V)) := do
  let visited ← t.visited keys order
  let pos ← match key with
    | none => some visited
    | some key => startAt keys (.wrap key) visited
  let pairs := pos.map fun elem => (elem.1.value, elem.2)
  match n with
  | none => some pairs
  | some n => some (pairs.take n.toNat)

/-- The pointers to its keys. -/
def keyPtrs (t : MemHashtable V) : List Ptr := t.elements.map fun elem => elem.1.value

/-- Its values. -/
def values (t : MemHashtable V) : List V := t.elements.map Prod.snd

@[simp] theorem keyPtrs_empty : (empty : MemHashtable V).keyPtrs = [] := rfl

@[simp] theorem values_empty : (empty : MemHashtable V).values = [] := rfl

/-! ## Refinement -/

/-- An element in memory stands for one of the association list. -/
structure ElementRel (keys : Heap Str) (R : V → W → Prop) (elem : StringRef × V)
    (entry : Sigma fun _ : HashString => W) : Prop where
  text : keys.read elem.1.value = some entry.1.value
  hash : elem.1.hash = entry.1.hash
  len : elem.1.len = entry.1.len
  value : R elem.2 entry.2

/-- The table stands for `t'`. -/
def Refines (keys : Heap Str) (R : V → W → Prop) (t : MemHashtable V) (t' : StlHashtable W) :
    Prop :=
  List.Forall₂ (ElementRel keys R) t.elements t'.table.entries

variable {keys keys' : Heap Str} {R R' : V → W → Prop} {t : MemHashtable V} {t' : StlHashtable W}
  {elements : List (StringRef × V)} {entries' : List (Sigma fun _ : HashString => W)}

theorem refines_empty : Refines keys R (empty : MemHashtable V) .empty := List.Forall₂.nil

/-- What an element stands for depends on its own memory only. -/
theorem forall₂_imp (hrel : List.Forall₂ (ElementRel keys R) elements entries')
    (hkeys : ∀ elem ∈ elements, ∀ text, keys.read elem.1.value = some text →
      keys'.read elem.1.value = some text)
    (hvalues : ∀ elem ∈ elements, ∀ w, R elem.2 w → R' elem.2 w) :
    List.Forall₂ (ElementRel keys' R') elements entries' := by
  induction hrel with
  | nil => exact .nil
  | @cons elem entry elements entries' hhead _ ih =>
      refine .cons ⟨?_, hhead.hash, hhead.len, ?_⟩ (ih ?_ ?_)
      · exact hkeys elem List.mem_cons_self _ hhead.text
      · exact hvalues elem List.mem_cons_self _ hhead.value
      · intro elem' hmem
        exact hkeys elem' (List.mem_cons_of_mem _ hmem)
      · intro elem' hmem
        exact hvalues elem' (List.mem_cons_of_mem _ hmem)

theorem Refines.imp (href : t.Refines keys R t')
    (hkeys : ∀ ptr ∈ t.keyPtrs, ∀ text, keys.read ptr = some text → keys'.read ptr = some text)
    (hvalues : ∀ v ∈ t.values, ∀ w, R v w → R' v w) : t.Refines keys' R' t' :=
  forall₂_imp href (fun _ hmem => hkeys _ (List.mem_map_of_mem hmem))
    (fun _ hmem => hvalues _ (List.mem_map_of_mem hmem))

/-- A key in a table and one that is looked up are compared as those they stand for. -/
theorem eqv_of_rel {elem : StringRef × V} {entry : Sigma fun _ : HashString => W}
    (hrel : ElementRel keys R elem entry) (key : HashString) :
    elem.1.eqv keys key = some (decide (entry.1 = key)) := by
  have heqv := HashString.eqv_iff (a := entry.1) (b := key)
  rw [HashString.eqv] at heqv
  rw [StringRef.eqv, hrel.hash, hrel.text]
  split
  · rename_i hne
    rw [if_pos hne] at heqv
    simpa using heqv
  · rename_i heq
    rw [if_neg heq] at heqv
    rw [Option.map_some, Option.some_inj, Bool.eq_iff_iff, heqv, decide_eq_true_iff]

theorem find_cons {key : HashString} {elem : StringRef × V} {equal : Bool} {later : Option ℕ}
    (hequal : elem.1.eqv keys key = some equal) (hlater : find keys key elements = some later) :
    find keys key (elem :: elements) =
      some (if equal then some 0 else later.map (· + 1)) := by
  simp [find, hequal, hlater]

/-- What a search has found, and what the table and the association list are after its
element has been changed or taken out. -/
structure Found (keys : Heap Str) (R : V → W → Prop) (elements : List (StringRef × V))
    (entries' : List (Sigma fun _ : HashString => W)) (key : HashString) (pos : ℕ)
    (elem : StringRef × V) (w : W) : Prop where
  finds : find keys key elements = some (some pos)
  getElem : elements[pos]? = some elem
  read : keys.read elem.1.value = some key.value
  rel : R elem.2 w
  lookup : entries'.dlookup key = some w
  set : ∀ v' w', R v' w' → List.Forall₂ (ElementRel keys R) (elements.set pos (elem.1, v'))
    (entries'.kreplace key w')
  erase : List.Forall₂ (ElementRel keys R) (elements.eraseIdx pos) (entries'.kerase key)

/-- A search finds the element of its key, if there is one. -/
theorem find_spec (hrel : List.Forall₂ (ElementRel keys R) elements entries') (key : HashString) :
    (find keys key elements = some none ∧ entries'.dlookup key = none) ∨
      ∃ pos elem w, Found keys R elements entries' key pos elem w := by
  induction hrel with
  | nil => exact Or.inl ⟨rfl, rfl⟩
  | @cons elem entry elements entries' hhead htail ih =>
      have hequal := eqv_of_rel hhead key
      obtain ⟨name, w⟩ := entry
      by_cases hname : name = key
      · subst hname
        obtain ⟨later, hlater⟩ : ∃ later, find keys name elements = some later := by
          rcases ih with ⟨hlater, -⟩ | ⟨pos, _, _, hfound⟩
          · exact ⟨none, hlater⟩
          · exact ⟨some pos, hfound.finds⟩
        refine Or.inr ⟨0, elem, w, ?_, rfl, hhead.text, hhead.value, List.dlookup_cons_eq _ _ _,
          ?_, ?_⟩
        · rw [find_cons hequal hlater]
          simp
        · intro v' w' hvalue
          rw [show List.kreplace name w' (⟨name, w⟩ :: entries') = ⟨name, w'⟩ :: entries' from
            List.lookmap_cons_some _ _ (if_pos rfl)]
          exact .cons ⟨hhead.text, hhead.hash, hhead.len, hvalue⟩ htail
        · rw [show List.kerase name (⟨name, w⟩ :: entries') = entries' from
            List.kerase_cons_eq rfl]
          exact htail
      · have hne : key ≠ name := Ne.symm hname
        rcases ih with ⟨hlater, hlookup⟩ | ⟨pos, elem', w', hfound⟩
        · refine Or.inl ⟨?_, ?_⟩
          · rw [find_cons hequal hlater]
            simp [hname]
          · rw [List.dlookup_cons_ne _ _ hne, hlookup]
        · refine Or.inr ⟨pos + 1, elem', w', ?_, hfound.getElem, hfound.read, hfound.rel, ?_, ?_, ?_⟩
          · rw [find_cons hequal hfound.finds]
            simp [hname]
          · rw [List.dlookup_cons_ne _ _ hne, hfound.lookup]
          · intro v'' w'' hvalue
            rw [show List.kreplace key w'' (⟨name, w⟩ :: entries') =
              ⟨name, w⟩ :: entries'.kreplace key w'' from List.lookmap_cons_none _ _ (if_neg hne)]
            exact .cons hhead (hfound.set v'' w'' hvalue)
          · rw [show List.kerase key (⟨name, w⟩ :: entries') = ⟨name, w⟩ :: entries'.kerase key from
              List.kerase_cons_ne hne]
            exact .cons hhead hfound.erase

/-- The element that a search has found, and the others. -/
theorem Found.perm {key : HashString} {pos : ℕ} {elem : StringRef × V} {w : W}
    (hfound : Found keys R elements entries' key pos elem w) :
    elements.Perm (elem :: elements.eraseIdx pos) ∧
      ∀ elem', (elements.set pos elem').Perm (elem' :: elements.eraseIdx pos) := by
  obtain ⟨hlt, hget⟩ := List.getElem?_eq_some_iff.mp hfound.getElem
  refine ⟨?_, List.set_perm_cons_eraseIdx hlt⟩
  rw [← hget]
  exact (List.getElem_cons_eraseIdx_perm hlt).symm

/-- Changing a value leaves the keys as they are. -/
theorem map_set_getElem {pos : ℕ} (hlt : pos < elements.length) (v : V) :
    (elements.set pos (elements[pos].1, v)).map (fun elem => elem.1.value) =
      elements.map fun elem => elem.1.value := by
  rw [List.map_set]
  exact List.ext_getElem (by simp) (by simp +contextual [List.getElem_set])

/-! ## What the operations do -/

section Operations

variable {key : Str} {v : V} {w : W}

theorem Refines.lookup_none (href : t.Refines keys R t') (hget : t'.get key = none) :
    find keys (.wrap key) t.elements = some none := by
  rcases find_spec href (.wrap key) with ⟨hfind, -⟩ | ⟨pos, elem, w, hfound⟩
  · exact hfind
  · have hlookup : t'.get key = some w := hfound.lookup
    rw [hget] at hlookup
    cases hlookup

theorem Refines.lookup_some (href : t.Refines keys R t') (hget : t'.get key = some w) :
    ∃ pos elem, Found keys R t.elements t'.table.entries (.wrap key) pos elem w := by
  rcases find_spec href (.wrap key) with ⟨-, hlookup⟩ | ⟨pos, elem, w', hfound⟩
  · have hnone : t'.get key = none := hlookup
    rw [hget] at hnone
    cases hnone
  · have hlookup : t'.get key = some w' := hfound.lookup
    rw [hget] at hlookup
    cases hlookup
    exact ⟨pos, elem, hfound⟩

/-- What stands for a value that is found is in the table. -/
theorem Refines.exists_value (href : t.Refines keys R t') (hget : t'.get key = some w) :
    ∃ v ∈ t.values, R v w := by
  obtain ⟨pos, elem, hfound⟩ := href.lookup_some hget
  exact ⟨elem.2, List.mem_map_of_mem (List.mem_of_getElem? hfound.getElem), hfound.rel⟩

/-- Keys with one value, if no value is there twice, have one text. -/
theorem Refines.cStr_eq {key' : Str} (href : t.Refines keys R t') (hnodup : t.values.Nodup)
    (hinj : ∀ {v v' w}, R v w → R v' w → v = v') (hget : t'.get key = some w)
    (hget' : t'.get key' = some w) : cStr key = cStr key' := by
  obtain ⟨pos, elem, hfound⟩ := href.lookup_some hget
  obtain ⟨pos', elem', hfound'⟩ := href.lookup_some hget'
  obtain ⟨hlt, -⟩ := List.getElem?_eq_some_iff.mp hfound.getElem
  have hpos : pos = pos' := by
    refine (List.getElem?_inj (by rwa [values, List.length_map]) hnodup).mp ?_
    rw [values, List.getElem?_map, List.getElem?_map, hfound.getElem, hfound'.getElem,
      Option.map_some, Option.map_some, hinj hfound.rel hfound'.rel]
  subst hpos
  cases hfound.getElem.symm.trans hfound'.getElem
  exact Option.some.inj (hfound.read.symm.trans hfound'.read)

/-- `Get` finds what stands for the value. -/
theorem get_spec (href : t.Refines keys R t') (key : Str) :
    ∃ found, t.get keys key = some found ∧ Option.Rel R found (t'.get key) := by
  cases hget : t'.get key with
  | none =>
      refine ⟨none, ?_, .none⟩
      simp [get, href.lookup_none hget]
  | some w =>
      obtain ⟨pos, elem, hfound⟩ := href.lookup_some hget
      refine ⟨some elem.2, ?_, .some hfound.rel⟩
      simp [get, hfound.finds, hfound.getElem]

/-- The copy of a key is new, and what was in memory stays. -/
theorem Refines.copy (href : t.Refines keys R t') (key : Str) :
    t.Refines (StringRef.copy keys key).2 R t' := by
  refine href.imp ?_ fun _ _ _ hvalue => hvalue
  intro ptr _ text hread
  exact Heap.read_alloc hread _

/-- `Insert` of a key that is not there adds the copy of the key and the value. -/
theorem insert_of_none (href : t.Refines keys R t') (hget : t'.get key = none) (hvalue : R v w) :
    ∃ t₁, t.insert keys key v = some (true, (StringRef.copy keys key).2, t₁) ∧
      t₁.Refines (StringRef.copy keys key).2 R (t'.insert key w).2 ∧
      t₁.keyPtrs = (StringRef.copy keys key).1.value :: t.keyPtrs ∧ t₁.values = v :: t.values := by
  have hcopy := href.copy key
  refine ⟨⟨((StringRef.copy keys key).1, v) :: t.elements⟩, ?_, ?_, rfl, rfl⟩
  · simp [insert, hcopy.lookup_none hget]
  · have hmem : HashString.wrap key ∉ t'.table := AList.lookup_eq_none.mp hget
    rw [Refines, StlHashtable.insert, show t'.table.lookup (.wrap key) = none from hget,
      AList.entries_insert_of_notMem hmem]
    refine .cons ⟨?_, rfl, rfl, hvalue⟩ hcopy
    exact Heap.read_alloc_self keys _

/-- `Insert` of a key that is there leaves a copy that nothing points to. -/
theorem insert_of_some (href : t.Refines keys R t') (hget : t'.get key = some w) (v : V) :
    t.insert keys key v = some (false, (StringRef.copy keys key).2, t) := by
  obtain ⟨pos, elem, hfound⟩ := (href.copy key).lookup_some hget
  simp [insert, hfound.finds]

theorem update_of_none (href : t.Refines keys R t') (hget : t'.get key = none) (v : V) :
    t.update keys key v = some (none, t) := by
  simp [update, href.lookup_none hget]

/-- `Update` of a key that is there exchanges its value. -/
theorem update_of_some {old : W} (href : t.Refines keys R t') (hget : t'.get key = some old)
    (hvalue : R v w) :
    ∃ v₀ t₁ rest, t.update keys key v = some (some v₀, t₁) ∧ R v₀ old ∧
      t₁.Refines keys R (t'.update key w).2 ∧ t₁.keyPtrs = t.keyPtrs ∧
      t.values.Perm (v₀ :: rest) ∧ t₁.values.Perm (v :: rest) := by
  obtain ⟨pos, elem, hfound⟩ := href.lookup_some hget
  obtain ⟨hbefore, hafter⟩ := hfound.perm
  refine ⟨elem.2, ⟨t.elements.set pos (elem.1, v)⟩, (t.elements.eraseIdx pos).map Prod.snd, ?_,
    hfound.rel, ?_, ?_, hbefore.map _, (hafter (elem.1, v)).map _⟩
  · simp [update, hfound.finds, hfound.getElem]
  · rw [Refines, StlHashtable.update, show t'.table.lookup (.wrap key) = some old from hget]
    exact hfound.set v w hvalue
  · obtain ⟨hlt, rfl⟩ := List.getElem?_eq_some_iff.mp hfound.getElem
    exact map_set_getElem hlt v

theorem remove_of_none (href : t.Refines keys R t') (hget : t'.get key = none) :
    t.remove keys key = some (none, keys, t) := by
  simp [remove, href.lookup_none hget]

/-- `Remove` of a key that is there takes its element out and frees the copy of the key. -/
theorem remove_of_some (href : t.Refines keys R t') (hnodup : t.keyPtrs.Nodup)
    (hget : t'.get key = some w) :
    ∃ v₀ ptr keys₁ t₁, t.remove keys key = some (some v₀, keys₁, t₁) ∧ R v₀ w ∧
      t₁.Refines keys₁ R (t'.remove key).2 ∧ keys.free ptr = some keys₁ ∧
      t.keyPtrs.Perm (ptr :: t₁.keyPtrs) ∧ t.values.Perm (v₀ :: t₁.values) := by
  obtain ⟨pos, elem, hfound⟩ := href.lookup_some hget
  obtain ⟨hbefore, -⟩ := hfound.perm
  set t₁ : MemHashtable V := ⟨t.elements.eraseIdx pos⟩ with ht₁
  have hkeys : t.keyPtrs.Perm (elem.1.value :: t₁.keyPtrs) := hbefore.map _
  obtain ⟨hnot, -⟩ := List.nodup_cons.mp (hkeys.nodup_iff.mp hnodup)
  obtain ⟨keys₁, hfree⟩ := Heap.exists_free hfound.read
  refine ⟨elem.2, elem.1.value, keys₁, t₁, ?_, hfound.rel, ?_, hfree, hkeys, hbefore.map _⟩
  · simp [remove, hfound.finds, hfound.getElem, StringRef.free, hfree, ht₁]
  · rw [StlHashtable.remove, show t'.table.lookup (.wrap key) = some w from hget]
    have href₁ : t₁.Refines keys R ⟨t'.table.erase (.wrap key)⟩ := hfound.erase
    refine href₁.imp ?_ fun _ _ _ hvalue => hvalue
    intro ptr hmem text' hread'
    rw [Heap.read_free_ne hfree, hread']
    rintro rfl
    exact hnot hmem

end Operations

/-! ## What is in a table after an operation and before -/

section Contents

variable {key : Str} {v : V} {t₁ : MemHashtable V}

/-- What `Get` finds is in the table. -/
theorem mem_of_get (hget : t.get keys key = some (some v)) : v ∈ t.values := by
  simp only [get, Option.bind_eq_bind, Option.bind_eq_some_iff] at hget
  obtain ⟨pos, -, hpos⟩ := hget
  cases pos with
  | none => cases hpos
  | some pos =>
      obtain ⟨elem, helem, hsome⟩ := Option.map_eq_some_iff.mp hpos
      cases hsome
      exact List.mem_map_of_mem (List.mem_of_getElem? helem)

/-- `Insert` takes nothing out. -/
theorem subset_insert {ok : Bool} (hinsert : t.insert keys key v = some (ok, keys', t₁)) :
    t.keyPtrs ⊆ t₁.keyPtrs ∧ t.values ⊆ t₁.values := by
  simp only [insert, Option.bind_eq_bind, Option.bind_eq_some_iff] at hinsert
  obtain ⟨pos, -, hpos⟩ := hinsert
  cases pos with
  | none =>
      cases hpos
      exact ⟨List.subset_cons_self _ _, List.subset_cons_self _ _⟩
  | some pos =>
      cases hpos
      exact ⟨List.Subset.refl _, List.Subset.refl _⟩

/-- `Update` leaves the keys as they are. -/
theorem keyPtrs_update {old : Option V} (hupdate : t.update keys key v = some (old, t₁)) :
    t₁.keyPtrs = t.keyPtrs := by
  simp only [update, Option.bind_eq_bind, Option.bind_eq_some_iff] at hupdate
  obtain ⟨pos, -, hpos⟩ := hupdate
  cases pos with
  | none =>
      cases hpos
      rfl
  | some pos =>
      obtain ⟨elem, helem, hsome⟩ := Option.map_eq_some_iff.mp hpos
      cases hsome
      obtain ⟨hlt, rfl⟩ := List.getElem?_eq_some_iff.mp helem
      exact map_set_getElem hlt v

end Contents

/-! ## Entries -/

section Entries

variable {order : IterationOrder}

/-- Elements with the text of their keys, next to the elements that they stand for. -/
theorem exists_paired (hrel : List.Forall₂ (ElementRel keys R) elements entries') :
    ∃ paired : List (Sigma fun _ : HashString => (StringRef × V) × W),
      (elements.mapM fun elem => (keys.read elem.1.value).map fun text =>
        (⟨.wrap text, elem⟩ : Sigma fun _ : HashString => StringRef × V)) =
          some (paired.map fun pair => ⟨pair.1, pair.2.1⟩) ∧
      entries' = (paired.map fun pair => ⟨pair.1, pair.2.2⟩) ∧
      ∀ pair ∈ paired, ElementRel keys R pair.2.1 ⟨pair.1, pair.2.2⟩ := by
  induction hrel with
  | nil => exact ⟨[], rfl, rfl, by simp⟩
  | @cons elem entry elements entries' hhead _ ih =>
      obtain ⟨paired, hnamed, rfl, hpaired⟩ := ih
      refine ⟨⟨entry.1, elem, entry.2⟩ :: paired, ?_, rfl, ?_⟩
      · rw [List.mapM_cons, hhead.text, hnamed]
        simp
      · intro pair hmem
        rcases List.mem_cons.mp hmem with rfl | hmem
        · exact hhead
        · exact hpaired pair hmem

/-- The elements are visited as those they stand for. -/
theorem visited_spec (href : t.Refines keys R t') (horder : order.LooksAtKeys) :
    ∃ visited, t.visited keys order = some visited ∧
      List.Forall₂ (ElementRel keys R) visited (order.visit t'.table.entries) := by
  obtain ⟨paired, hnamed, hentries, hpaired⟩ := exists_paired href
  refine ⟨(order.visit paired).map fun pair => pair.2.1, ?_, ?_⟩
  · rw [visited, hnamed]
    simp [horder (fun pair : (StringRef × V) × W => pair.1) paired]
  · rw [hentries, horder (fun pair : (StringRef × V) × W => pair.2) paired,
      List.forall₂_map_left_iff, List.forall₂_map_right_iff, List.forall₂_same]
    intro pair hmem
    exact hpaired pair ((order.perm paired).subset hmem)

theorem startAt_spec (hrel : List.Forall₂ (ElementRel keys R) elements entries')
    (key : HashString) :
    ∃ rest, startAt keys key elements = some rest ∧
      List.Forall₂ (ElementRel keys R) rest (entries'.dropWhile fun pair => !(pair.1.eqv key)) := by
  induction hrel with
  | nil => exact ⟨[], rfl, .nil⟩
  | @cons elem entry elements entries' hhead htail ih =>
      have hequal := eqv_of_rel hhead key
      by_cases hname : entry.1 = key
      · refine ⟨elem :: elements, ?_, ?_⟩
        · simp [startAt, hequal, hname]
        · rw [List.dropWhile_cons_of_neg (by simp [HashString.eqv_iff.mpr hname])]
          exact .cons hhead htail
      · obtain ⟨rest, hrest, hstands⟩ := ih
        have heqv : entry.1.eqv key = false := by
          rw [Bool.eq_false_iff, ne_eq, HashString.eqv_iff]
          exact hname
        refine ⟨rest, ?_, ?_⟩
        · simp [startAt, hequal, hname, hrest]
        · rw [List.dropWhile_cons_of_pos (by simp [heqv])]
          exact hstands

/-- A pointer to a key and a value stand for a listed pair. -/
def PairRel (keys : Heap Str) (R : V → W → Prop) (pair : Ptr × V) (pair' : Str × W) : Prop :=
  keys.read pair.1 = some pair'.1 ∧ R pair.2 pair'.2

theorem pairs_of_rel (hrel : List.Forall₂ (ElementRel keys R) elements entries') :
    List.Forall₂ (PairRel keys R) (elements.map fun elem => (elem.1.value, elem.2))
      (entries'.map fun pair => (pair.1.value, pair.2)) := by
  induction hrel with
  | nil => exact .nil
  | cons hhead _ ih => exact .cons ⟨hhead.text, hhead.value⟩ ih

/-- `Entries` lists pointers to what `Entries` of the association list lists. -/
theorem entries_spec (href : t.Refines keys R t') (horder : order.LooksAtKeys)
    (key : Option Str) (n : Option UInt64) :
    ∃ pairs, t.entries keys order key n = some pairs ∧
      List.Forall₂ (PairRel keys R) pairs (t'.entries order key n) := by
  obtain ⟨visited, hvisited, hrel⟩ := visited_spec href horder
  rw [entries, hvisited]
  cases key with
  | none =>
      cases n with
      | none => exact ⟨_, rfl, pairs_of_rel hrel⟩
      | some n => exact ⟨_, rfl, List.forall₂_take n.toNat (pairs_of_rel hrel)⟩
  | some key =>
      obtain ⟨pos, hpos, hrel⟩ := startAt_spec hrel (.wrap key)
      simp only [Option.bind_eq_bind, Option.bind_some, hpos]
      cases n with
      | none => exact ⟨_, rfl, pairs_of_rel hrel⟩
      | some n => exact ⟨_, rfl, List.forall₂_take n.toNat (pairs_of_rel hrel)⟩

/-- Naming the elements leaves them as they are. -/
theorem map_named {named : List (Sigma fun _ : HashString => StringRef × V)}
    (hnamed : (elements.mapM fun elem => (keys.read elem.1.value).map fun text =>
      (⟨.wrap text, elem⟩ : Sigma fun _ : HashString => StringRef × V)) = some named) :
    named.map Sigma.snd = elements := by
  induction elements generalizing named with
  | nil =>
      rw [List.mapM_nil] at hnamed
      cases hnamed
      rfl
  | cons elem elements ih =>
      rw [List.mapM_cons] at hnamed
      simp only [Option.bind_eq_bind, Option.bind_eq_some_iff, Option.map_eq_some_iff] at hnamed
      obtain ⟨_, ⟨text, -, rfl⟩, rest, hrest, hcons⟩ := hnamed
      cases hcons
      rw [List.map_cons, ih hrest]

/-- All entries list every element once. -/
theorem entries_perm {pairs : List (Ptr × V)}
    (hentries : t.entries keys order none none = some pairs) :
    pairs.Perm (t.elements.map fun elem => (elem.1.value, elem.2)) := by
  simp only [entries, visited, Option.bind_eq_bind, Option.bind_eq_some_iff] at hentries
  obtain ⟨_, ⟨named, hnamed, hvisited⟩, _, hpos, hpairs⟩ := hentries
  cases hvisited
  cases hpos
  cases hpairs
  rw [← map_named hnamed, List.map_map, List.map_map]
  exact (order.perm named).map _

theorem entries_perm_values {pairs : List (Ptr × V)}
    (hentries : t.entries keys order none none = some pairs) :
    (pairs.map Prod.snd).Perm t.values := by
  have hperm := (entries_perm hentries).map Prod.snd
  rw [List.map_map] at hperm
  exact hperm

theorem startAt_subset {key : HashString} {rest : List (StringRef × V)}
    (hstart : startAt keys key elements = some rest) : rest ⊆ elements := by
  induction elements with
  | nil =>
      cases hstart
      exact List.Subset.refl _
  | cons elem elements ih =>
      simp only [startAt, Option.bind_eq_bind, Option.bind_eq_some_iff] at hstart
      obtain ⟨equal, -, hrest⟩ := hstart
      cases equal with
      | true =>
          cases hrest
          exact List.Subset.refl _
      | false => exact List.subset_cons_of_subset _ (ih hrest)

theorem visited_subset {visited : List (StringRef × V)}
    (hvisited : t.visited keys order = some visited) : visited ⊆ t.elements := by
  rw [MemHashtable.visited, Option.bind_eq_bind, Option.bind_eq_some_iff] at hvisited
  obtain ⟨named, hnamed, hvisited⟩ := hvisited
  cases hvisited
  rw [← map_named hnamed]
  exact ((order.perm named).map _).subset

/-- Entries are pointers to keys of the table and its values. -/
theorem mem_of_entries {key : Option Str} {n : Option UInt64} {pairs : List (Ptr × V)}
    (hentries : t.entries keys order key n = some pairs) {pair : Ptr × V}
    (hmem : pair ∈ pairs) : pair.1 ∈ t.keyPtrs ∧ pair.2 ∈ t.values := by
  rw [entries, Option.bind_eq_bind, Option.bind_eq_some_iff] at hentries
  obtain ⟨visited, hvisited, hentries⟩ := hentries
  have hpos : ∃ pos, pos ⊆ visited ∧ pair ∈ pos.map fun elem => (elem.1.value, elem.2) := by
    cases key with
    | none =>
        refine ⟨visited, List.Subset.refl _, ?_⟩
        cases n with
        | none => exact Option.some.inj hentries ▸ hmem
        | some n => exact List.mem_of_mem_take (Option.some.inj hentries ▸ hmem)
    | some key =>
        rw [Option.bind_eq_some_iff] at hentries
        obtain ⟨pos, hstart, hentries⟩ := hentries
        refine ⟨pos, startAt_subset hstart, ?_⟩
        cases n with
        | none => exact Option.some.inj hentries ▸ hmem
        | some n => exact List.mem_of_mem_take (Option.some.inj hentries ▸ hmem)
  obtain ⟨pos, hsubset, hmem⟩ := hpos
  obtain ⟨elem, helem, rfl⟩ := List.mem_map.mp hmem
  have helem := visited_subset hvisited (hsubset helem)
  exact ⟨List.mem_map_of_mem helem, List.mem_map_of_mem helem⟩

end Entries

end MemHashtable

end YcsbC
