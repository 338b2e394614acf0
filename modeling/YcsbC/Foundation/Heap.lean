import Mathlib.Data.List.Forall2
import Mathlib.Data.List.Perm.Basic
import Mathlib.Data.List.ReduceOption
import Mathlib.Data.List.Nodup

/-!
# Heaps and who owns their blocks

A heap hands out blocks at addresses that it has not handed out before.  A block that
has been freed cannot be read, written or freed again: these fail.  `Owns` is a ledger
that lists each allocated block once.  Whoever keeps it never fails (`Owns.read`,
`Owns.free`), and its length is the number of blocks that are allocated (`Owns.length`).
-/

/-- The blocks by their addresses; a freed one is gone. -/
structure Heap (α : Type*) where
  /-- The blocks. -/
  blocks : List (Option α)

namespace Heap

variable {α : Type*}

/-- No block has been allocated. -/
def empty : Heap α := ⟨[]⟩

/-- What a block holds, if it is allocated. -/
def read (h : Heap α) (a : ℕ) : Option α := (h.blocks[a]?).join

/-- A new block. -/
def alloc (h : Heap α) (x : α) : ℕ × Heap α := (h.blocks.length, ⟨h.blocks ++ [some x]⟩)

/-- An allocated block holds something else. -/
def write (h : Heap α) (a : ℕ) (x : α) : Option (Heap α) :=
  (h.read a).map fun _ => ⟨h.blocks.set a (some x)⟩

/-- An allocated block is freed. -/
def free (h : Heap α) (a : ℕ) : Option (Heap α) :=
  (h.read a).map fun _ => ⟨h.blocks.set a none⟩

/-- What the allocated blocks hold. -/
def contents (h : Heap α) : List α := h.blocks.reduceOption

/-- The number of allocated blocks. -/
def size (h : Heap α) : ℕ := h.contents.length

variable {h h' : Heap α} {a b : ℕ} {x y : α}

/-! ## Reading after a change -/

@[simp] theorem read_empty (a : ℕ) : (empty : Heap α).read a = none := rfl

@[simp] theorem contents_empty : (empty : Heap α).contents = [] := rfl

theorem read_eq_some : h.read a = some x ↔ h.blocks[a]? = some (some x) := by
  rw [read, Option.join_eq_some_iff]

theorem lt_of_read (hread : h.read a = some x) : a < h.blocks.length :=
  (List.getElem?_eq_some_iff.mp (read_eq_some.mp hread)).1

@[simp] theorem read_alloc_fst (h : Heap α) (x : α) : h.read (h.alloc x).1 = none := by
  simp [read, alloc]

@[simp] theorem read_alloc_self (h : Heap α) (x : α) :
    (h.alloc x).2.read (h.alloc x).1 = some x := by
  simp [read, alloc]

theorem read_alloc_ne (hne : b ≠ (h.alloc x).1) : (h.alloc x).2.read b = h.read b := by
  change b ≠ h.blocks.length at hne
  rcases Nat.lt_or_gt_of_ne hne with hlt | hgt
  · rw [read, alloc, List.getElem?_append_left hlt, read]
  · have hold : h.blocks.length ≤ b := by omega
    have hnew : (h.blocks ++ [some x]).length ≤ b := by
      simp
      omega
    simp [read, alloc, List.getElem?_eq_none hold, List.getElem?_eq_none hnew]

/-- An allocated block keeps what it holds when another one is allocated. -/
theorem read_alloc (hread : h.read b = some y) (x : α) : (h.alloc x).2.read b = some y := by
  rw [read_alloc_ne, hread]
  rintro rfl
  rw [read_alloc_fst] at hread
  cases hread

theorem write_eq_some :
    h.write a y = some h' ↔ (∃ x, h.read a = some x) ∧ h' = ⟨h.blocks.set a (some y)⟩ := by
  rw [write, Option.map_eq_some_iff]
  simp [eq_comm]

theorem free_eq_some :
    h.free a = some h' ↔ (∃ x, h.read a = some x) ∧ h' = ⟨h.blocks.set a none⟩ := by
  rw [free, Option.map_eq_some_iff]
  simp [eq_comm]

theorem exists_write (hread : h.read a = some x) (y : α) : ∃ h', h.write a y = some h' :=
  ⟨_, write_eq_some.mpr ⟨⟨x, hread⟩, rfl⟩⟩

theorem exists_free (hread : h.read a = some x) : ∃ h', h.free a = some h' :=
  ⟨_, free_eq_some.mpr ⟨⟨x, hread⟩, rfl⟩⟩

theorem read_set_self {block : Option α} (hread : h.read a = some x) :
    (Heap.mk (h.blocks.set a block)).read a = block := by
  simp [read, lt_of_read hread]

theorem read_set_ne {block : Option α} (hne : b ≠ a) :
    (Heap.mk (h.blocks.set a block)).read b = h.read b := by
  simp [read, Ne.symm hne]

theorem read_write_self (hwrite : h.write a y = some h') : h'.read a = some y := by
  obtain ⟨⟨x, hread⟩, rfl⟩ := write_eq_some.mp hwrite
  exact read_set_self hread

theorem read_write_ne (hwrite : h.write a y = some h') (hne : b ≠ a) : h'.read b = h.read b := by
  obtain ⟨-, rfl⟩ := write_eq_some.mp hwrite
  exact read_set_ne hne

theorem read_free_self (hfree : h.free a = some h') : h'.read a = none := by
  obtain ⟨⟨x, hread⟩, rfl⟩ := free_eq_some.mp hfree
  exact read_set_self hread

theorem read_free_ne (hfree : h.free a = some h') (hne : b ≠ a) : h'.read b = h.read b := by
  obtain ⟨-, rfl⟩ := free_eq_some.mp hfree
  exact read_set_ne hne

/-! ## Contents after a change -/

theorem contents_alloc (h : Heap α) (x : α) : (h.alloc x).2.contents = h.contents ++ [x] := by
  simp [contents, alloc, List.reduceOption_append]

theorem mem_contents : x ∈ h.contents ↔ ∃ a, h.read a = some x := by
  rw [contents, List.reduceOption_mem_iff, List.mem_iff_getElem?]
  simp [read_eq_some]

/-- An allocated block is one of the contents, and a change concerns it alone. -/
theorem contents_split (hread : h.read a = some x) :
    ∃ rest, h.contents.Perm (x :: rest) ∧
      (∀ y, (Heap.mk (h.blocks.set a (some y))).contents.Perm (y :: rest)) ∧
      (Heap.mk (h.blocks.set a none)).contents.Perm rest := by
  obtain ⟨hlt, hget⟩ := List.getElem?_eq_some_iff.mp (read_eq_some.mp hread)
  have hsplit : h.blocks = h.blocks.take a ++ some x :: h.blocks.drop (a + 1) := by
    rw [← hget, List.getElem_cons_drop, List.take_append_drop]
  have hset (block : Option α) :
      h.blocks.set a block = h.blocks.take a ++ block :: h.blocks.drop (a + 1) := by
    rw [List.set_eq_take_append_cons_drop, if_pos hlt]
  refine ⟨(h.blocks.take a).reduceOption ++ (h.blocks.drop (a + 1)).reduceOption, ?_, ?_, ?_⟩
  · rw [contents, hsplit, List.reduceOption_append, List.reduceOption_cons_of_some, ← hsplit]
    exact List.perm_middle
  · intro y
    rw [contents, hset, List.reduceOption_append, List.reduceOption_cons_of_some]
    exact List.perm_middle
  · rw [contents, hset, List.reduceOption_append, List.reduceOption_cons_of_none]

theorem contents_write (hwrite : h.write a y = some h') :
    ∃ x rest, h.read a = some x ∧ h.contents.Perm (x :: rest) ∧ h'.contents.Perm (y :: rest) := by
  obtain ⟨⟨x, hread⟩, rfl⟩ := write_eq_some.mp hwrite
  obtain ⟨rest, hperm, hset, -⟩ := contents_split hread
  exact ⟨x, rest, hread, hperm, hset y⟩

theorem contents_free (hread : h.read a = some x) (hfree : h.free a = some h') :
    h.contents.Perm (x :: h'.contents) := by
  obtain ⟨-, rfl⟩ := free_eq_some.mp hfree
  obtain ⟨rest, hperm, -, hset⟩ := contents_split hread
  exact hperm.trans (hset.symm.cons x)

/-- What is gathered from the contents, when one block holds something else. -/
theorem flatMap_contents_write {β : Type*} (f : α → List β) (hread : h.read a = some x)
    (hwrite : h.write a y = some h') :
    ∃ rest, (h.contents.flatMap f).Perm (f x ++ rest) ∧
      (h'.contents.flatMap f).Perm (f y ++ rest) := by
  obtain ⟨x', rest, hread', hbefore, hafter⟩ := contents_write hwrite
  cases hread.symm.trans hread'
  refine ⟨rest.flatMap f, ?_, ?_⟩
  · simpa using hbefore.flatMap_right f
  · simpa using hafter.flatMap_right f

theorem flatMap_contents_free {β : Type*} (f : α → List β) (hread : h.read a = some x)
    (hfree : h.free a = some h') :
    (h.contents.flatMap f).Perm (f x ++ h'.contents.flatMap f) := by
  simpa using (contents_free hread hfree).flatMap_right f

end Heap

/-! ## Blocks that stand for others -/

namespace Heap

variable {α β : Type*} {R R' : α → β → Prop} {h h' : Heap α} {blocks : List (Option β)} {a : ℕ}
  {x : α} {y : β}

/-- The blocks stand for those of a list, address by address. -/
def Rel (R : α → β → Prop) (h : Heap α) (blocks : List (Option β)) : Prop :=
  List.Forall₂ (Option.Rel R) h.blocks blocks

theorem Rel.length (hrel : h.Rel R blocks) : h.blocks.length = blocks.length :=
  List.Forall₂.length_eq hrel

theorem Rel.read (hrel : h.Rel R blocks) (a : ℕ) :
    Option.Rel R (h.read a) (blocks[a]?).join := by
  obtain ⟨l⟩ := h
  change List.Forall₂ (Option.Rel R) l blocks at hrel
  change Option.Rel R (l[a]?).join (blocks[a]?).join
  induction hrel generalizing a with
  | nil => exact .none
  | cons hhead _ ih =>
      cases a with
      | zero => simpa using hhead
      | succ a => simpa using ih a

/-- A block and the one that it stands for. -/
theorem Rel.exists_right (hrel : h.Rel R blocks) (hread : h.read a = some x) :
    ∃ y, (blocks[a]?).join = some y ∧ R x y := by
  have hrel := hrel.read a
  rw [hread] at hrel
  cases hblock : (blocks[a]?).join with
  | none =>
      rw [hblock] at hrel
      cases hrel
  | some y =>
      rw [hblock] at hrel
      cases hrel with
      | some hxy => exact ⟨y, rfl, hxy⟩

theorem Rel.exists_left (hrel : h.Rel R blocks) (hblock : (blocks[a]?).join = some y) :
    ∃ x, h.read a = some x ∧ R x y := by
  have hrel := hrel.read a
  rw [hblock] at hrel
  cases hread : h.read a with
  | none =>
      rw [hread] at hrel
      cases hrel
  | some x =>
      rw [hread] at hrel
      cases hrel with
      | some hxy => exact ⟨x, rfl, hxy⟩

theorem Rel.alloc (hrel : h.Rel R blocks) (hxy : R x y) :
    (h.alloc x).2.Rel R (blocks ++ [some y]) :=
  List.rel_append hrel (.cons (.some hxy) .nil)

theorem Rel.set (hrel : h.Rel R blocks) (a : ℕ) {block : Option α} {block' : Option β}
    (hblock : Option.Rel R block block') :
    (Heap.mk (h.blocks.set a block)).Rel R (blocks.set a block') := by
  obtain ⟨l⟩ := h
  change List.Forall₂ (Option.Rel R) l blocks at hrel
  change List.Forall₂ (Option.Rel R) (l.set a block) (blocks.set a block')
  induction hrel generalizing a with
  | nil => exact .nil
  | cons hhead htail ih =>
      cases a with
      | zero => exact .cons hblock htail
      | succ a => exact .cons hhead (ih a)

/-- Another relation that holds of what the allocated blocks hold. -/
theorem Rel.imp (hrel : h.Rel R blocks) (himp : ∀ x ∈ h.contents, ∀ y, R x y → R' x y) :
    h.Rel R' blocks := by
  obtain ⟨l⟩ := h
  change List.Forall₂ (Option.Rel R) l blocks at hrel
  change ∀ x ∈ l.reduceOption, _ at himp
  change List.Forall₂ (Option.Rel R') l blocks
  induction hrel with
  | nil => exact .nil
  | cons hhead _ ih =>
      cases hhead with
      | none => exact .cons .none (ih himp)
      | some hxy =>
          rw [List.reduceOption_cons_of_some] at himp
          refine .cons (.some (himp _ List.mem_cons_self _ hxy)) (ih ?_)
          intro x hmem
          exact himp x (List.mem_cons_of_mem _ hmem)

end Heap

/-! ## Ownership -/

/-- The list has each allocated block once. -/
structure Owns {α : Type*} (h : Heap α) (owned : List ℕ) : Prop where
  nodup : owned.Nodup
  mem_iff : ∀ a, a ∈ owned ↔ ∃ x, h.read a = some x

namespace Owns

variable {α : Type*} {h h' : Heap α} {owned owned' : List ℕ} {a : ℕ} {x : α}

theorem empty : Owns (Heap.empty : Heap α) [] := ⟨List.nodup_nil, by simp⟩

theorem perm (hown : Owns h owned) (hperm : owned.Perm owned') : Owns h owned' where
  nodup := hperm.nodup_iff.mp hown.nodup
  mem_iff a := by rw [← hperm.mem_iff, hown.mem_iff]

/-- What is owned can be read. -/
theorem read (hown : Owns h owned) (hmem : a ∈ owned) : ∃ x, h.read a = some x :=
  (hown.mem_iff a).mp hmem

/-- Who allocates a block owns it. -/
theorem alloc (hown : Owns h owned) (x : α) : Owns (h.alloc x).2 ((h.alloc x).1 :: owned) where
  nodup := by
    refine List.nodup_cons.mpr ⟨?_, hown.nodup⟩
    rw [hown.mem_iff]
    simp
  mem_iff b := by
    rw [List.mem_cons, hown.mem_iff]
    by_cases hb : b = (h.alloc x).1
    · subst hb
      simp
    · rw [Heap.read_alloc_ne hb]
      simp [hb]

/-- What is owned can be freed, and is not owned any more. -/
theorem free (hown : Owns h (a :: owned)) : ∃ h', h.free a = some h' ∧ Owns h' owned := by
  obtain ⟨x, hread⟩ := hown.read List.mem_cons_self
  obtain ⟨h', hfree⟩ := Heap.exists_free hread
  obtain ⟨hnot, hnodup⟩ := List.nodup_cons.mp hown.nodup
  refine ⟨h', hfree, hnodup, fun b => ?_⟩
  by_cases hb : b = a
  · subst hb
    rw [Heap.read_free_self hfree]
    simp [hnot]
  · rw [Heap.read_free_ne hfree hb, ← hown.mem_iff]
    simp [hb]

/-- A block that holds something else is owned as before. -/
theorem write (hown : Owns h owned) {y : α} (hwrite : h.write a y = some h') : Owns h' owned where
  nodup := hown.nodup
  mem_iff b := by
    by_cases hb : b = a
    · subst hb
      rw [Heap.read_write_self hwrite, hown.mem_iff]
      obtain ⟨hread, -⟩ := Heap.write_eq_some.mp hwrite
      simp [hread]
    · rw [Heap.read_write_ne hwrite hb, hown.mem_iff]

/-- What is owned holds the contents. -/
theorem contents_perm (hown : Owns h owned) : h.contents.Perm (owned.filterMap h.read) := by
  induction owned generalizing h with
  | nil =>
      have hnone : h.contents = [] := by
        refine List.eq_nil_iff_forall_not_mem.mpr fun x hmem => ?_
        obtain ⟨a, hread⟩ := Heap.mem_contents.mp hmem
        cases (hown.mem_iff a).mpr ⟨x, hread⟩
      rw [hnone]
      exact List.Perm.refl _
  | cons a owned ih =>
      obtain ⟨x, hread⟩ := hown.read List.mem_cons_self
      obtain ⟨h', hfree, hown'⟩ := hown.free
      obtain ⟨hnot, -⟩ := List.nodup_cons.mp hown.nodup
      have hsame : owned.filterMap h'.read = owned.filterMap h.read := by
        refine List.filterMap_congr fun b hmem => Heap.read_free_ne hfree ?_
        rintro rfl
        exact hnot hmem
      rw [List.filterMap_cons_some hread]
      exact (Heap.contents_free hread hfree).trans ((hsame ▸ ih hown').cons x)

/-- The ledger is as long as there are blocks. -/
theorem length (hown : Owns h owned) : owned.length = h.size := by
  rw [Heap.size, hown.contents_perm.length_eq, eq_comm, List.filterMap_length_eq_length]
  intro a hmem
  obtain ⟨x, hread⟩ := hown.read hmem
  simp [hread]

end Owns
