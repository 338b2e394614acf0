import YcsbC.Foundation.AssocList
import YcsbC.Lib.HashString

/-!
# The hashtable

`vmp::StlHashtable` is a `std::unordered_map` with `vmp::String` keys, an association
list without repeated keys here.  The order in which the map visits its elements can be
any, and another one after every change, so it is an argument of `Entries`.  A `NULL`
result is `none`.  `LockStlHashtable` does the same under a mutex.

What `Get` finds after an operation is given by one lemma for the key it names and one
for the others.
-/

namespace YcsbC

/-- `vmp::StlHashtable`. -/
structure StlHashtable (V : Type) where
  /-- `table_`. -/
  table : AList (fun _ : HashString => V)

/-- An order in which an unordered map visits its elements. -/
structure IterationOrder where
  /-- The elements in this order. -/
  visit : ∀ {V : Type}, List (Sigma fun _ : HashString => V) → List (Sigma fun _ : HashString => V)
  perm : ∀ {V : Type} (l : List (Sigma fun _ : HashString => V)), (visit l).Perm l

/-- The order of insertion, the latest element first. -/
def IterationOrder.latestFirst : IterationOrder := ⟨id, List.Perm.refl⟩

namespace StlHashtable

variable {V : Type}

/-- The constructor. -/
def empty : StlHashtable V := ⟨∅⟩

/-- `Get`. -/
def get (t : StlHashtable V) (key : Str) : Option V := t.table.lookup (.wrap key)

/-- `Insert`, whose key is not `NULL` here. -/
def insert (t : StlHashtable V) (key : Str) (value : V) : Bool × StlHashtable V :=
  match t.table.lookup (.wrap key) with
  | some _ => (false, t)
  | none => (true, ⟨t.table.insert (.wrap key) value⟩)

/-- `Update`. -/
def update (t : StlHashtable V) (key : Str) (value : V) : Option V × StlHashtable V :=
  match t.table.lookup (.wrap key) with
  | none => (none, t)
  | some old => (some old, ⟨t.table.replace (.wrap key) value⟩)

/-- `Remove`. -/
def remove (t : StlHashtable V) (key : Str) : Option V × StlHashtable V :=
  match t.table.lookup (.wrap key) with
  | none => (none, t)
  | some old => (some old, ⟨t.table.erase (.wrap key)⟩)

/-- `Entries`, from `key` on when it is not `NULL`, at most `n` of them when `n` is not
the default, the greatest `size_t`. -/
def entries (t : StlHashtable V) (order : IterationOrder) (key : Option Str)
    (n : Option UInt64) : List (Str × V) :=
  let visited := order.visit t.table.entries
  let pos := match key with
    | none => visited
    | some key => visited.dropWhile fun pair => !(pair.1.eqv (.wrap key))
  let pairs := pos.map fun pair => (pair.1.value, pair.2)
  match n with
  | none => pairs
  | some n => pairs.take n.toNat

/-- `Size`. -/
def size (t : StlHashtable V) : ℕ := t.table.entries.length

/-! ## `Get` after an operation -/

section Get

variable {t : StlHashtable V} {key key' : Str} {value : V}

@[simp] theorem get_empty (key : Str) : (empty : StlHashtable V).get key = none :=
  AList.lookup_empty _

/-- `Insert` fails exactly when the key is there. -/
theorem insert_fst : (t.insert key value).1 = (t.get key).isNone := by
  rw [insert, get]
  split <;> simp_all

theorem insert_of_get {old : V} (hget : t.get key = some old) : t.insert key value = (false, t) := by
  rw [insert, show t.table.lookup (.wrap key) = some old from hget]

theorem get_insert_self (hget : t.get key = none) :
    (t.insert key value).2.get key = some value := by
  rw [insert, show t.table.lookup (.wrap key) = none from hget]
  exact AList.lookup_insert _

theorem get_insert_ne (hne : HashString.wrap key' ≠ .wrap key) :
    (t.insert key value).2.get key' = t.get key' := by
  rw [insert]
  split
  · rfl
  · exact AList.lookup_insert_ne hne

/-- `Update` returns the old value, if any. -/
theorem update_fst : (t.update key value).1 = t.get key := by
  rw [update, get]
  split <;> simp_all

theorem update_of_get (hget : t.get key = none) : t.update key value = (none, t) := by
  rw [update, show t.table.lookup (.wrap key) = none from hget]

theorem get_update_self {old : V} (hget : t.get key = some old) :
    (t.update key value).2.get key = some value := by
  rw [update, show t.table.lookup (.wrap key) = some old from hget]
  refine AList.lookup_replace_self ?_
  rw [← AList.lookup_isSome, show t.table.lookup (.wrap key) = some old from hget]
  rfl

theorem get_update_ne (hne : HashString.wrap key' ≠ .wrap key) :
    (t.update key value).2.get key' = t.get key' := by
  rw [update]
  split
  · rfl
  · exact AList.lookup_replace_ne hne

/-- `Remove` returns the value, if any. -/
theorem remove_fst : (t.remove key).1 = t.get key := by
  rw [remove, get]
  split <;> simp_all

theorem get_remove_self : (t.remove key).2.get key = none := by
  rw [remove]
  split
  · assumption
  · exact AList.lookup_erase _ _

theorem get_remove_ne (hne : HashString.wrap key' ≠ .wrap key) :
    (t.remove key).2.get key' = t.get key' := by
  rw [remove]
  split
  · rfl
  · exact AList.lookup_erase_ne hne

/-- `Get` sees of its key the text up to the NUL. -/
theorem get_congr (hkey : cStr key = cStr key') : t.get key = t.get key' := by
  rw [get, get, HashString.wrap_eq_wrap_iff.mpr hkey]

/-- An `Insert` that succeeds sets its key. -/
theorem get_insert (hget : t.get key = none) :
    (t.insert key value).2.get key' = if cStr key' = cStr key then some value else t.get key' := by
  split
  · rename_i hkey
    rw [get_congr hkey, get_insert_self hget]
  · rename_i hkey
    exact get_insert_ne fun hwrap => hkey (HashString.wrap_eq_wrap_iff.mp hwrap)

/-- An `Update` that finds its key sets it. -/
theorem get_update {old : V} (hget : t.get key = some old) :
    (t.update key value).2.get key' = if cStr key' = cStr key then some value else t.get key' := by
  split
  · rename_i hkey
    rw [get_congr hkey, get_update_self hget]
  · rename_i hkey
    exact get_update_ne fun hwrap => hkey (HashString.wrap_eq_wrap_iff.mp hwrap)

end Get

/-! ## All entries -/

/-- All entries are the keys with what `Get` finds for them. -/
theorem mem_entries {t : StlHashtable V} {order : IterationOrder} {key : Str} {value : V} :
    (key, value) ∈ t.entries order none none ↔ NulFree key ∧ t.get key = some value := by
  have hperm := order.perm t.table.entries
  simp only [entries, List.mem_map, Prod.mk.injEq]
  constructor
  · rintro ⟨⟨hstr, value'⟩, hmem, rfl, rfl⟩
    rw [AList.mem_perm_entries hperm] at hmem
    refine ⟨hstr.nulFree, ?_⟩
    rw [get, HashString.wrap_value]
    exact hmem
  · rintro ⟨hkey, hget⟩
    exact ⟨⟨.wrap key, value⟩, (AList.mem_perm_entries hperm).mpr hget,
      HashString.value_wrap hkey, rfl⟩

/-- Entries, also from a key on and only some of them, are keys with what `Get` finds. -/
theorem get_of_mem_entries {t : StlHashtable V} {order : IterationOrder} {start : Option Str}
    {n : Option UInt64} {pair : Str × V} (hmem : pair ∈ t.entries order start n) :
    t.get pair.1 = some pair.2 := by
  have hall : pair ∈ t.entries order none none := by
    have hsub : (t.entries order start n).Sublist (t.entries order none none) := by
      cases start with
      | none =>
          cases n with
          | none => exact List.Sublist.refl _
          | some n => exact List.take_sublist _ _
      | some key =>
          have hdrop := (List.dropWhile_sublist (l := order.visit t.table.entries)
            fun pair => !(pair.1.eqv (.wrap key))).map
            fun pair : Sigma fun _ : HashString => V => (pair.1.value, pair.2)
          cases n with
          | none => exact hdrop
          | some n => exact (List.take_sublist _ _).trans hdrop
    exact hsub.subset hmem
  exact (mem_entries.mp hall).2

/-- All entries list each key once. -/
theorem nodup_keys_entries (t : StlHashtable V) (order : IterationOrder) :
    ((t.entries order none none).map Prod.fst).Nodup := by
  have hnodup := AList.nodup_keys_of_perm_entries (order.perm t.table.entries)
  have hkeys : (t.entries order none none).map Prod.fst =
      (order.visit t.table.entries).keys.map HashString.value := by
    rw [entries, List.keys, List.map_map, List.map_map]
    rfl
  rw [hkeys]
  exact hnodup.map fun _ _ => HashString.ext

/-! ## Size -/

theorem size_insert {t : StlHashtable V} {key : Str} {value : V} (hget : t.get key = none) :
    (t.insert key value).2.size = t.size + 1 := by
  have hmem : HashString.wrap key ∉ t.table := AList.lookup_eq_none.mp hget
  rw [insert, show t.table.lookup (.wrap key) = none from hget, size,
    AList.entries_insert_of_notMem hmem, List.length_cons]
  rfl

theorem size_remove {t : StlHashtable V} {key : Str} {value : V} (hget : t.get key = some value) :
    (t.remove key).2.size + 1 = t.size := by
  have hlookup : t.table.lookup (.wrap key) = some value := hget
  have hmem : HashString.wrap key ∈ t.table := by
    rw [← AList.lookup_isSome, hlookup]
    rfl
  have hlen : (t.table.entries.kerase (.wrap key)).length + 1 = t.table.entries.length := by
    obtain ⟨value', before, after, -, hentries, herase⟩ := List.exists_of_kerase (AList.mem_keys.mp hmem)
    rw [herase, hentries, List.length_append, List.length_append, List.length_cons]
    rfl
  rw [remove, hlookup]
  exact hlen

end StlHashtable

end YcsbC
