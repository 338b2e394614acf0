import YcsbC.Core.Utils
import Mathlib.Data.List.Basic

/-!
# The key-value engines

RocksDB and LevelDB are reached through the same few calls: `Put`, `Get`, and an
iterator with `Seek`, `Valid`, `key`, `value` and `Next`.  What is behind them is not
part of the benchmark: `Engine` takes the calls as parameters, and the laws say what
each of them does to the ordered map of strings that the engine stores.  `treeEngine`
satisfies all of them.
-/

namespace YcsbC

/-- The records of an engine: a map from keys to values, ordered by the bytes of the key. -/
abbrev Records := Std.ExtTreeMap Str Str

/-- `Status`. -/
inductive Status where
  | ok
  | notFound
  | error (message : Str)
deriving DecidableEq, Repr

/-- `WriteOptions`. -/
structure WriteOptions where
  /-- `disableWAL`. -/
  disableWAL : Bool := false

/-- The calls of an engine whose states are `σ` and whose iterators are `ι`.  Reading or
moving an iterator that is not valid gives nothing. -/
structure Engine (σ ι : Type) where
  /-- `Put`. -/
  put : WriteOptions → σ → Str → Str → Status × σ
  /-- `Get`, with the value it leaves in its argument. -/
  get : σ → Str → Status × Str
  /-- `NewIterator`. -/
  newIterator : σ → ι
  /-- `Seek`. -/
  seek : ι → Str → ι
  /-- `Valid`. -/
  valid : ι → Bool
  /-- `key`. -/
  key : ι → Option Str
  /-- `value`. -/
  value : ι → Option Str
  /-- `Next`. -/
  next : ι → Option ι

/-- The records from a key on, in key order. -/
def Records.startingAt (records : Records) (key : Str) : List (Str × Str) :=
  records.toList.dropWhile fun record => (compare record.1 key).isLT

namespace Engine

variable {σ ι : Type} (E : Engine σ ι) (records : σ → Records)

/-- `Put` sets the value of one key and succeeds. -/
def Puts : Prop := ∀ options s key value,
  (E.put options s key value).1 = .ok ∧
    records (E.put options s key value).2 = (records s).insert key value

/-- `Get` finds the records of the engine and does not fail. -/
structure Gets : Prop where
  found : ∀ {s key value}, (records s)[key]? = some value → E.get s key = (.ok, value)
  missing : ∀ {s key}, (records s)[key]? = none → (E.get s key).1 = .notFound

/-- An iterator goes through the records in key order.  `ahead` are those it has not
passed yet. -/
structure Iterates (ahead : ι → List (Str × Str)) : Prop where
  seek : ∀ s key, ahead (E.seek (E.newIterator s) key) = (records s).startingAt key
  valid : ∀ it, E.valid it = !(ahead it).isEmpty
  key : ∀ it, E.key it = (ahead it).head?.map Prod.fst
  value : ∀ it, E.value it = (ahead it).head?.map Prod.snd
  next : ∀ {it}, ahead it ≠ [] → ∃ it', E.next it = some it' ∧ ahead it' = (ahead it).tail

section Iterates

variable {E} {records} {ahead : ι → List (Str × Str)} (hiter : E.Iterates records ahead) {it : ι}

include hiter

/-- An iterator that has passed all records is not valid. -/
theorem Iterates.valid_eq_false (hahead : ahead it = []) : E.valid it = false := by
  rw [hiter.valid, hahead]
  rfl

/-- A valid iterator is at the first record ahead of it. -/
theorem Iterates.at_cons {record : Str × Str} {rest : List (Str × Str)}
    (hahead : ahead it = record :: rest) : E.valid it = true ∧ E.key it = some record.1 ∧
      E.value it = some record.2 ∧ ∃ it', E.next it = some it' ∧ ahead it' = rest := by
  rw [hiter.valid, hiter.key, hiter.value, hahead]
  obtain ⟨it', hnext, hrest⟩ := hiter.next (hahead ▸ List.cons_ne_nil record rest)
  rw [hahead] at hrest
  exact ⟨rfl, rfl, rfl, it', hnext, hrest⟩

end Iterates

end Engine

/-- A map in memory.  Its iterator has the records it iterates through and those ahead. -/
def treeEngine : Engine Records (Records × List (Str × Str)) where
  put _ records key value := (.ok, records.insert key value)
  get records key :=
    match records[key]? with
    | some value => (.ok, value)
    | none => (.notFound, [])
  newIterator records := (records, [])
  seek it key := (it.1, it.1.startingAt key)
  valid it := !it.2.isEmpty
  key it := it.2.head?.map Prod.fst
  value it := it.2.head?.map Prod.snd
  next it := match it.2 with
    | [] => none
    | _ :: ahead => some (it.1, ahead)

theorem puts_treeEngine : treeEngine.Puts id := fun _ _ _ _ => ⟨rfl, rfl⟩

theorem gets_treeEngine : treeEngine.Gets id where
  found hvalue := by
    simp only [id] at hvalue
    simp only [treeEngine, hvalue]
  missing hnone := by
    simp only [id] at hnone
    simp only [treeEngine, hnone]

theorem iterates_treeEngine : treeEngine.Iterates id Prod.snd where
  seek _ _ := rfl
  valid _ := rfl
  key _ := rfl
  value _ := rfl
  next := by
    rintro ⟨records, ahead⟩ hne
    cases ahead with
    | nil => exact absurd rfl hne
    | cons record ahead => exact ⟨(records, ahead), rfl, rfl⟩

end YcsbC
