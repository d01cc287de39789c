/-
Transcription.Table — a finite table keyed by text that remembers the order
in which its keys first came.

A table is a list of entries. Writing under a key that is already there
changes the value and keeps the place; a new key goes to the end.
-/
import Transcription.Text.Basic

namespace Transcription

/-- Entries in order of first insertion. -/
abbrev Table (α : Type) := List (Text × α)

namespace Table

variable {α : Type}

/-- The value under a key. -/
def get? (table : Table α) (key : Text) : Option α :=
  List.lookup key table

/-- Write a value under a key: in place when the key is there, else last. -/
def insert (key : Text) (value : α) : Table α → Table α
  | [] => [(key, value)]
  | (k, v) :: rest => if k = key then (k, value) :: rest else (k, v) :: insert key value rest

/-- Write a value under a key, last, unless the key is there. -/
def insertIfNew (key : Text) (value : α) (table : Table α) : Table α :=
  match table.get? key with
  | some _ => table
  | none => table ++ [(key, value)]

/-- Write all entries of a list, one after the other. -/
def insertAll (entries : List (Text × α)) (table : Table α) : Table α :=
  entries.foldl (fun acc (key, value) => acc.insert key value) table

/-- The table of a list of entries: each key at its first place with its
last value. -/
def ofEntries (entries : List (Text × α)) : Table α :=
  insertAll entries []

/-- The keys in order of first insertion. -/
def keys (table : Table α) : List Text :=
  table.map Prod.fst

/-- The entries in the order of their keys. -/
def sorted (table : Table α) : Table α :=
  table.mergeSort fun a b => Text.le a.1 b.1

theorem mem_of_get? {table : Table α} {key : Text} {value : α} (h : table.get? key = some value) :
    (key, value) ∈ table := by
  obtain ⟨before, after, rfl, -⟩ := List.lookup_eq_some_iff.1 h
  simp

/-! ## Distinct keys -/

theorem insert_new {key : Text} {value : α} {table : Table α} (h : key ∉ table.keys) :
    table.insert key value = table ++ [(key, value)] := by
  induction table with
  | nil => rfl
  | cons entry rest ih =>
    obtain ⟨k, v⟩ := entry
    simp only [keys, List.map_cons, List.mem_cons, not_or] at h ih
    rw [insert, if_neg (Ne.symm h.1), ih h.2, List.cons_append]

theorem insertAll_new {entries table : Table α} (h : (keys (table ++ entries)).Nodup) :
    insertAll entries table = table ++ entries := by
  induction entries generalizing table with
  | nil => rw [List.append_nil]; rfl
  | cons entry entries ih =>
    obtain ⟨key, value⟩ := entry
    have hkey : key ∉ table.keys := by
      intro hm
      simp only [keys, List.map_append, List.map_cons] at h hm
      exact (List.nodup_append.1 h).2.2 key hm key List.mem_cons_self rfl
    have rest : insertAll entries (table ++ [(key, value)])
        = table ++ [(key, value)] ++ entries :=
      ih (by rw [List.append_assoc]; exact h)
    rw [insertAll, List.foldl_cons]
    dsimp only
    rw [insert_new hkey]
    rw [insertAll] at rest
    rw [rest, List.append_assoc, List.singleton_append]

/-- Entries with distinct keys are a table already. -/
theorem ofEntries_of_nodup {entries : Table α} (h : entries.keys.Nodup) :
    ofEntries entries = entries :=
  @insertAll_new α entries [] h

end Table

end Transcription
