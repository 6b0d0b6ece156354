/-!
# Finite tables

A table keeps entries in the order in which their keys first arrived.  An
insertion overwrites in place, so undoing it with the entry it displaced gives
back the very same table, not merely one with the same lookups
(`restore_insert`).  Every other fact about a table is about `find?`.
-/

namespace Reckon

/-- Entries under distinct keys, oldest key first. -/
structure Table (κ : Type) (α : Type) where
  /-- The entries, oldest key first. -/
  entries : List (κ × α)
deriving Repr, DecidableEq

namespace Table

variable {κ α : Type} [DecidableEq κ]

/-- The table without entries. -/
def empty : Table κ α := ⟨[]⟩

instance : EmptyCollection (Table κ α) := ⟨empty⟩

instance : Inhabited (Table κ α) := ⟨empty⟩

/-- The entry of a key in a list of entries. -/
def findIn (key : κ) : List (κ × α) → Option α
  | [] => none
  | (k, a) :: rest => if k = key then some a else findIn key rest

/-- Overwrite the entry of a key in place, or append one. -/
def insertIn (key : κ) (value : α) : List (κ × α) → List (κ × α)
  | [] => [(key, value)]
  | (k, a) :: rest =>
    if k = key then (k, value) :: rest else (k, a) :: insertIn key value rest

/-- Drop the entry of a key. -/
def eraseIn (key : κ) : List (κ × α) → List (κ × α)
  | [] => []
  | (k, a) :: rest =>
    if k = key then eraseIn key rest else (k, a) :: eraseIn key rest

/-- The entry of a key. -/
def find? (t : Table κ α) (key : κ) : Option α := findIn key t.entries

/-- Whether a key has an entry. -/
def contains (t : Table κ α) (key : κ) : Bool := (t.find? key).isSome

/-- Overwrite the entry of a key, or add one. -/
def insert (t : Table κ α) (key : κ) (value : α) : Table κ α :=
  ⟨insertIn key value t.entries⟩

/-- Drop the entry of a key. -/
def erase (t : Table κ α) (key : κ) : Table κ α := ⟨eraseIn key t.entries⟩

/-- Put a displaced entry back; `none` means there was no entry. -/
def restore (t : Table κ α) (key : κ) : Option α → Table κ α
  | some value => t.insert key value
  | none => t.erase key

/-- The number of entries. -/
def size (t : Table κ α) : Nat := t.entries.length

/-- The keys, oldest first. -/
def keys (t : Table κ α) : List κ := t.entries.map Prod.fst

-- each law of the walks is an induction on the entries, by what they do at the first one
attribute [local grind =] findIn insertIn eraseIn

@[simp] theorem find?_empty (key : κ) : (empty : Table κ α).find? key = none := rfl

theorem findIn_insertIn (key key' : κ) (value : α) (l : List (κ × α)) :
    findIn key' (insertIn key value l) =
      if key = key' then some value else findIn key' l := by
  induction l with
  | nil => simp [insertIn, findIn]
  | cons entry rest ih => grind

/-- An insertion decides the entry of its key and of no other. -/
theorem find?_insert (t : Table κ α) (key key' : κ) (value : α) :
    (t.insert key value).find? key' =
      if key = key' then some value else t.find? key' :=
  findIn_insertIn key key' value t.entries

theorem findIn_eraseIn (key key' : κ) (l : List (κ × α)) :
    findIn key' (eraseIn key l) = if key = key' then none else findIn key' l := by
  induction l with
  | nil => simp [eraseIn, findIn]
  | cons entry rest ih => grind

/-- After an erasure the key has no entry, and every other key keeps its own. -/
theorem find?_erase (t : Table κ α) (key key' : κ) :
    (t.erase key).find? key' = if key = key' then none else t.find? key' :=
  findIn_eraseIn key key' t.entries

/-- Putting an entry back decides that key and no other. -/
theorem find?_restore (t : Table κ α) (key key' : κ) (previous : Option α) :
    (t.restore key previous).find? key' =
      if key = key' then previous else t.find? key' := by
  cases previous with
  | none => exact find?_erase t key key'
  | some value => exact find?_insert t key key' value

theorem mem_map_fst_of_findIn {key : κ} {l : List (κ × α)} (h : findIn key l ≠ none) :
    key ∈ l.map Prod.fst := by
  induction l with
  | nil => exact absurd rfl h
  | cons entry rest ih => grind

/-- Only a key of the table has an entry. -/
theorem mem_keys_of_find? {t : Table κ α} {key : κ} (h : t.find? key ≠ none) :
    key ∈ t.keys :=
  mem_map_fst_of_findIn h

theorem mem_of_findIn {key : κ} {value : α} {l : List (κ × α)}
    (h : findIn key l = some value) : (key, value) ∈ l := by
  induction l with
  | nil => simp [findIn] at h
  | cons entry rest ih => grind

/-- The entry of a key is one of the entries. -/
theorem mem_entries_of_find? {t : Table κ α} {key : κ} {value : α}
    (h : t.find? key = some value) : (key, value) ∈ t.entries :=
  mem_of_findIn h

theorem eraseIn_insertIn (key : κ) (value : α) (l : List (κ × α))
    (h : findIn key l = none) : eraseIn key (insertIn key value l) = l := by
  induction l with
  | nil => simp [insertIn, eraseIn]
  | cons entry rest ih => grind

theorem insertIn_insertIn (key : κ) (value old : α) (l : List (κ × α))
    (h : findIn key l = some old) : insertIn key old (insertIn key value l) = l := by
  induction l with
  | nil => simp [findIn] at h
  | cons entry rest ih => grind

theorem insertIn_of_findIn {key : κ} {value : α} {l : List (κ × α)}
    (h : findIn key l = some value) : insertIn key value l = l := by
  induction l with
  | nil => simp [findIn] at h
  | cons entry rest ih => grind

/-- Inserting the entry that a key has changes nothing. -/
theorem insert_of_find? {t : Table κ α} {key : κ} {value : α}
    (h : t.find? key = some value) : t.insert key value = t :=
  congrArg Table.mk (insertIn_of_findIn h)

/-- Putting the displaced entry back undoes an insertion exactly. -/
theorem restore_insert (t : Table κ α) (key : κ) (value : α) :
    (t.insert key value).restore key (t.find? key) = t := by
  unfold find?
  cases h : findIn key t.entries with
  | none => simp [restore, erase, insert, eraseIn_insertIn key value t.entries h]
  | some old => simp [restore, insert, insertIn_insertIn key value old t.entries h]

end Table

end Reckon
