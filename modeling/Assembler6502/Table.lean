/-!
# Tables

A finite map with keys in the order of their first insertion. Inserting at a key that is present
replaces its value in place, so a table never holds a key twice.

## Main definitions

* `Table`: a finite map
* `Table.get?`, `Table.insert`: look-up and insertion

## Main results

* `Table.get?_insert`: what an insertion changes
* `Table.insert_of_get?`: inserting what is there changes nothing
-/

namespace Assembler6502

/-- A finite map, as the list of its entries. -/
structure Table (κ ν : Type) where
  entries : List (κ × ν) := []
  deriving Inhabited

namespace Table

variable {κ ν : Type} [DecidableEq κ]

/-- The value of the first entry with a key. -/
def lookup (key : κ) : List (κ × ν) → Option ν
  | [] => none
  | (k, v) :: rest => if k = key then some v else lookup key rest

/-- Replaces the value of the first entry with a key, or adds an entry at the end. -/
def replace (key : κ) (value : ν) : List (κ × ν) → List (κ × ν)
  | [] => [(key, value)]
  | (k, v) :: rest => if k = key then (k, value) :: rest else (k, v) :: replace key value rest

/-- The value at a key. -/
def get? (t : Table κ ν) (key : κ) : Option ν :=
  lookup key t.entries

def contains (t : Table κ ν) (key : κ) : Bool :=
  (t.get? key).isSome

/-- Gives a key a value. -/
def insert (t : Table κ ν) (key : κ) (value : ν) : Table κ ν :=
  ⟨replace key value t.entries⟩

@[simp] theorem get?_empty (key : κ) : ({} : Table κ ν).get? key = none := rfl

theorem lookup_replace (key key' : κ) (value : ν) (es : List (κ × ν)) :
    lookup key' (replace key value es) = if key = key' then some value else lookup key' es := by
  induction es with
  | nil => simp [replace, lookup]
  | cons e rest ih =>
    obtain ⟨k, v⟩ := e
    by_cases hk : k = key
    · subst hk
      by_cases hk' : k = key' <;> simp [replace, lookup, hk']
    · by_cases hk' : k = key'
      · subst hk'
        simp [replace, lookup, hk, Ne.symm hk]
      · simp [replace, lookup, hk, hk', ih]

/-- An insertion changes the value at its key and no other. -/
@[simp] theorem get?_insert (t : Table κ ν) (key key' : κ) (value : ν) :
    (t.insert key value).get? key' = if key = key' then some value else t.get? key' :=
  lookup_replace key key' value t.entries

theorem replace_of_lookup {key : κ} {value : ν} {es : List (κ × ν)}
    (h : lookup key es = some value) : replace key value es = es := by
  induction es with
  | nil => simp [lookup] at h
  | cons e rest ih =>
    obtain ⟨k, v⟩ := e
    by_cases hk : k = key
    · simp_all [replace, lookup]
    · simp [lookup, hk] at h
      simp [replace, hk, ih h]

/-- Inserting the value that a key has leaves the table as it is. -/
theorem insert_of_get? {t : Table κ ν} {key : κ} {value : ν} (h : t.get? key = some value) :
    t.insert key value = t := by
  show Table.mk (replace key value t.entries) = t
  rw [replace_of_lookup h]

end Table

/-- The entries of a table with names for keys, in the order of the names. -/
def Table.sortedEntries {ν : Type} (t : Table String ν) : List (String × ν) :=
  t.entries.mergeSort fun a b => decide (a.1 ≤ b.1)

end Assembler6502
