/-!
# Bindings

A finite table from names to values, each name at most once when it is built by
`insert`. Scopes, the fields of an instance and the methods of a class are
bindings.
-/

namespace Treewalk

/-- A table from names to values. -/
structure Bindings (α : Type) where
  entries : List (String × α)
  deriving Repr

namespace Bindings

variable {α : Type}

def empty : Bindings α := ⟨[]⟩

/-- The value of the first entry for `name`. -/
def lookup (name : String) : List (String × α) → Option α
  | [] => none
  | (key, value) :: rest => if key = name then some value else lookup name rest

/-- Replaces the value of the first entry for `name`. -/
def replace (name : String) (value : α) : List (String × α) → List (String × α)
  | [] => []
  | (key, old) :: rest =>
    if key = name then (key, value) :: rest else (key, old) :: replace name value rest

def get? (b : Bindings α) (name : String) : Option α :=
  lookup name b.entries

def contains (b : Bindings α) (name : String) : Bool :=
  (b.get? name).isSome

/-- Binds a name. A name that is new goes to the front, where it is found soonest. -/
def insert (b : Bindings α) (name : String) (value : α) : Bindings α :=
  if b.contains name then ⟨replace name value b.entries⟩ else ⟨(name, value) :: b.entries⟩

@[simp] theorem get?_empty (name : String) : (empty : Bindings α).get? name = none := rfl

theorem lookup_replace (key name : String) (value : α) (entries : List (String × α)) :
    lookup key (replace name value entries) =
      if name = key then (lookup key entries).map fun _ => value else lookup key entries := by
  induction entries with
  | nil => simp [replace, lookup]
  | cons entry rest ih =>
    obtain ⟨k, old⟩ := entry
    by_cases h : k = name
    · subst h
      by_cases hk : k = key <;> simp [replace, lookup, hk]
    · by_cases hk : k = key
      · subst hk
        simp [replace, lookup, h, Ne.symm h]
      · simp [replace, lookup, h, hk, ih]

/-- Inserting changes the value of one name. -/
theorem get?_insert (b : Bindings α) (name key : String) (value : α) :
    (b.insert name value).get? key = if name = key then some value else b.get? key := by
  by_cases hc : b.contains name
  · obtain ⟨old, ho⟩ := Option.isSome_iff_exists.mp hc
    simp only [insert, hc, ↓reduceIte, get?, lookup_replace]
    split
    · rename_i h
      rw [← h, show lookup name b.entries = some old from ho, Option.map_some]
    · rfl
  · simp only [insert, hc, Bool.false_eq_true, ↓reduceIte, get?, lookup]

@[simp] theorem get?_insert_self (b : Bindings α) (name : String) (value : α) :
    (b.insert name value).get? name = some value := by
  simp only [get?_insert, ↓reduceIte]

end Bindings

end Treewalk
