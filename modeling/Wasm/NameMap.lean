/-!
# Wasm.NameMap

Finite maps from names. An entry keeps its place when its value is replaced, so the entries come
in the order in which their names were first inserted.
-/

namespace Wasm

/-- A finite map from names. -/
structure NameMap (α : Type u) where
  entries : List (String × α) := []

namespace NameMap

variable {α : Type u}

instance : EmptyCollection (NameMap α) := ⟨⟨[]⟩⟩

instance : Inhabited (NameMap α) := ⟨∅⟩

/-- The value under a name in a list of entries. -/
def findEntry (name : String) : List (String × α) → Option α
  | [] => none
  | e :: es => if e.1 = name then some e.2 else findEntry name es

/-- The value under a name. -/
def get? (m : NameMap α) (name : String) : Option α :=
  findEntry name m.entries

/-- Put a value under a name in a list of entries. -/
def insertEntry (name : String) (a : α) : List (String × α) → List (String × α)
  | [] => [(name, a)]
  | e :: es => if e.1 = name then (name, a) :: es else e :: insertEntry name a es

/-- Put a value under a name, in place of the one that was there. -/
def insert (m : NameMap α) (name : String) (a : α) : NameMap α :=
  ⟨insertEntry name a m.entries⟩

/-- The number of names. -/
def size (m : NameMap α) : Nat := m.entries.length

/-- An order in which one can go through the entries. A map that hashes its names promises none. -/
structure Order (m : NameMap α) where
  entries : List (String × α)
  perm : entries.Perm m.entries

/-- The order of insertion. -/
def Order.inserted {m : NameMap α} : m.Order := ⟨m.entries, .refl _⟩

theorem findEntry_insertEntry (name other : String) (a : α) (es : List (String × α)) :
    findEntry other (insertEntry name a es) =
      if other = name then some a else findEntry other es := by
  induction es with
  | nil => grind [insertEntry, findEntry]
  | cons e es ih => grind [insertEntry, findEntry]

/-- Inserting changes the value under one name only. -/
@[simp]
theorem get?_insert (m : NameMap α) (name other : String) (a : α) :
    (m.insert name a).get? other = if other = name then some a else m.get? other :=
  findEntry_insertEntry name other a m.entries

@[simp]
theorem get?_empty (name : String) : (∅ : NameMap α).get? name = none := rfl

end NameMap

end Wasm
