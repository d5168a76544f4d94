/-!
# Ordered mappings

The entries of a mapping from text, in the order of the document. A key stands at most once; every
operation here keeps that, and a new key goes last.
-/

namespace InlineSchema

abbrev Entries (α : Type) := List (String × α)

namespace Entries

variable {α : Type}

def keys (m : Entries α) : List String := m.map Prod.fst

def get? (m : Entries α) (key : String) : Option α := m.lookup key

def contains (m : Entries α) (key : String) : Bool := (get? m key).isSome

def modify (key : String) (f : α → α) : Entries α → Entries α
  | [] => []
  | (k, v) :: m => if key == k then (k, f v) :: m else (k, v) :: modify key f m

/-- Puts a value under a key: in place, or as the last entry. -/
def insert (key : String) (value : α) : Entries α → Entries α
  | [] => [(key, value)]
  | (k, v) :: m => if key == k then (k, value) :: m else (k, v) :: insert key value m

def erase (key : String) (m : Entries α) : Entries α := m.filter fun (k, _) => key != k

/-- Of the entries with one key, the first gives the place and the last the value. -/
def ofList (l : List (String × α)) : Entries α :=
  l.foldl (fun m (k, v) => insert k v m) []

end Entries

end InlineSchema
