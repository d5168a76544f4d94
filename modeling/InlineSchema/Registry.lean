import InlineSchema.Failure
import InlineSchema.Node.Basic

/-!
# New definitions

A registry holds the definitions that a run has minted, in the order of their names. A name is
reserved, with an empty body, before its body is known, so that nothing inside the body can take
it. A taken name is followed by the least number from 2 on that makes it free.
-/

namespace InlineSchema

namespace Entries

variable {α : Type}

def Sorted (m : Entries α) : Prop := m.Pairwise fun a b => a.1 < b.1

def insertSorted (key : String) (value : α) : Entries α → Entries α
  | [] => [(key, value)]
  | (k, v) :: m =>
    if k < key then (k, v) :: insertSorted key value m
    else if k = key then (key, value) :: m
    else (key, value) :: (k, v) :: m

theorem mem_insertSorted {key : String} {value : α} {m : Entries α} {p : String × α}
    (h : p ∈ insertSorted key value m) : p = (key, value) ∨ p ∈ m := by
  induction m with
  | nil => simpa [insertSorted] using h
  | cons q m ih =>
    simp only [insertSorted] at h
    split at h
    · rcases List.mem_cons.1 h with h | h
      · exact .inr (h ▸ List.mem_cons_self)
      · exact (ih h).imp_right (List.mem_cons_of_mem _)
    · split at h
      · rcases List.mem_cons.1 h with h | h
        · exact .inl h
        · exact .inr (List.mem_cons_of_mem _ h)
      · simpa using h

theorem Sorted.insertSorted {m : Entries α} (h : Sorted m) (key : String) (value : α) :
    Sorted (insertSorted key value m) := by
  induction m with
  | nil => simp [Entries.insertSorted, Sorted]
  | cons q m ih =>
    obtain ⟨hq, hm⟩ := List.pairwise_cons.1 h
    simp only [Entries.insertSorted]
    split
    · next hlt =>
      refine List.pairwise_cons.2 ⟨fun p hp => ?_, ih hm⟩
      rcases mem_insertSorted hp with rfl | hp
      · exact hlt
      · exact hq p hp
    · split
      · next heq =>
        subst heq
        exact List.pairwise_cons.2 ⟨hq, hm⟩
      · next hlt hne =>
        have hle : key < q.1 := by
          rcases Std.le_iff_lt_or_eq.1 (Std.not_lt.1 hlt) with h | h
          · exact h
          · exact absurd h.symm hne
        refine List.pairwise_cons.2 ⟨fun p hp => ?_, h⟩
        rcases List.mem_cons.1 hp with rfl | hp
        · exact hle
        · exact String.lt_trans hle (hq p hp)

/-- A mapping from the entries of a list, sorted; of the entries with one key the last counts. -/
def sort (l : List (String × α)) : Entries α :=
  l.foldl (fun m (k, v) => insertSorted k v m) []

end Entries

structure Registry where
  entries : Entries Node
  sorted : entries.Sorted
deriving Repr

namespace Registry

def empty : Registry := ⟨[], .nil⟩

instance : Inhabited Registry := ⟨empty⟩

def size (r : Registry) : Nat := r.entries.length
def isEmpty (r : Registry) : Bool := r.entries.isEmpty

def names (r : Registry) : List String := Entries.keys r.entries

def get? (r : Registry) (name : String) : Option Node := Entries.get? r.entries name
def contains (r : Registry) (name : String) : Bool := (r.get? name).isSome

/-- Stores the body of a definition. -/
def define (r : Registry) (name : String) (body : Node) : Registry :=
  ⟨Entries.insertSorted name body r.entries, r.sorted.insertSorted name body⟩

/-- The names that follow a taken one: `base2`, `base3` and so on, one for each definition. -/
def suffixed (r : Registry) (base : String) : List String :=
  (List.range r.size).map fun n => base ++ toString (n + 2)

/-- A free name: the base, or the first of its suffixed forms that is free. -/
def uniqueName (r : Registry) (base : String) : String :=
  if r.contains base then ((r.suffixed base).find? (!r.contains ·)).getD base else base

def reserve (r : Registry) (base : String) : String × Registry :=
  let name := r.uniqueName base
  (name, r.define name Node.emptyMapping)

/-! ## Merging -/

def mergedTable (r : Registry) (table : Entries Node) : Entries Node :=
  Entries.sort (table ++ r.entries)

/-- Adds the definitions to the table at `path`. An empty registry changes nothing; otherwise the
table has to be there, and to hold none of the names. Gives the document and the names added. -/
def merge (r : Registry) (path : List String) (doc : Node) : Node × Except Failure (List String) :=
  if r.isEmpty then (doc, .ok [])
  else match (doc.lookup path).bind Node.entries? with
    | none => (doc, .error (.missingTable (".".intercalate path) r.size))
    | some table =>
      match r.names.find? (Entries.contains table) with
      | some name => (doc, .error (.nameCollision name))
      | none =>
        ((doc.modifyAt? (fun _ => .mapping (r.mergedTable table)) path).getD doc, .ok r.names)

end Registry

end InlineSchema
