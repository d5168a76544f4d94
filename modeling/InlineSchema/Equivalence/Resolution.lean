import InlineSchema.Json.Value
import InlineSchema.Options

/-!
# Resolving references

A reference to a definition is replaced by the definition, and what stands beside the reference
takes precedence over it. Definitions may refer back to themselves: a definition that is being
expanded is not expanded again inside its own expansion, so that each nested expansion leaves one
definition less to expand.
-/

namespace InlineSchema.Equivalence

def unvisited (table : Entries Json) (visited : List String) : Nat :=
  table.countP fun (name, _) => !visited.contains name

theorem unvisited_cons_le (table : Entries Json) (visited : List String) (name : String) :
    unvisited table (name :: visited) ≤ unvisited table visited :=
  List.countP_mono_left fun p _ h => by
    simp only [List.contains_cons, Bool.not_or, Bool.and_eq_true] at h
    exact h.2

theorem unvisited_cons_lt {table : Entries Json} {visited : List String} {name : String}
    {body : Json} (hv : visited.contains name = false) (ht : Entries.get? table name = some body) :
    unvisited table (name :: visited) < unvisited table visited := by
  induction table with
  | nil => simp [Entries.get?] at ht
  | cons p m ih =>
    by_cases hp : name = p.1
    · have hle := unvisited_cons_le m visited name
      subst hp
      simp only [unvisited, List.countP_cons, List.contains_cons, BEq.rfl, hv] at hle ⊢
      simpa using Nat.lt_succ_of_le hle
    · have hne : (p.1 == name) = false := by simpa using Ne.symm hp
      have ht : Entries.get? m name = some body := by
        have hne' : (name == p.1) = false := by simpa using hp
        obtain ⟨k, v⟩ := p
        simpa only [Entries.get?, List.lookup_cons, hne'] using ht
      simp only [unvisited, List.countP_cons, List.contains_cons, hne, Bool.false_or] at ih ⊢
      exact Nat.add_lt_add_right (ih ht) _

/-- The definition that a mapping is to be replaced by, with its name: the mapping has a reference
to it, and it is known and not being expanded. -/
def expansion? (table : Entries Json) (o : Options) (visited : List String)
    (m : Entries Json) : Option (String × Json) := do
  let target ← (Entries.get? m Node.refKey).bind Json.text?
  let name ← o.definitionName? target
  if visited.contains name then none else (Entries.get? table name).map (name, ·)

theorem unvisited_expansion_lt {table : Entries Json} {o : Options} {visited : List String}
    {m : Entries Json} {name : String} {body : Json}
    (h : expansion? table o visited m = some (name, body)) :
    unvisited table (name :: visited) < unvisited table visited := by
  simp only [expansion?, Option.bind_eq_bind, Option.bind_eq_some_iff] at h
  obtain ⟨_, _, n, _, h⟩ := h
  split at h
  · cases h
  · next hv =>
    obtain ⟨_, ht, he⟩ := Option.map_eq_some_iff.1 h
    cases he
    exact unvisited_cons_lt (by simpa using hv) ht

def hasReference (m : Entries Json) : Bool :=
  ((Entries.get? m Node.refKey).bind Json.text?).isSome

/-- A definition under the entries that stand beside its reference. Entries beside a definition
that is no mapping replace it. -/
def underSiblings (siblings : Entries Json) : Json → Json
  | .object body => .object (siblings ++ body.filter fun (k, _) => !Entries.contains siblings k)
  | other => if siblings.isEmpty then other else .object siblings

mutual

/-- Replaces the references below a value, where `visited` are the definitions being expanded. A
mapping with any other reference stays as it is. -/
def resolve (table : Entries Json) (o : Options) (visited : List String) : Json → Json
  | .scalar s => .scalar s
  | .array items => .array (resolveItems table o visited items)
  | .object m =>
    match h : expansion? table o visited m with
    | some (name, body) =>
      have := unvisited_expansion_lt h
      underSiblings (Entries.erase Node.refKey (resolveEntries table o (name :: visited) m))
        (resolve table o (name :: visited) body)
    | none => if hasReference m then .object m else .object (resolveEntries table o visited m)
termination_by v => (unvisited table visited, sizeOf v)

def resolveItems (table : Entries Json) (o : Options) (visited : List String) :
    List Json → List Json
  | [] => []
  | x :: xs => resolve table o visited x :: resolveItems table o visited xs
termination_by xs => (unvisited table visited, sizeOf xs)

def resolveEntries (table : Entries Json) (o : Options) (visited : List String) :
    List (String × Json) → List (String × Json)
  | [] => []
  | (k, v) :: m => (k, resolve table o visited v) :: resolveEntries table o visited m
termination_by m => (unvisited table visited, sizeOf m)

end

end InlineSchema.Equivalence
