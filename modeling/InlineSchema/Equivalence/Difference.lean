import InlineSchema.Failure
import InlineSchema.Json.Value
import InlineSchema.Pointer

/-!
# The first difference

Two values are compared in the order of the first one. Keys of the second mapping alone come after
all keys of the first. The place of the difference is given as a pointer.
-/

namespace InlineSchema.Equivalence

def childPath (path key : String) : String := path ++ "/" ++ Pointer.escape key

def summary : Json → String
  | .object m => "object with " ++ toString m.length ++ " key(s)"
  | .array items => "array of " ++ toString items.length ++ " item(s)"
  | .scalar s => Json.scalarText s

def extraKey? (a b : Entries Json) : Option String :=
  (Entries.keys b).find? fun key => !Entries.contains a key

mutual

/-- The first difference between `a` and `b`, which stand at `path`. -/
def difference (path : String) : Json → Json → Option Divergence
  | .object a, .object b =>
    (differenceEntries path a b).or
      ((extraKey? a b).map fun key => Divergence.missing (childPath path key) .transformed)
  | .array xs, .array ys =>
    if xs.length = ys.length then differenceItems path 0 xs ys
    else some (.mismatch path (summary (.array xs)) (summary (.array ys)))
  | .scalar s, .scalar t =>
    if s.same t then none else some (.mismatch path (Json.scalarText s) (Json.scalarText t))
  | a, b => some (.mismatch path (summary a) (summary b))

def differenceItems (path : String) (i : Nat) : List Json → List Json → Option Divergence
  | x :: xs, y :: ys =>
    (difference (path ++ "/" ++ toString i) x y).or (differenceItems path (i + 1) xs ys)
  | _, _ => none

def differenceEntries (path : String) : List (String × Json) → Entries Json → Option Divergence
  | [], _ => none
  | (k, v) :: a, b =>
    (match Entries.get? b k with
      | none => some (Divergence.missing (childPath path k) .original)
      | some w => difference (childPath path k) v w).or (differenceEntries path a b)

end

end InlineSchema.Equivalence
