import InlineSchema.Json.Value

/-!
# Documentation

A description or an example in a schema says nothing about its values and is left out of the
comparison. In a table of properties the keys are names, so there a `description` is a property.
-/

namespace InlineSchema.Equivalence

def documentationKeys : List String := ["description", "example"]

mutual

/-- The value without its documentation. `inTable` says that it is a table of properties, which the
value of `properties` is, unless that is itself the name of a property. -/
def strip (inTable : Bool) : Json → Json
  | .scalar s => .scalar s
  | .array items => .array (stripItems items)
  | .object m => .object (stripEntries inTable m)

def stripItems : List Json → List Json
  | [] => []
  | x :: xs => strip false x :: stripItems xs

def stripEntries (inTable : Bool) : List (String × Json) → List (String × Json)
  | [] => []
  | (k, v) :: m =>
    if !inTable && documentationKeys.contains k then stripEntries inTable m
    else (k, strip (!inTable && k == "properties") v) :: stripEntries inTable m

end

end InlineSchema.Equivalence
