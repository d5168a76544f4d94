import InlineSchema.Extraction.Schema
import InlineSchema.Json.Value

/-!
# Compositions of one branch

A composition of one schema with nothing beside it is that schema.
-/

namespace InlineSchema.Equivalence

/-- The only branch of a composition that is all there is to the mapping. -/
def onlyBranch? : Entries Json → Option Json
  | [(key, .array [branch])] => if Node.compositionKeys.contains key then some branch else none
  | _ => none

mutual

/-- The value with every composition of one branch replaced by the branch, from the inside out. -/
def collapse : Json → Json
  | .scalar s => .scalar s
  | .array items => .array (collapseItems items)
  | .object m =>
    let m := collapseEntries m
    (onlyBranch? m).getD (.object m)

def collapseItems : List Json → List Json
  | [] => []
  | x :: xs => collapse x :: collapseItems xs

def collapseEntries : List (String × Json) → List (String × Json)
  | [] => []
  | (k, v) :: m => (k, collapse v) :: collapseEntries m

end

end InlineSchema.Equivalence
