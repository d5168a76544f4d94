import InlineSchema.Json.Text

/-!
# The report of a run
-/

namespace InlineSchema

structure Report where
  /-- The names of the new definitions, in order. -/
  extracted : List String
deriving DecidableEq, Repr, Inhabited

namespace Report

def count (r : Report) : Nat := r.extracted.length
def isEmpty (r : Report) : Bool := r.extracted.isEmpty

def json (r : Report) : String :=
  Json.bracket "\x7b" "\x7d"
    [Json.quote "extracted" ++ ":" ++ Json.bracket "[" "]" (r.extracted.map Json.quote)]

end Report

end InlineSchema
