import InlineSchema.Number.Basic

/-!
# Scalars of a document
-/

namespace InlineSchema

inductive Scalar where
  | null
  | bool (value : Bool)
  | number (value : Number)
  | string (value : String)
deriving DecidableEq, Repr, Inhabited

namespace Scalar

/-- Equality of values; only numbers have more than one form. -/
def same : Scalar → Scalar → Bool
  | .number x, .number y => x.same y
  | x, y => x == y

end Scalar

end InlineSchema
