import InlineSchema.Equivalence.Check
import InlineSchema.Extraction.Document
import InlineSchema.Report

/-!
# Hoisting a document

A document is read, its objects without a name become definitions, and the result is written. It
counts only if reading it again gives a document equivalent to the first.
-/

namespace InlineSchema

structure Hoisted where
  document : String
  report : Report
deriving DecidableEq, Repr

def transform (o : Options) (source : String) : Except Failure Hoisted :=
  match Node.parse? source with
  | none => .error .invalidDocument
  | some doc =>
    match extract o doc with
    | (_, .error e) => .error e
    | (doc, .ok names) => .ok ⟨doc.render o.format, ⟨names⟩⟩

/-- The transformed text, if it is equivalent to the source. -/
def hoist (o : Options) (source : String) : Except Failure Hoisted := do
  let hoisted ← transform o source
  checkEquivalence o source hoisted.document
  pure hoisted

end InlineSchema
