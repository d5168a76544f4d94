import InlineSchema.Equivalence.Collapse
import InlineSchema.Equivalence.Difference
import InlineSchema.Equivalence.Documentation
import InlineSchema.Equivalence.Resolution
import InlineSchema.Yaml.Reading

/-!
# Equivalence of documents

Two documents are equivalent if their paths are the same, and if every definition of the first is
a definition of the second and the same there, once references are resolved, documentation is left
out and compositions of one branch are collapsed. The second document may have more definitions.
-/

namespace InlineSchema

namespace Equivalence

/-- The definitions table of a document. A document without one has no definitions. -/
def definitions (o : Options) (doc : Json) : Entries Json :=
  ((o.definitionsPath.foldlM (fun (v : Json) key => v.get? key) doc).bind Json.entries?).getD []

def normalForm (table : Entries Json) (o : Options) (visited : List String) (v : Json) : Json :=
  collapse (strip false (resolve table o visited v))

def preparedPaths (o : Options) (doc : Json) : Json :=
  match doc.get? "paths" with
  | none => .null
  | some paths => normalForm (definitions o doc) o [] paths

def preparedDefinitions (o : Options) (doc : Json) : Entries Json :=
  let table := definitions o doc
  table.map fun (name, body) => (name, normalForm table o [name] body)

def tablePath (o : Options) : String :=
  o.definitionsPath.foldl childPath ""

def definitionsDifference (path : String) (a b : Entries Json) : Option Divergence :=
  a.findSome? fun (name, body) =>
    match Entries.get? b name with
    | none => some (.missing (childPath path name) .original)
    | some other => difference (childPath path name) body other

/-- The first difference between two documents, if any. -/
def divergence? (o : Options) (original transformed : Json) : Option Divergence :=
  (difference "/paths" (preparedPaths o original) (preparedPaths o transformed)).or
    (definitionsDifference (tablePath o) (preparedDefinitions o original)
      (preparedDefinitions o transformed))

def read (source : String) : Except Failure Json :=
  match Yaml.Value.read? source with
  | none => .error .invalidDocument
  | some v => .ok (Json.ofValue v)

end Equivalence

/-- The first difference between two texts, if both are documents. -/
def findDivergence (o : Options) (original transformed : String) :
    Except Failure (Option Divergence) := do
  let original ← Equivalence.read original
  let transformed ← Equivalence.read transformed
  pure (Equivalence.divergence? o original transformed)

def checkEquivalence (o : Options) (original transformed : String) : Except Failure Unit := do
  match ← findDivergence o original transformed with
  | none => pure ()
  | some d => throw (.divergent d)

end InlineSchema
