/-!
# Failures

What can go wrong, each with its message and the exit code of the program that stops for it.
-/

namespace InlineSchema

inductive Side where
  | original
  | transformed
deriving DecidableEq, Repr, Inhabited

def Side.name : Side → String
  | .original => "original"
  | .transformed => "transformed"

/-- The first difference between two documents, at a place given by a pointer. -/
inductive Divergence where
  /-- The place exists on one side only. -/
  | missing (path : String) (side : Side)
  /-- The place holds different values, of which short descriptions are given. -/
  | mismatch (path original transformed : String)
deriving DecidableEq, Repr, Inhabited

namespace Divergence

def path : Divergence → String
  | .missing path _ => path
  | .mismatch path _ _ => path

def message : Divergence → String
  | .missing path side => path ++ " is only present in the " ++ side.name ++ " document"
  | .mismatch path original transformed =>
    path ++ " differs: original " ++ original ++ ", transformed " ++ transformed

end Divergence

/-- What can go wrong. `Fault` says what goes wrong in a request over a network, which nothing does
in a program that is built without one. -/
inductive Failure (Fault : Type := Empty) where
  | fileNotFound (path : String)
  | unreadable (path : String)
  | unwritable (path : String)
  | unreachable (url : String) (fault : Fault)
  | invalidDocument
  /-- A document has no written form. -/
  | unserializable (reason : String)
  /-- There are definitions to insert, but no table at the place, whose keys are joined by dots. -/
  | missingTable (path : String) (count : Nat)
  | nameCollision (name : String)
  | divergent (divergence : Divergence)
deriving DecidableEq, Repr, Inhabited

namespace Failure

variable {Fault : Type}

def message : Failure Fault → String
  | .fileNotFound path => "file not found: " ++ path
  | .unreadable path => "cannot read " ++ path
  | .unwritable path => "cannot write " ++ path
  | .unreachable url _ => "failed to fetch " ++ url
  | .invalidDocument => "invalid document"
  | .unserializable reason => "cannot serialize document: " ++ reason
  | .missingTable path count =>
    "no definitions table at " ++ path ++ " to insert " ++ toString count ++
      " extracted schema(s) into"
  | .nameCollision name =>
    "extracted schema name \"" ++ name ++ "\" collides with an existing definition"
  | .divergent divergence => "transformed document is not equivalent: " ++ divergence.message

/-- Files and requests give 3, unusable documents 2, and all that fails afterwards 1. -/
def exitCode : Failure Fault → Nat
  | .fileNotFound _ | .unreadable _ | .unwritable _ | .unreachable .. => 3
  | .invalidDocument | .unserializable _ => 2
  | .missingTable .. | .nameCollision _ | .divergent _ => 1

end Failure

end InlineSchema
