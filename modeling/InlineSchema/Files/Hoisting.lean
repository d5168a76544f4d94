import InlineSchema.Files.Basic
import InlineSchema.Hoisting

/-!
# Hoisting into a file

The result is written to a file of its own beside the output, read back and checked, and only then
moved into place. Whatever fails, that file is removed and the output stays as it was.
-/

namespace InlineSchema.Files

variable {m : Type → Type} [Monad m] [Files m]

def fill (document output staged : String) : m Bool := do
  if ← permit staged output then
    if ← write staged document then flush staged
    else pure false
  else pure false

/-- Puts a document into a staged file, and that file in the place of `output` if what is read back
is equivalent to `source`. -/
def settle (o : Options) (source document output staged : String) : m (Except Failure Unit) := do
  if ← fill document output staged then
    match ← read staged with
    | .text written =>
      match checkEquivalence o source written with
      | .error e => pure (.error e)
      | .ok () =>
        if ← persist staged output then pure (.ok ())
        else pure (.error (.unwritable output))
    | _ => pure (.error (.unreadable staged))
  else pure (.error (.unwritable output))

/-- A staged file goes when what has been done with it fails. -/
def orDiscard (staged : String) (action : m (Except Failure Unit)) : m (Except Failure Unit) := do
  match ← action with
  | .error e => do
    discard staged
    pure (.error e)
  | .ok () => pure (.ok ())

/-- Writes `document` to `output` if it is equivalent to `source` as it is read back. -/
def commit (o : Options) (source document output : String) : m (Except Failure Unit) := do
  match ← create output with
  | none => pure (.error (.unwritable output))
  | some staged => orDiscard staged (settle o source document output staged)

def hoistTo (o : Options) (source output : String) : m (Except Failure Report) := do
  match transform o source with
  | .error e => pure (.error e)
  | .ok hoisted =>
    match ← commit o source hoisted.document output with
    | .error e => pure (.error e)
    | .ok () => pure (.ok hoisted.report)

end InlineSchema.Files
