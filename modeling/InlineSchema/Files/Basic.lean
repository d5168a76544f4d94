import InlineSchema.Failure

/-!
# Files

What a run needs of the file system and of a network, over any monad. A document is put together in
a staged file beside the output, and every step of that can fail: the file may not be created, be
refused the permissions of the output, be written in part only, or not be moved into place.
-/

namespace InlineSchema

inductive File where
  | text (content : String)
  /-- Octets that are no text. -/
  | bytes (content : List UInt8)
  | directory
deriving DecidableEq, Repr, Inhabited

/-- What reading a file gives. Only UTF-8 is text. -/
inductive Reading where
  | missing
  | unreadable
  | text (content : String)
deriving DecidableEq, Repr, Inhabited

class Files (m : Type → Type) where
  read (path : String) : m Reading
  /-- Creates an empty file with a fresh name in the directory of `output`, and gives its path. -/
  create (output : String) : m (Option String)
  /-- Gives a staged file the permissions of the file at `output`, if there is one. -/
  permit (staged output : String) : m Bool
  /-- Writes a text to a staged file, of which a part may be written if this fails. -/
  write (staged text : String) : m Bool
  flush (staged : String) : m Bool
  /-- Removes a staged file. -/
  discard (staged : String) : m Unit
  /-- Moves a staged file to `output`; otherwise it stays where it is. -/
  persist (staged output : String) : m Bool

/-- Requests for documents. A program that is built without a network has no `fetch?`. -/
class Network (m : Type → Type) where
  Fault : Type
  fetch? : Option (String → m (Except Fault String))

namespace Files

variable {m : Type → Type} [Monad m] [Files m]

def load {Fault : Type} (path : String) : m (Except (Failure Fault) String) := do
  match ← read path with
  | .missing => pure (.error (.fileNotFound path))
  | .unreadable => pure (.error (.unreadable path))
  | .text content => pure (.ok content)

def isUrl (source : String) : Bool :=
  source.startsWith "http://" || source.startsWith "https://"

/-- A document by its URL or its path. Without a network, a URL is a file that is not there. -/
def loadSource [Network m] (source : String) :
    m (Except (Failure (Network.Fault m)) String) := do
  if isUrl source then
    match Network.fetch? (m := m) with
    | none => pure (.error (.fileNotFound source))
    | some fetch =>
      match ← fetch source with
      | .error fault => pure (.error (.unreachable source fault))
      | .ok content => pure (.ok content)
  else load source

end Files

end InlineSchema
