import InlineSchema.Entries
import InlineSchema.Files.Basic
import InlineSchema.Pointer

/-!
# A working directory

A pure model of a tree of files, in which the working directory stands at `/work`. What is inside
the working directory is listed by its path from there, and everything else by its path from the
root, without dots and doubled slashes. Files have no permissions here, and nothing fails but what
cannot be done.
-/

namespace InlineSchema

structure Workspace where
  entries : Entries File
deriving DecidableEq, Repr, Inhabited

namespace Workspace

def home : String := "work"

/-- A place inside the working directory, by the names on the way, or outside it, by the names on
the way from the root. -/
inductive Place where
  | outside (names : List String)
  | inside (names : List String)
deriving DecidableEq, Repr

namespace Place

def child (place : Place) (name : String) : Place :=
  match place with
  | .outside [] => if name == home then .inside [] else .outside [name]
  | .outside names => .outside (names ++ [name])
  | .inside names => .inside (names ++ [name])

/-- The root is its own parent. -/
def parent : Place → Place
  | .outside names => .outside names.dropLast
  | .inside [] => .outside []
  | .inside names => .inside names.dropLast

def name? : Place → Option String
  | .outside [] | .inside [] => none
  | .outside names => some ("/" ++ "/".intercalate names)
  | .inside names => some ("/".intercalate names)

end Place

/-- What is at a place. The root and the working directory are always there. -/
def get? (w : Workspace) (place : Place) : Option File :=
  match place.name? with
  | none => some .directory
  | some name => Entries.get? w.entries name

def isDirectory (w : Workspace) (place : Place) : Bool := w.get? place == some .directory

def isFileName (name : String) : Bool := name.utf8ByteSize ≤ 255 && !name.toList.contains '\x00'

def step? (w : Workspace) (place : Place) (part : String) : Option Place :=
  if !w.isDirectory place then none
  else if part == "" || part == "." then some place
  else if part == ".." then some place.parent
  else if isFileName part then some (place.child part)
  else none

def walk? (w : Workspace) (start : Place) (parts : List String) : Option Place :=
  parts.foldlM w.step? start

def parts (path : String) : List String := (Pointer.splitChars path.toList).map String.ofList

/-- The place that a path names, whether or not something is there. A path has less than 4096
octets. -/
def place? (w : Workspace) (path : String) : Option Place :=
  if path == "" || 4096 ≤ path.utf8ByteSize then none
  else w.walk? (if path.startsWith "/" then .outside [] else .inside []) (parts path)

def listing? (w : Workspace) (path : String) : Option String := (w.place? path).bind Place.name?

def read (w : Workspace) (path : String) : Reading :=
  match (w.place? path).bind w.get? with
  | none => .missing
  | some (.text content) => .text content
  | some _ => .unreadable

/-- The steps to the directory that a file is put into, from the root or from the working directory;
a path without a directory means the latter. -/
def directoryParts (path : String) : Place × List String :=
  let names := (parts path).filter fun part => part != "" && part != "."
  (if path.startsWith "/" && !names.isEmpty then .outside [] else .inside [], names.dropLast)

def directory? (w : Workspace) (path : String) : Option Place :=
  let (start, names) := directoryParts path
  (w.walk? start names).filter w.isDirectory

/-- A path into a directory to a file that is not there, and how this file is listed. -/
def fresh? (w : Workspace) (directory : Place) : Option (String × String) :=
  (List.range (w.entries.length + 1)).findSome? fun n => do
    let path ← (directory.child (".staged" ++ toString n)).name?
    let name ← w.listing? path
    if Entries.contains w.entries name then none else some (path, name)

def put (w : Workspace) (name : String) (file : File) : Workspace :=
  ⟨Entries.insert name file w.entries⟩

def remove (w : Workspace) (name : String) : Workspace := ⟨Entries.erase name w.entries⟩

def create (w : Workspace) (output : String) : Option String × Workspace :=
  match (w.directory? output).bind w.fresh? with
  | none => (none, w)
  | some (path, name) => (some path, w.put name (.text ""))

def write (w : Workspace) (staged text : String) : Bool × Workspace :=
  match w.listing? staged with
  | none => (false, w)
  | some name => (true, w.put name (.text text))

def discard (w : Workspace) (staged : String) : Workspace :=
  ((w.listing? staged).map w.remove).getD w

/-- A file replaces a file, but not a directory. -/
def persist (w : Workspace) (staged output : String) : Bool × Workspace :=
  match w.listing? staged, w.listing? output with
  | some name, some target =>
    match Entries.get? w.entries name with
    | none => (false, w)
    | some file =>
      if Entries.get? w.entries target = some .directory then (false, w)
      else (true, (w.remove name).put target file)
  | _, _ => (false, w)

instance : Files (StateM Workspace) where
  read path := do return (← get).read path
  create output := modifyGet fun w => w.create output
  permit _ _ := pure true
  write staged text := modifyGet fun w => w.write staged text
  flush _ := pure true
  discard staged := modify fun w => w.discard staged
  persist staged output := modifyGet fun w => w.persist staged output

instance : Network (StateM Workspace) where
  Fault := Empty
  fetch? := none

end Workspace

end InlineSchema
