import InlineSchema.Files.Workspace

/-!
# A machine

A tree of files on a disk with some space left, and a network within whose reach there are some
documents. A text that does not fit on the disk is written in part.
-/

namespace InlineSchema

structure Machine where
  workspace : Workspace
  /-- The octets that can still be written. -/
  space : Nat
  /-- The documents that can be fetched, by their URLs. -/
  pages : Entries String
deriving DecidableEq, Repr, Inhabited

namespace Machine

def lift {α : Type} (f : Workspace → α × Workspace) : StateM Machine α := fun s =>
  let (a, w) := f s.workspace
  (a, { s with workspace := w })

def write (s : Machine) (staged text : String) : Bool × Machine :=
  match s.workspace.listing? staged with
  | none => (false, s)
  | some name =>
    if text.utf8ByteSize ≤ s.space then
      (true, { s with
        workspace := s.workspace.put name (.text text)
        space := s.space - text.utf8ByteSize })
    else
      (false, { s with
        workspace := s.workspace.put name (.bytes (text.toUTF8.toList.take s.space))
        space := 0 })

instance : Files (StateM Machine) where
  read path := lift fun w => (w.read path, w)
  create output := lift fun w => w.create output
  permit _ _ := pure true
  write staged text := modifyGet fun s => s.write staged text
  flush _ := pure true
  discard staged := lift fun w => ((), w.discard staged)
  persist staged output := lift fun w => w.persist staged output

instance : Network (StateM Machine) where
  Fault := Unit
  fetch? := some fun url s => (((Entries.get? s.pages url).elim (.error ()) .ok), s)

end Machine

end InlineSchema
