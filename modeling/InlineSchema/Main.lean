import InlineSchema.CommandLine
import InlineSchema.Files.Workspace

/-!
# The program

There is no network here, and a file that replaces another has the permissions of a new file.
-/

namespace InlineSchema

def directoryOf (path : String) : String :=
  let (start, names) := Workspace.directoryParts path
  let directory := "/".intercalate names
  match start with
  | .outside _ => "/" ++ directory
  | .inside _ => if directory == "" then "." else directory

def succeeds (action : IO Unit) : IO Bool := do
  try
    action
    pure true
  catch _ => pure false

instance : Files IO where
  read path := do
    try
      let bytes ← IO.FS.readBinFile path
      match String.fromUTF8? bytes with
      | some content => pure (.text content)
      | none => pure .unreadable
    catch
      | .noFileOrDirectory .. => pure .missing
      | _ => pure .unreadable
  create output := do
    let name := directoryOf output ++ "/.staged" ++ toString (← IO.monoNanosNow)
    if ← succeeds (IO.FS.withFile name .writeNew fun _ => pure ()) then pure (some name)
    else pure none
  permit _ _ := pure true
  write staged text := succeeds do
    IO.FS.withFile staged .write fun h => do
      h.putStr text
      h.flush
  -- A write flushes the file before it closes it.
  flush _ := pure true
  discard staged := do
    let _ ← succeeds (IO.FS.removeFile staged)
  persist staged output := succeeds (IO.FS.rename staged output)

instance : Network IO where
  Fault := Empty
  fetch? := none

end InlineSchema

open InlineSchema in
def main (args : List String) : IO UInt32 := do
  let outcome ← CommandLine.run args
  IO.print outcome.stdout
  IO.eprint outcome.stderr
  pure outcome.exitCode.toUInt32
