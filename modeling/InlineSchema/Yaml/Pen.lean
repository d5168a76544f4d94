import InlineSchema.Yaml.Charset

/-!
# Writing with indentation

A pen holds the text written so far and what the next piece has to know of it: the column, whether
a blank is needed before more text, and whether the line holds nothing but indentation and the
indicators that count as such.
-/

namespace InlineSchema.Yaml

structure Pen where
  text : String
  column : Nat
  afterBlank : Bool
  atIndent : Bool
deriving Inhabited

namespace Pen

def empty : Pen := ⟨"", 0, true, true⟩

def put (p : Pen) (s : String) : Pen :=
  { p with text := p.text ++ s, column := p.column + s.length }

def putBreak (p : Pen) (c : Char) : Pen := { p with text := p.text.push c, column := 0 }

def space (p : Pen) : Pen := if p.afterBlank then p else p.put " "

/-- Starts a line at column `indent`, unless it has only been indented so far. -/
def startLine (p : Pen) (indent : Nat) : Pen :=
  let p :=
    if !p.atIndent || indent < p.column || (p.column == indent && !p.afterBlank) then
      p.putBreak '\n'
    else p
  { p.put (String.ofList (List.replicate (indent - p.column) ' ')) with
    afterBlank := true, atIndent := true }

/-- Writes an indicator after a blank. `asIndent` says that it counts as indentation. -/
def indicator (p : Pen) (s : String) (asIndent : Bool) : Pen :=
  { p.space.put s with afterBlank := false, atIndent := p.atIndent && asIndent }

def close (p : Pen) (s : String) : Pen :=
  { p.put s with afterBlank := false, atIndent := false }

def putLines (p : Pen) (indent : Nat) (encode : Char → String) (broken : Bool) :
    List Char → Pen × Bool
  | [] => (p, broken)
  | c :: cs =>
    if isBreak c then putLines { p.putBreak c with atIndent := true } indent encode true cs
    else
      let p := if broken then p.startLine indent else p
      putLines { p.put (encode c) with atIndent := false } indent encode false cs

end Pen

end InlineSchema.Yaml
