import InlineSchema.Yaml.Charset

/-!
# Places in a text

A cursor holds the text still to be read and the place where it starts: the number of octets before
it, the line, and the column in characters. A line ends at a carriage return, a line feed, both
together, or one of the three Unicode line ends.
-/

namespace InlineSchema.Yaml

structure Cursor where
  rest : List Char
  offset : Nat
  line : Nat
  column : Nat
deriving Inhabited

namespace Cursor

def ofString (text : String) : Cursor := ⟨text.toList, 0, 0, 0⟩

def peek (c : Cursor) : Option Char := c.rest.head?
def peekAt (c : Cursor) (n : Nat) : Option Char := c.rest[n]?
def atEnd (c : Cursor) : Bool := c.rest.isEmpty
def isAt (c : Cursor) (x : Char) : Bool := c.peek == some x

def offsetAfter (c : Cursor) (n : Nat) : Nat :=
  (c.rest.take n).foldl (fun offset x => offset + x.utf8Size) c.offset

def skip (c : Cursor) (n : Nat) : Cursor :=
  { c with rest := c.rest.drop n, offset := c.offsetAfter n, column := c.column + n }

def takeWhile (c : Cursor) (p : Char → Bool) : List Char × Cursor :=
  let run := c.rest.takeWhile p
  (run, c.skip run.length)

def dropWhile (c : Cursor) (p : Char → Bool) : Cursor := (c.takeWhile p).2

def restOfLine (c : Cursor) : List Char × Cursor := c.takeWhile (!isBreak ·)

/-- Splits off a line end: as text, every line end but the two Unicode separators is a line
feed. -/
def takeBreak (c : Cursor) : List Char × Cursor :=
  let next (n : Nat) (rest : List Char) : Cursor := ⟨rest, c.offsetAfter n, c.line + 1, 0⟩
  match c.rest with
  | '\r' :: '\n' :: rest => (['\n'], next 2 rest)
  | x :: rest =>
    if x == lineSeparator || x == paragraphSeparator then ([x], next 1 rest)
    else if isBreak x then (['\n'], next 1 rest)
    else ([], c)
  | [] => ([], c)

def skipBreak (c : Cursor) : Cursor := c.takeBreak.2

def finishLine? (c : Cursor) : Option Cursor :=
  let c := c.dropWhile isBlank
  let c := if c.isAt '#' then c.restOfLine.2 else c
  if isBreakOrEnd c.peek then some c.skipBreak else none

def atMarker (c : Cursor) (x : Char) : Bool :=
  c.column == 0 && c.isAt x && c.peekAt 1 == some x && c.peekAt 2 == some x &&
    isBlankOrEnd (c.peekAt 3)

def atDocumentMarker (c : Cursor) : Bool := c.atMarker '-' || c.atMarker '.'

end Cursor

end InlineSchema.Yaml
