import InlineSchema.Yaml.Cursor
import InlineSchema.Yaml.Token.Basic

/-!
# Scalars

A scalar that goes over several lines is folded: one line end is a space, and of several the first
is dropped. A Unicode separator is a line end that stays. Literal scalars are not folded, and in
`>` scalars lines that start with a blank are not.
-/

namespace InlineSchema.Yaml.Cursor

def foldBreaks (first more : List Char) : List Char :=
  if first == ['\n'] then if more.isEmpty then [' '] else more else first ++ more

/-! ## Blanks and line ends inside a scalar -/

/-- The line ends from here on, with the blanks around them dropped. A tab before column `limit`
is refused. -/
def moreBreaks? (limit : Nat) : (fuel : Nat) → Cursor → Option (List Char × Cursor)
  | 0, c => some ([], c)
  | fuel + 1, c =>
    let (blanks, next) := c.takeWhile isBlank
    if (blanks.take (limit - c.column)).contains '\t' then none
    else if next.peek.any isBreak then do
      let (first, next) := next.takeBreak
      let (more, next) ← moreBreaks? limit fuel next
      some (first ++ more, next)
    else some ([], next)

/-- Blanks and line ends between two words: the text they stand for, and whether a line ended. -/
def gap? (c : Cursor) (limit : Nat) : Option (List Char × Bool × Cursor) :=
  let (blanks, next) := c.takeWhile isBlank
  if next.peek.any isBreak then do
    let (first, next) := next.takeBreak
    let (more, next) ← next.moreBreaks? limit next.rest.length
    some (foldBreaks first more, true, next)
  else some (blanks, false, next)

/-! ## Quoted scalars -/

def escapedAs? : Char → Option Char
  | '0' => some '\x00'
  | 'a' => some '\x07'
  | 'b' => some '\x08'
  | 't' => some '\t'
  | '\t' => some '\t'
  | 'n' => some '\n'
  | 'v' => some '\x0b'
  | 'f' => some '\x0c'
  | 'r' => some '\r'
  | 'e' => some '\x1b'
  | ' ' => some ' '
  | '"' => some '"'
  | '/' => some '/'
  | '\\' => some '\\'
  | 'N' => some nextLine
  | '_' => some '\u00a0'
  | 'L' => some lineSeparator
  | 'P' => some paragraphSeparator
  | _ => none

def escapeWidth? : Char → Option Nat
  | 'x' => some 2
  | 'u' => some 4
  | 'U' => some 8
  | _ => none

def escape? (c : Cursor) : Option (Char × Cursor) := do
  let letter ← c.peekAt 1
  match escapeWidth? letter with
  | none => (escapedAs? letter).map (·, c.skip 2)
  | some width =>
    let digits := (c.rest.drop 2).take width
    if digits.length < width then none
    let value ← hexNumber? digits
    if h : value.isValidChar then some (Char.ofNatAux value h, c.skip (2 + width)) else none

/-- The text up to the next blank, line end or closing quote, and whether an escaped line end has
been passed after it. -/
def quotedRun? (quote : Char) : (fuel : Nat) → Cursor → Option (List Char × Bool × Cursor)
  | 0, c => some ([], false, c)
  | fuel + 1, c =>
    if isBlankOrEnd c.peek then some ([], false, c)
    else if quote == '\'' && c.isAt '\'' && c.peekAt 1 == some '\'' then do
      let (xs, cut, c) ← quotedRun? quote fuel (c.skip 2)
      some ('\'' :: xs, cut, c)
    else if c.isAt quote then some ([], false, c)
    else if quote == '"' && c.isAt '\\' then
      if (c.peekAt 1).any isBreak then some ([], true, (c.skip 1).skipBreak)
      else do
        let (x, c) ← c.escape?
        let (xs, cut, c) ← quotedRun? quote fuel c
        some (x :: xs, cut, c)
    else do
      let x ← c.peek
      let (xs, cut, c) ← quotedRun? quote fuel (c.skip 1)
      some (x :: xs, cut, c)

/-- The text up to the closing quote. No document marker may stand in it. -/
def quotedText? (quote : Char) : (fuel : Nat) → Cursor → Option (List Char × Cursor)
  | 0, _ => none
  | fuel + 1, c =>
    if c.atDocumentMarker || c.atEnd then none
    else do
      let (run, cut, c) ← c.quotedRun? quote c.rest.length
      if c.isAt quote then some (run, c.skip 1)
      else
        let (text, c) ←
          if cut then c.moreBreaks? 0 c.rest.length
          else (c.gap? 0).map fun (text, _, c) => (text, c)
        let (more, c) ← quotedText? quote fuel c
        some (run ++ text ++ more, c)

def quoted? (c : Cursor) (quote : Char) (style : ScalarStyle) : Option (Token × Cursor) := do
  let (text, c) ← (c.skip 1).quotedText? quote c.rest.length
  some (.scalar (String.ofList text) style, c)

/-! ## Plain scalars -/

def flowIndicators : List Char := [',', '[', ']', '\x7b', '\x7d']

/-- The text up to the next blank or up to the end of the scalar. In a flow collection a colon may
not touch an indicator. -/
def plainRun? (inFlow : Bool) : List Char → Option (List Char)
  | [] => some []
  | x :: rest =>
    if isBlank x || isBreak x then some []
    else if inFlow && x == ':' && rest.head?.any ('?' :: flowIndicators).contains then none
    else if (x == ':' && isBlankOrEnd rest.head?) || (inFlow && flowIndicators.contains x) then
      some []
    else (plainRun? inFlow rest).map (x :: ·)

/-- The text from here on, where `gap` has been read before it, and whether the scalar ended after
a line end. -/
def plainText? (inFlow : Bool) (limit : Nat) :
    (fuel : Nat) → (gap : List Char) → (broken : Bool) → Cursor → Option (List Char × Bool × Cursor)
  | 0, _, broken, c => some ([], broken, c)
  | fuel + 1, gap, broken, c =>
    if c.atDocumentMarker || c.isAt '#' then some ([], broken, c)
    else do
      let run ← plainRun? inFlow c.rest
      let c := c.skip run.length
      let text := if run.isEmpty then [] else gap ++ run
      let broken := broken && run.isEmpty
      if c.atEnd || !isBlankOrEnd c.peek then some (text, broken, c)
      else
        let (gap, broken, c) ← c.gap? limit
        if !inFlow && c.column < limit then some (text, broken, c)
        else
          let (more, broken, c) ← plainText? inFlow limit fuel gap broken c
          some (text ++ more, broken, c)

/-- The plain scalar that starts here. `limit` is the least column of its further lines; whether
it ended after a line end decides if a key may follow. -/
def plain? (c : Cursor) (inFlow : Bool) (limit : Nat) : Option (Token × Bool × Cursor) := do
  let (text, broken, c) ← c.plainText? inFlow limit c.rest.length [] false
  some (.scalar (String.ofList text) .plain, broken, c)

/-! ## Block scalars -/

inductive Chomping where
  | strip
  | clip
  | keep
deriving DecidableEq, Repr

def chomping? : Option Char → Option Chomping
  | some '+' => some .keep
  | some '-' => some .strip
  | _ => none

def blockHeader? (c : Cursor) : Option (Chomping × Option Nat × Cursor) :=
  let width (c : Cursor) : Option (Option Nat × Cursor) :=
    match c.peek with
    | some '0' => none
    | some d => if d.isDigit then some (some (d.toNat - '0'.toNat), c.skip 1) else some (none, c)
    | none => some (none, c)
  match chomping? c.peek with
  | some chomping => (width (c.skip 1)).map fun (n, c) => (chomping, n, c)
  | none =>
    (width c).map fun (n, c) =>
      match n, chomping? c.peek with
      | some _, some chomping => (chomping, n, c.skip 1)
      | _, _ => (.clip, n, c)

/-- The line ends before the next line with text, and the deepest indentation passed. `limit` is
the indentation of the scalar, once it is known; a tab may not stand in it. -/
def blockBreaks? (limit : Option Nat) :
    (fuel : Nat) → (deepest : Nat) → Cursor → Option (List Char × Nat × Cursor)
  | 0, deepest, c => some ([], deepest, c)
  | fuel + 1, deepest, c =>
    let spaces := (c.rest.takeWhile (· == ' ')).length
    let c := c.skip (limit.elim spaces fun limit => min spaces (limit - c.column))
    let deepest := max deepest c.column
    if c.isAt '\t' && limit.all (c.column < ·) then none
    else if c.peek.any isBreak then do
      let (first, c) := c.takeBreak
      let (more, deepest, c) ← blockBreaks? limit fuel deepest c
      some (first ++ more, deepest, c)
    else some ([], deepest, c)

/-- The lines of a block scalar, where `first` and `more` are the line ends before them and
`afterBlank` says that the line before started with a blank; the answer ends with the line ends
after them. -/
def blockLines? (literal : Bool) (indent : Nat) :
    (fuel : Nat) → (first more : List Char) → (afterBlank : Bool) → Cursor →
      Option (List Char × List Char × List Char × Cursor)
  | 0, first, more, _, c => some ([], first, more, c)
  | fuel + 1, first, more, afterBlank, c =>
    if c.column == indent && !c.atEnd then do
      let blank := c.peek.any isBlank
      let joint := if literal || afterBlank || blank then first ++ more else foldBreaks first more
      let (line, c) := c.restOfLine
      let (first, c) := c.takeBreak
      let (more, _, c) ← c.blockBreaks? (some indent) (c.rest.length + 1) 0
      let (text, first, more, c) ← blockLines? literal indent fuel first more blank c
      some (joint ++ line ++ text, first, more, c)
    else some ([], first, more, c)

def block? (c : Cursor) (style : ScalarStyle) (parent : Int) : Option (Token × Cursor) := do
  let (chomping, width, c) ← (c.skip 1).blockHeader?
  let c ← c.finishLine?
  let limit := width.map fun n => (max parent 0).toNat + n
  let (more, deepest, c) ← c.blockBreaks? limit (c.rest.length + 1) 0
  let indent := limit.getD (max deepest (max (parent + 1) 1).toNat)
  let (text, first, more, c) ←
    c.blockLines? (style == .literal) indent (c.rest.length + 1) [] more false
  let tail := match chomping with
    | .strip => []
    | .clip => first
    | .keep => first ++ more
  some (.scalar (String.ofList (text ++ tail)) style, c)

end InlineSchema.Yaml.Cursor
