import InlineSchema.Yaml.Pen
import InlineSchema.Yaml.Resolution
import InlineSchema.Yaml.Token.Basic

/-!
# How a string is written

A string stays plain if it reads back as a string. One with a line feed is literal; one that a
reader could take for something else is single quoted; and where a style cannot hold the
characters, the string is double quoted with escapes.
-/

namespace InlineSchema.Yaml

def preferredStyle (text : String) : ScalarStyle :=
  if text.toList.contains '\n' then .literal
  else match plain? text with
    | some (.string _) => if isPadded text.toList then .singleQuoted else .plain
    | _ => .singleQuoted

/-! ## What the styles can hold -/

def neighbours (cs : List Char) : List (Char × Char) := cs.zip cs.tail

def isMultiline (cs : List Char) : Bool := cs.any isBreak

def hasBreakThenSpace (cs : List Char) : Bool :=
  (neighbours cs).any fun (a, b) => isBreak a && b == ' '

/-- Only a double quoted scalar has escapes, and only there may a space end a line. -/
def needsEscapes (cs : List Char) : Bool :=
  cs.any (!isPrintable ·) || (neighbours cs).any fun (a, b) => a == ' ' && isBreak b

def indicatorsAtStart : List Char :=
  ['#', ',', '[', ']', '\x7b', '\x7d', '&', '*', '!', '|', '>', '\'', '"', '%', '@', '\x60']

def hasIndicators (cs : List Char) : Bool :=
  let endsWord (c : Option Char) := isBlankOrEnd c
  let first := cs.head?
  "---".toList.isPrefixOf cs || "...".toList.isPrefixOf cs || first.any indicatorsAtStart.contains ||
    ((first == some '?' || first == some '-') && endsWord cs[1]?) ||
    cs.getLast? == some ':' ||
    (neighbours cs).any fun (a, b) =>
      (a == ':' && endsWord (some b)) || (endsWord (some a) && b == '#')

def plainHolds (cs : List Char) : Bool :=
  let edge (c : Option Char) := c.any fun c => c == ' ' || isBreak c
  !edge cs.head? && !edge cs.getLast? && !isMultiline cs && !needsEscapes cs && !hasIndicators cs

def singleQuotedHolds (cs : List Char) : Bool := !hasBreakThenSpace cs && !needsEscapes cs

def literalHolds (cs : List Char) : Bool :=
  !cs.isEmpty && cs.getLast? != some ' ' && !needsEscapes cs

/-- The style of a scalar, where `simpleKey` says that it has to stay on one line. -/
def chooseStyle (preferred : ScalarStyle) (simpleKey : Bool) (cs : List Char) : ScalarStyle :=
  let quoted := if singleQuotedHolds cs then .singleQuoted else .doubleQuoted
  if simpleKey && isMultiline cs then .doubleQuoted
  else match preferred with
    | .plain => if !plainHolds cs || (simpleKey && cs.isEmpty) then quoted else .plain
    | .singleQuoted => quoted
    | .literal | .folded => if literalHolds cs && !simpleKey then .literal else .doubleQuoted
    | .doubleQuoted => .doubleQuoted

/-! ## Writing -/

def hexText (width n : Nat) : String :=
  let digits := (Nat.toDigits 16 n).map Char.toUpper
  String.ofList (List.replicate (width - digits.length) '0' ++ digits)

def escape (c : Char) : String :=
  match c with
  | '\x00' => "\\0"
  | '\x07' => "\\a"
  | '\x08' => "\\b"
  | '\t' => "\\t"
  | '\n' => "\\n"
  | '\x0b' => "\\v"
  | '\x0c' => "\\f"
  | '\r' => "\\r"
  | '\x1b' => "\\e"
  | '"' => "\\\""
  | '\\' => "\\\\"
  | '\x85' => "\\N"
  | '\u2028' => "\\L"
  | '\u2029' => "\\P"
  | c =>
    if isPrintable c then c.toString
    else if c.toNat ≤ 0xFF then "\\x" ++ hexText 2 c.toNat
    else if c.toNat ≤ 0xFFFF then "\\u" ++ hexText 4 c.toNat
    else "\\U" ++ hexText 8 c.toNat

/-- The header of a literal scalar: the indentation, where the text does not show it, and what
becomes of the line ends at its end. -/
def literalHeader (cs : List Char) : String :=
  let startsBlank := cs.head?.any fun c => c == ' ' || isBreak c
  let breaks := (cs.reverse.takeWhile isBreak).length
  let chomping :=
    if breaks == 0 then "-" else if 1 < breaks || cs.length == 1 then "+" else ""
  "|" ++ (if startsBlank then "2" else "") ++ chomping

def Pen.scalar (p : Pen) (style : ScalarStyle) (indent : Nat) (text : String) : Pen :=
  let cs := text.toList
  match style with
  | .plain => { p.space.put text with afterBlank := false, atIndent := false }
  | .singleQuoted =>
    let (p, broken) := (p.indicator "'" false).putLines indent
      (fun c => if c == '\'' then "''" else c.toString) false cs
    (if broken then p.startLine indent else p).close "'"
  | .doubleQuoted => ((p.indicator "\"" false).put (String.join (cs.map escape))).close "\""
  | .literal | .folded =>
    let p := (p.indicator (literalHeader cs) false).putBreak '\n'
    ({ p with afterBlank := true, atIndent := true }.putLines indent Char.toString true cs).1

end InlineSchema.Yaml
