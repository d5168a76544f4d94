import InlineSchema.Yaml.Token.Scalar
import InlineSchema.Yaml.Token.Tag

/-!
# From text to tokens

A key without an indicator of its own shows only by the colon after it. So wherever such a key may
start, the place is remembered, and a colon in time puts the `key` token, and the start of its
mapping, before the tokens read since. The colon is in time on the same line and within 1024
octets. In the innermost block mapping a line has to start with a key.
-/

namespace InlineSchema.Yaml

structure KeyStart where
  required : Bool
  token : Nat
  offset : Nat
  line : Nat
  column : Nat
deriving Inhabited

structure Lexer where
  cursor : Cursor
  tokens : Array Token
  /-- The columns of the open block collections, the innermost first. -/
  indents : List Nat
  /-- The key that may have started in the innermost collection. -/
  key : Option KeyStart
  /-- The same for the collections around it, one for each open flow collection. -/
  outerKeys : List (Option KeyStart)
  keyAllowed : Bool
deriving Inhabited

namespace Lexer

def ofString (text : String) : Lexer :=
  { cursor := .ofString text, tokens := #[], indents := [], key := none, outerKeys := [],
    keyAllowed := true }

def inFlow (l : Lexer) : Bool := !l.outerKeys.isEmpty

def indent (l : Lexer) : Int := l.indents.head?.elim (-1) fun n => (n : Int)

def push (l : Lexer) (t : Token) : Lexer := { l with tokens := l.tokens.push t }

def insertAt (l : Lexer) (i : Nat) (t : Token) : Lexer :=
  { l with tokens := l.tokens.insertIdxIfInBounds i t }

/-- Replaces the cursor, and decides whether a key may come next. -/
def moveTo (l : Lexer) (c : Cursor) (keyAllowed : Bool) : Lexer :=
  { l with cursor := c, keyAllowed := keyAllowed }

/-! ## Keys -/

def dropKey? (l : Lexer) : Option Lexer :=
  if l.key.any (·.required) then none else some { l with key := none }

def saveKey? (l : Lexer) : Option Lexer :=
  if l.keyAllowed then do
    let l ← l.dropKey?
    let c := l.cursor
    let start := ⟨!l.inFlow && l.indent == c.column, l.tokens.size, c.offset, c.line, c.column⟩
    some { l with key := some start }
  else some l

/-- A key whose colon can no longer come in time is none. -/
def KeyStart.refresh? (c : Cursor) : Option KeyStart → Option (Option KeyStart)
  | none => some none
  | some k =>
    if k.line < c.line || k.offset + 1024 < c.offset then if k.required then none else some none
    else some (some k)

def refreshKeys? (l : Lexer) : Option Lexer := do
  let key ← KeyStart.refresh? l.cursor l.key
  let outerKeys ← l.outerKeys.mapM (KeyStart.refresh? l.cursor)
  some { l with key := key, outerKeys := outerKeys }

/-! ## Indentation -/

/-- Opens a block collection at `column`, unless one is open there or the place is inside a flow
collection. `start` is put at the end, or before the token `i`. -/
def openBlock (l : Lexer) (column : Nat) (start : Token) (i : Option Nat) : Lexer :=
  if l.inFlow || column ≤ l.indent then l
  else
    let l := { l with indents := column :: l.indents }
    match i with
    | none => l.push start
    | some i => l.insertAt i start

def closeBlocks (l : Lexer) (column : Int) : Lexer :=
  if l.inFlow then l
  else
    let closed := l.indents.takeWhile fun (n : Nat) => column < n
    { l with
      indents := l.indents.drop closed.length
      tokens := l.tokens ++ Array.replicate closed.length Token.blockEnd }

/-! ## Between tokens -/

/-- Steps over blanks, comments and line ends; answers also whether a line ended. A tab is a blank
where it cannot be indentation: on this line if `tabs`, on the next ones in a flow collection. A
byte order mark may start a line. -/
def skipSpace (inFlow : Bool) : (fuel : Nat) → (tabs : Bool) → Cursor → Bool → Cursor × Bool
  | 0, _, c, broken => (c, broken)
  | fuel + 1, tabs, c, broken =>
    let c := if c.column == 0 && c.isAt byteOrderMark then c.skip 1 else c
    let c := c.dropWhile fun x => x == ' ' || (tabs && x == '\t')
    let c := if c.isAt '#' then c.restOfLine.2 else c
    if c.peek.any isBreak then skipSpace inFlow fuel inFlow c.skipBreak true else (c, broken)

def toToken (l : Lexer) : Lexer :=
  let c := l.cursor
  let (c, broken) := skipSpace l.inFlow (c.rest.length + 1) (l.inFlow || !l.keyAllowed) c false
  l.moveTo c (l.keyAllowed || (broken && !l.inFlow))

/-! ## Tokens -/

def indicator (l : Lexer) (t : Token) (n : Nat) (keyAllowed : Bool) : Lexer :=
  (l.push t).moveTo (l.cursor.skip n) keyAllowed

def marker? (l : Lexer) (t : Token) : Option Lexer := do
  let l ← (l.closeBlocks (-1)).dropKey?
  some (l.indicator t 3 false)

def openFlow? (l : Lexer) (t : Token) : Option Lexer := do
  let l ← l.saveKey?
  some ({ l with key := none, outerKeys := l.key :: l.outerKeys }.indicator t 1 true)

def closeFlow? (l : Lexer) (t : Token) : Option Lexer := do
  let l ← l.dropKey?
  let l := match l.outerKeys with
    | [] => l
    | k :: ks => { l with key := k, outerKeys := ks }
  some (l.indicator t 1 false)

/-- In a block collection an entry, or a key or value with an indicator, stands only where a key
may stand; it opens its collection there. -/
def startEntry? (l : Lexer) (start : Token) : Option Lexer :=
  if l.inFlow then some l
  else if l.keyAllowed then some (l.openBlock l.cursor.column start none)
  else none

def blockEntry? (l : Lexer) : Option Lexer := do
  let l ← l.startEntry? .blockSequenceStart
  let l ← l.dropKey?
  some (l.indicator .blockEntry 1 true)

def key? (l : Lexer) : Option Lexer := do
  let l ← l.startEntry? .blockMappingStart
  let l ← l.dropKey?
  some (l.indicator .key 1 !l.inFlow)

def value? (l : Lexer) : Option Lexer :=
  match l.key with
  | some k =>
    let l := (l.insertAt k.token .key).openBlock k.column .blockMappingStart k.token
    some ({ l with key := none }.indicator .value 1 false)
  | none => do
    let l ← l.startEntry? .blockMappingStart
    some (l.indicator .value 1 !l.inFlow)

/-- A token read by a reader of its own, after which no key may start. -/
def taken? (l : Lexer) (r : Option (Token × Cursor)) : Option Lexer := do
  let (t, c) ← r
  some ((l.push t).moveTo c false)

def plain? (l : Lexer) : Option Lexer := do
  let l ← l.saveKey?
  let (t, broken, c) ← l.cursor.plain? l.inFlow (l.indent + 1).toNat
  some ((l.push t).moveTo c broken)

/-- The indicators that start no plain scalar, unless the next character shows otherwise. -/
def indicators : List Char :=
  ['-', '?', ':', ',', '[', ']', '\x7b', '\x7d', '#', '&', '*', '!', '|', '>', '\'', '"', '%', '@',
    '\x60']

def startsPlain (l : Lexer) (x : Char) : Bool :=
  (!isBlank x && !indicators.contains x) ||
    (x == '-' && !(l.cursor.peekAt 1).any isBlank) ||
    (!l.inFlow && (x == '?' || x == ':') && !isBlankOrEnd (l.cursor.peekAt 1))

def token? (l : Lexer) (x : Char) : Option Lexer :=
  let c := l.cursor
  let alone := isBlankOrEnd (c.peekAt 1)
  if c.column == 0 && x == '%' then do
    let l ← (l.closeBlocks (-1)).dropKey?
    l.taken? c.directive?
  else if c.atMarker '-' then l.marker? .documentStart
  else if c.atMarker '.' then l.marker? .documentEnd
  else if x == '[' then l.openFlow? .flowSequenceStart
  else if x == '\x7b' then l.openFlow? .flowMappingStart
  else if x == ']' then l.closeFlow? .flowSequenceEnd
  else if x == '\x7d' then l.closeFlow? .flowMappingEnd
  else if x == ',' then do
    let l ← l.dropKey?
    some (l.indicator .flowEntry 1 true)
  else if x == '-' && alone then l.blockEntry?
  else if x == '?' && (l.inFlow || alone) then l.key?
  else if x == ':' && (l.inFlow || alone) then l.value?
  else if x == '*' then do
    (← l.saveKey?).taken? (c.anchorName?.map fun (n, c) => (.alias n, c))
  else if x == '&' then do
    (← l.saveKey?).taken? (c.anchorName?.map fun (n, c) => (.anchor n, c))
  else if x == '!' then do (← l.saveKey?).taken? (c.tag? l.inFlow)
  else if (x == '|' || x == '>') && !l.inFlow then do
    let l ← l.dropKey?
    let (t, c) ← c.block? (if x == '|' then .literal else .folded) l.indent
    some ((l.push t).moveTo c true)
  else if x == '\'' then do (← l.saveKey?).taken? (c.quoted? x .singleQuoted)
  else if x == '"' then do (← l.saveKey?).taken? (c.quoted? x .doubleQuoted)
  else if l.startsPlain x then l.plain?
  else none

/-- All tokens from here on; `fuel` bounds their number. -/
def run? : (fuel : Nat) → Lexer → Option (List Token)
  | 0, _ => none
  | fuel + 1, l => do
    let l ← l.toToken.refreshKeys?
    match l.cursor.peek with
    | none => (l.closeBlocks (-1)).dropKey?.map (·.tokens.toList)
    | some x => ((l.closeBlocks l.cursor.column).token? x).bind (run? fuel)

end Lexer

def Token.read? (text : String) : Option (List Token) :=
  if text.toList.all isAllowed then (Lexer.ofString text).run? (text.length + 1) else none

end InlineSchema.Yaml
