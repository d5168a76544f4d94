import InlineSchema.Yaml.Cursor
import InlineSchema.Yaml.Token.Basic

/-!
# Tags, anchors and directives

Each reader starts at the indicator of its token and answers with the token and the place after
it, or with nothing when the text is ill formed.
-/

namespace InlineSchema.Yaml.Cursor

def octetCount? (octet : Nat) : Option Nat :=
  if octet < 0x80 then some 1
  else if octet / 0x20 == 0x06 then some 2
  else if octet / 0x10 == 0x0E then some 3
  else if octet / 0x08 == 0x1E then some 4
  else none

def escapedOctet? (c : Cursor) : Option (UInt8 × Cursor) :=
  match c.rest with
  | '%' :: a :: b :: _ => (hexNumber? [a, b]).map fun n => (n.toUInt8, c.skip 3)
  | _ => none

def escapedTail? : (count : Nat) → Cursor → Option (Octets × Cursor)
  | 0, c => some ([], c)
  | n + 1, c => do
    let (octet, c) ← c.escapedOctet?
    if octet.toNat / 0x40 == 0x02 then
      let (octets, c) ← escapedTail? n c
      some (octet :: octets, c)
    else none

/-- A sequence of octets in the form of UTF-8. Its value is not looked at. -/
def escapedChar? (c : Cursor) : Option (Octets × Cursor) := do
  let (octet, c) ← c.escapedOctet?
  let count ← octetCount? octet.toNat
  let (octets, c) ← escapedTail? (count - 1) c
  some (octet :: octets, c)

/-- A run of characters in `p`, with their escapes undone; `fuel` bounds its length. -/
def takeUri? (p : Char → Bool) : (fuel : Nat) → Cursor → Option (Octets × Cursor)
  | 0, c => some ([], c)
  | fuel + 1, c =>
    match c.rest with
    | [] => some ([], c)
    | x :: _ =>
      if x == '%' then do
        let (octets, c) ← c.escapedChar?
        let (rest, c) ← takeUri? p fuel c
        some (octets ++ rest, c)
      else if p x then do
        let (rest, c) ← takeUri? p fuel (c.skip 1)
        some (Octets.ofString x.toString ++ rest, c)
      else some ([], c)

def uri? (c : Cursor) (p : Char → Bool) : Option (Octets × Cursor) :=
  c.takeUri? p c.rest.length

/-- A handle: `!`, `!word!` or, where a suffix may follow at once, `!word`. -/
def handle? (c : Cursor) : Option (String × Cursor) :=
  if c.isAt '!' then
    let (word, c) := (c.skip 1).takeWhile isWord
    if c.isAt '!' then some (String.ofList ('!' :: word ++ ['!']), c.skip 1)
    else some (String.ofList ('!' :: word), c)
  else none

def isNamed (handle : String) : Bool := 1 < handle.length && handle.endsWith "!"

/-- The handle and the suffix of a tag, where a zero ends the suffix. A verbatim tag has the empty
handle, and so has the tag `!`, whose suffix is `!`. -/
def tagParts? (c : Cursor) : Option ((String × Octets) × Cursor) :=
  if c.peekAt 1 == some '<' then do
    let (uri, c) ← (c.skip 2).uri? isUriChar
    if uri.isEmpty || !c.isAt '>' then none else some (("", uri.beforeZero), c.skip 1)
  else do
    let (handle, c) ← c.handle?
    let (rest, c) ← c.uri? isTagChar
    if isNamed handle then
      if rest.isEmpty then none else some ((handle, rest.beforeZero), c)
    else
      match (Octets.ofString (handle.drop 1).toString ++ rest).beforeZero with
      | [] => some (("", Octets.ofString "!"), c)
      | suffix => some (("!", suffix), c)

/-- A tag ends at a blank, or in a flow collection at a comma. -/
def tag? (c : Cursor) (inFlow : Bool) : Option (Token × Cursor) := do
  let ((handle, suffix), c) ← c.tagParts?
  if (inFlow && c.isAt ',') || isBlankOrEnd c.peek then some (.tag handle suffix, c) else none

def anchorName? (c : Cursor) : Option (String × Cursor) :=
  let (word, c) := (c.skip 1).takeWhile isWord
  let ended := match c.peek with
    | none => true
    | some x => isBlank x || isBreak x || "?:,]\x7d%@\x60".contains x
  if word.isEmpty || !ended then none else some (String.ofList word, c)

def versionPart? (c : Cursor) : Option (Nat × Cursor) :=
  let (digits, c) := c.takeWhile Char.isDigit
  if digits.isEmpty || 9 < digits.length then none
  else some (digits.foldl (fun n d => 10 * n + (d.toNat - '0'.toNat)) 0, c)

/-- Versions 1.1 and 1.2 are read alike; no other is known. -/
def versionDirective? (c : Cursor) : Option (Token × Cursor) := do
  let (major, c) ← (c.dropWhile isBlank).versionPart?
  if c.isAt '.' then
    let (minor, c) ← (c.skip 1).versionPart?
    if major == 1 && (minor == 1 || minor == 2) then some (.versionDirective, c) else none
  else none

def tagDirective? (c : Cursor) : Option (Token × Cursor) := do
  let (handle, c) ← (c.dropWhile isBlank).handle?
  if (handle == "!" || isNamed handle) && c.peek.any isBlank then
    let (uri, c) ← (c.dropWhile isBlank).uri? isUriChar
    if uri.isEmpty || !isBlankOrEnd c.peek then none
    else some (.tagDirective handle uri.beforeZero, c)
  else none

def directive? (c : Cursor) : Option (Token × Cursor) := do
  let (name, c) := (c.skip 1).takeWhile isWord
  if !isBlankOrEnd c.peek then none
  let (token, c) ← match String.ofList name with
    | "YAML" => c.versionDirective?
    | "TAG" => c.tagDirective?
    | _ => none
  let c ← c.finishLine?
  some (token, c)

end InlineSchema.Yaml.Cursor
