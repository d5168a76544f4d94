import InlineSchema.Yaml.Text
import InlineSchema.Yaml.Value

/-!
# Writing YAML

Collections are written in block style, two columns deeper than what they stand in; only a
sequence right after `key:` stands at the column of the key. An empty collection is written in
brackets. A key is simple if it fits on one line of 128 octets; any other key has the indicator
`?`.
-/

namespace InlineSchema.Yaml

/-! ## Tags -/

def isPlainTagChar (c : Char) : Bool := isWord c || ";/?:@&=+$,_.~*'()[]".contains c

def tagContent (tag : String) : String :=
  String.join (tag.toList.map fun c =>
    if isPlainTagChar c then c.toString
    else String.join (c.toString.toUTF8.toList.map fun b => "%" ++ hexText 2 b.toNat))

/-- A tag of the document's own; only the tag `!` needs the verbatim form. -/
def Pen.tag (p : Pen) (tag : Option String) : Pen :=
  match tag with
  | none => p
  | some t =>
    let t := Value.bareTag t
    if t == "!" then ((p.indicator "!<" false).close (tagContent t)).close ">"
    else p.space.close ("!" ++ tagContent t)

/-- The octets of a tag that count for a key: those of its handle and of its suffix. -/
def tagWidth (tag : Option String) : Nat :=
  tag.elim 0 fun t =>
    let t := Value.bareTag t
    if t == "!" then 1 else t.utf8ByteSize + 1

/-! ## Values -/

/-- The column of what stands inside column `indent`, with `none` outside of everything. -/
def deeper (indent : Option Nat) : Nat := indent.elim 0 (· + 2)

namespace Value

def scalarText : Scalar → String
  | .null => "null"
  | .bool b => if b then "true" else "false"
  | .number n => n.text .yaml
  | .string s => s

def scalarStyle : Scalar → ScalarStyle
  | .string s => preferredStyle s
  | _ => .plain

def isSimpleKey (tag : Option String) : Value → Bool
  | .scalar s =>
    let text := scalarText s
    !isMultiline text.toList && tagWidth tag + text.utf8ByteSize ≤ 128
  | .sequence items => items.isEmpty && tagWidth tag ≤ 128
  | .mapping entries => entries.isEmpty && tagWidth tag ≤ 128
  | .tagged t v => isSimpleKey (some t) v

mutual

/-- Writes a value inside column `indent`. `inMapping` says that it is a key or a value of a
mapping, and `simpleKey` that it is a key on one line. -/
def write (indent : Option Nat) (inMapping simpleKey : Bool) (tag : Option String) :
    Value → Pen → Pen
  | .scalar s, p =>
    let text := scalarText s
    let style := chooseStyle (scalarStyle s) simpleKey text.toList
    (p.tag tag).scalar style (indent.elim 2 (· + 2)) text
  | .sequence items, p =>
    let p := p.tag tag
    if items.isEmpty then (p.indicator "[" false).close "]"
    else writeItems (if inMapping && !p.atIndent then indent.getD 0 else deeper indent) items p
  | .mapping entries, p =>
    let p := p.tag tag
    if entries.isEmpty then (p.indicator "\x7b" false).close "\x7d"
    else writeEntries (deeper indent) entries p
  | .tagged t v, p => write indent inMapping simpleKey (some t) v p

def writeItems (indent : Nat) : List Value → Pen → Pen
  | [], p => p
  | x :: xs, p =>
    writeItems indent xs (write indent false false none x ((p.startLine indent).indicator "-" true))

def writeEntries (indent : Nat) : List (Value × Value) → Pen → Pen
  | [], p => p
  | (k, v) :: xs, p =>
    let p := p.startLine indent
    let p :=
      if isSimpleKey none k then (write indent true true none k p).close ":"
      else
        ((write indent true false none k (p.indicator "?" true)).startLine indent).indicator ":" true
    writeEntries indent xs (write indent true false none v p)

end

/-- A mapping of one entry is not begun before its key shows that it is no tag. A key that waits in
the same way, or that has a tag, takes the place of the mapping. -/
def isHeldBack : Value → Bool
  | .tagged .. => true
  | .mapping [_] => true
  | _ => false

mutual

/-- Has the value a written form? A mapping of one entry has none if its key is held back too,
unless the mapping has a tag. -/
def isWritable : Value → Bool
  | .scalar _ => true
  | .sequence items => areWritable items
  | .mapping [(k, v)] => !isHeldBack k && isWritable k && isWritable v
  | .mapping entries => entriesWritable entries
  | .tagged _ (.mapping entries) => entriesWritable entries
  | .tagged _ v => isWritable v

def areWritable : List Value → Bool
  | [] => true
  | x :: xs => isWritable x && areWritable xs

def entriesWritable : List (Value × Value) → Bool
  | [] => true
  | (k, v) :: xs => isWritable k && isWritable v && entriesWritable xs

end

def print (v : Value) : String := ((write none false false none v .empty).startLine 0).text

def print? (v : Value) : Option String := if isWritable v then some v.print else none

end Value

end InlineSchema.Yaml
