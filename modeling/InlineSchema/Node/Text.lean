import InlineSchema.Json.Text
import InlineSchema.Node.Basic
import InlineSchema.Yaml.Printer
import InlineSchema.Yaml.Reading

/-!
# Documents as text

A document is read as YAML, which JSON is part of, and written as YAML or as JSON. Tags do not
enter the tree, and the keys of mappings become text.
-/

namespace InlineSchema

open Yaml (Value)

inductive Format where
  | yaml
  | json
deriving DecidableEq, Repr, Inhabited

namespace Format

/-- A format by its name, in any case of letters. -/
def ofName? (name : String) : Option Format :=
  let name := name.map Char.toLower
  if name == "yaml" || name == "yml" then some .yaml
  else if name == "json" then some .json
  else none

def name : Format → String
  | .yaml => "yaml"
  | .json => "json"

end Format

def isWhiteSpace (c : Char) : Bool :=
  let n := c.toNat
  (0x09 ≤ n && n ≤ 0x0D) || n == 0x20 || n == 0x85 || n == 0xA0 || n == 0x1680 ||
    (0x2000 ≤ n && n ≤ 0x200A) || n == 0x2028 || n == 0x2029 || n == 0x202F || n == 0x205F ||
    n == 0x3000

def withoutFinalSpace (text : String) : String :=
  String.ofList (text.toList.reverse.dropWhile isWhiteSpace).reverse

/-- The text of a key: scalars as they are displayed, collections as YAML without the final white
space. A collection without a written form has no text. -/
def keyText : Value → String
  | .scalar s => Value.scalarText s
  | .tagged _ v => keyText v
  | v => (v.print?.map withoutFinalSpace).getD ""

namespace Node

/-! ## Reading -/

mutual

def ofValue : Value → Node
  | .scalar s => .scalar s
  | .sequence items => .sequence (ofItems items)
  | .mapping entries => .mapping (Entries.ofList (ofEntries entries))
  | .tagged _ v => ofValue v

def ofItems : List Value → List Node
  | [] => []
  | v :: vs => ofValue v :: ofItems vs

def ofEntries : List (Value × Value) → List (String × Node)
  | [] => []
  | (k, v) :: vs => (keyText k, ofValue v) :: ofEntries vs

end

def parse? (source : String) : Option Node := (Value.read? source).map ofValue

/-! ## Writing -/

mutual

def toValue : Node → Value
  | .scalar s => .scalar s
  | .sequence items => .sequence (toItems items)
  | .mapping entries => .mapping (toEntries entries)

def toItems : List Node → List Value
  | [] => []
  | n :: ns => toValue n :: toItems ns

def toEntries : List (String × Node) → List (Value × Value)
  | [] => []
  | (k, n) :: ns => (.string k, toValue n) :: toEntries ns

end

mutual

def jsonText (depth : Nat) : Node → String
  | .scalar s => Json.scalarText s
  | .sequence items => Json.bracketLines depth "[" "]" (jsonItems (depth + 1) items)
  | .mapping entries => Json.bracketLines depth "\x7b" "\x7d" (jsonEntries (depth + 1) entries)

def jsonItems (depth : Nat) : List Node → List String
  | [] => []
  | n :: ns => jsonText depth n :: jsonItems depth ns

def jsonEntries (depth : Nat) : List (String × Node) → List String
  | [] => []
  | (k, n) :: ns => (Json.quote k ++ ": " ++ jsonText depth n) :: jsonEntries depth ns

end

def render (n : Node) : Format → String
  | .yaml => n.toValue.print
  | .json => n.jsonText 0 ++ "\n"

end Node

end InlineSchema
