import InlineSchema.Node.Text
import InlineSchema.Pointer

/-!
# Options of a run

Where the definitions table stands, and the form of the output. The place of the table also gives
the references to definitions their form, `#/components/schemas/Pet`.
-/

namespace InlineSchema

structure Options where
  /-- The keys that lead to the definitions table. -/
  definitionsPath : List String
  format : Format
deriving DecidableEq, Repr

namespace Options

/-- The table of an OpenAPI 3 document, and YAML. -/
def default : Options := ⟨["components", "schemas"], .yaml⟩

instance : Inhabited Options := ⟨default⟩

/-- The same options with the table at a place given as text, `components/schemas` or
`#/definitions`. -/
def withDefinitions (o : Options) (path : String) : Options :=
  { o with definitionsPath := Pointer.segments path }

def withFormat (o : Options) (format : Format) : Options := { o with format := format }

def refPrefixChars (o : Options) : List Char :=
  '#' :: '/' :: o.definitionsPath.flatMap fun s => Pointer.escapeChars s.toList ++ ['/']

def refPrefix (o : Options) : String := String.ofList o.refPrefixChars

def refTo (o : Options) (name : String) : String :=
  String.ofList (o.refPrefixChars ++ Pointer.escapeChars name.toList)

/-- The definition that a reference names, if it points into the table. -/
def definitionName? (o : Options) (reference : String) : Option String :=
  let start := o.refPrefixChars
  let cs := reference.toList
  let name := cs.drop start.length
  if start.isPrefixOf cs && !name.isEmpty && !name.contains '/' then
    some (String.ofList (Pointer.unescapeChars name))
  else none

end Options

end InlineSchema
