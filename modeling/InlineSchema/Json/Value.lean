import InlineSchema.Json.Text
import InlineSchema.Yaml.Value
import InlineSchema.Yaml.Printer

/-!
# Values for comparison

Documents are compared as JSON values. A YAML value becomes one without its tags; a number that is
not finite becomes a string, and a key that is not a string becomes its JSON text.
-/

namespace InlineSchema

inductive Json where
  | scalar (value : Scalar)
  | array (items : List Json)
  | object (entries : List (String × Json))
deriving Repr, Inhabited

namespace Json

def null : Json := .scalar .null

def text? : Json → Option String
  | .scalar (.string s) => some s
  | _ => none

def entries? : Json → Option (Entries Json)
  | .object m => some m
  | _ => none

def get? (v : Json) (key : String) : Option Json := v.entries?.bind fun m => Entries.get? m key

/-! ## Text -/

mutual

def compact : Json → String
  | .scalar s => scalarText s
  | .array items => bracket "[" "]" (compactItems items)
  | .object entries => bracket "\x7b" "\x7d" (compactEntries entries)

def compactItems : List Json → List String
  | [] => []
  | x :: xs => compact x :: compactItems xs

def compactEntries : List (String × Json) → List String
  | [] => []
  | (k, v) :: xs => (quote k ++ ":" ++ compact v) :: compactEntries xs

end

/-! ## From YAML -/

def ofScalar : Scalar → Scalar
  | .number (.float x) =>
    if x.isFinite then .number (.float x) else .string (x.text .yaml)
  | s => s

def keyOf : Json → String
  | .scalar (.string s) => s
  | v => v.compact

mutual

def ofValue : Yaml.Value → Json
  | .scalar s => .scalar (ofScalar s)
  | .sequence items => .array (ofItems items)
  | .mapping entries => .object (Entries.ofList (ofEntries entries))
  | .tagged _ v => ofValue v

def ofItems : List Yaml.Value → List Json
  | [] => []
  | v :: vs => ofValue v :: ofItems vs

def ofEntries : List (Yaml.Value × Yaml.Value) → List (String × Json)
  | [] => []
  | (k, v) :: vs => (keyOf (ofValue k), ofValue v) :: ofEntries vs

end

/-! ## Equality -/

mutual

def same : Json → Json → Bool
  | .scalar a, .scalar b => a.same b
  | .array xs, .array ys => sameItems xs ys
  | .object xs, .object ys => xs.length == ys.length && sameEntries xs ys
  | _, _ => false

def sameItems : List Json → List Json → Bool
  | [], [] => true
  | x :: xs, y :: ys => same x y && sameItems xs ys
  | _, _ => false

def sameEntries : List (String × Json) → List (String × Json) → Bool
  | [], _ => true
  | (k, v) :: xs, ys =>
    (match Entries.get? ys k with
      | none => false
      | some w => same v w) && sameEntries xs ys

end

end Json

end InlineSchema
