import InlineSchema.Yaml.Octets

/-!
# Tokens of YAML

Indentation has become brackets: a block collection starts with `blockSequenceStart` or
`blockMappingStart` and ends with `blockEnd`. A sequence that stands at the indentation of its
parent mapping has no brackets of its own.
-/

namespace InlineSchema.Yaml

inductive ScalarStyle where
  | plain
  | singleQuoted
  | doubleQuoted
  | literal
  | folded
deriving DecidableEq, Repr, Inhabited

inductive Token where
  | versionDirective
  | tagDirective (handle : String) (uri : Octets)
  | documentStart
  | documentEnd
  | blockSequenceStart
  | blockMappingStart
  | blockEnd
  | flowSequenceStart
  | flowSequenceEnd
  | flowMappingStart
  | flowMappingEnd
  | blockEntry
  | flowEntry
  | key
  | value
  | alias (name : String)
  | anchor (name : String)
  | tag (handle : String) (suffix : Octets)
  | scalar (text : String) (style : ScalarStyle)
deriving DecidableEq, Repr, Inhabited

end InlineSchema.Yaml
