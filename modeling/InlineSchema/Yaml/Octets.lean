/-!
# Octets

The escapes of a tag give its octets one by one, so a tag need not be the UTF-8 form of any text.
-/

namespace InlineSchema.Yaml

abbrev Octets := List UInt8

namespace Octets

def ofString (text : String) : Octets := text.toUTF8.toList

def text? (o : Octets) : Option String := String.fromUTF8? ⟨o.toArray⟩

def beforeZero (o : Octets) : Octets := o.takeWhile (· != 0)

end Octets

end InlineSchema.Yaml
