import InlineSchema.Node.Basic

/-!
# Kinds of schemas

What makes a schema an object without a name, a composition, or an array of such objects. A
reference is none of these, whatever stands beside it.
-/

namespace InlineSchema.Node

def compositionKeys : List String := ["allOf", "anyOf", "oneOf"]

/-- An object with properties of its own, whose type is `object` or not said. -/
def isInlineObject (n : Node) : Bool :=
  n.isMapping && !n.isReference && (n.get? "properties").isSome &&
    (match n.get? "type" with
      | none => true
      | some t => t.text? == some "object")

def isComposition (n : Node) : Bool :=
  n.isMapping && !n.isReference && compositionKeys.any fun key => (n.get? key).isSome

def isInlineObjectArray (n : Node) : Bool :=
  n.declaredType? == some "array" && (n.get? "items").any isInlineObject

end InlineSchema.Node
