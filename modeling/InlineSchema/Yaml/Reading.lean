import InlineSchema.Yaml.Resolution
import InlineSchema.Yaml.Token.Stream
import InlineSchema.Yaml.Tree
import InlineSchema.Yaml.Value

/-!
# Reading YAML

A value is built from the tree of a document by following its aliases. Collections nest at most
128 deep, which also ends an alias that stands inside its own node, and the number of aliases
followed is bounded by the size of the tree. Two equal keys in a mapping are refused.
-/

namespace InlineSchema.Yaml

abbrev Building := StateT Nat Option

structure Anchored where
  targets : List (Nat × Tree Nat)
  limit : Nat

namespace Anchored

def ofTree (t : Tree Nat) : Anchored := ⟨t.targets.reverse, 100 * t.weight⟩

def follow (a : Anchored) (n : Nat) : Building (Tree Nat) := do
  let count ← get
  if a.limit ≤ count then failure
  set (count + 1)
  a.targets.lookup n

end Anchored

namespace Value

def isOwn (tag : Octets) : Bool := tag.head? == some '!'.toNat.toUInt8

/-- The text of a tag of the document's own. Without a text the tag is as good as none. -/
def ownTag? (tag : Option Octets) : Option String :=
  (tag.filter isOwn).bind fun t => (if t.length == 1 then t else t.tail).text?

def withTag (tag : Option String) (v : Value) : Value := tag.elim v fun t => tagged t v

def ofScalar? (tag : Option Octets) (style : ScalarStyle) (text : String) : Option Value :=
  match tag.filter (!isOwn ·) with
  | some t => (tagged? t text).map scalar
  | none =>
    let untagged := if style == .plain then (plain? text).map scalar else some (string text)
    untagged.map (withTag (ownTag? tag))

/-- The entries of a mapping, in order, when no two keys are equal. -/
def ofEntries (inner : Tree Nat → Building Value) :
    List (Value × Value) → List (Tree Nat × Tree Nat) → Building (List (Value × Value))
  | done, [] => pure done.reverse
  | done, (k, v) :: rest => do
    let k ← inner k
    if done.any fun (l, _) => k.same l then failure
    let v ← inner v
    ofEntries inner ((k, v) :: done) rest

def ofNode (a : Anchored) (inner : Option (Tree Nat → Building Value)) (t : Tree Nat) :
    Building Value := do
  let t ← match t with
    | .alias n => a.follow n
    | t => pure t
  match t, inner with
  | .scalar p style text, _ => ofScalar? p.tag style text
  | .sequence p items, some inner => do
    let items ← items.mapM inner
    pure (withTag (ownTag? p.tag) (.sequence items))
  | .mapping p entries, some inner => do
    let entries ← ofEntries inner [] entries
    pure (withTag (ownTag? p.tag) (.mapping entries))
  | _, _ => failure

def ofTree (a : Anchored) : (depth : Nat) → Tree Nat → Building Value
  | 0 => ofNode a none
  | depth + 1 => ofNode a (some (ofTree a depth))

def depthLimit : Nat := 128

/-- The value of a text with at most one document. -/
def read? (text : String) : Option Value := do
  let tokens ← Token.read? text
  let tree ← Tree.ofTokens? tokens
  let (tree, _) ← tree.number? []
  ((ofTree (.ofTree tree) depthLimit tree).run 0).map (·.1)

end Value

end InlineSchema.Yaml
