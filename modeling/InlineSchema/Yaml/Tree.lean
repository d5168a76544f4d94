import InlineSchema.Yaml.Token.Basic

/-!
# The tree of a document

The tree that the tokens of a document spell, with anchors and aliases by name and with tags
resolved by the directives of the document. A text holds at most one document; a text without one
stands for an empty scalar.
-/

namespace InlineSchema.Yaml

structure Properties (α : Type) where
  anchor : Option α
  tag : Option Octets
deriving Repr, Inhabited

/-- A node, where `α` names the anchors. -/
inductive Tree (α : Type) where
  | alias (target : α)
  | scalar (properties : Properties α) (style : ScalarStyle) (text : String)
  | sequence (properties : Properties α) (items : List (Tree α))
  | mapping (properties : Properties α) (entries : List (Tree α × Tree α))
deriving Repr, Inhabited

namespace Tree

variable {α : Type}

def emptyScalar : Tree α := .scalar ⟨none, none⟩ .plain ""

/-! ## Tags -/

abbrev Handles := List (String × Octets)

def defaultHandles : Handles :=
  [("!", Octets.ofString "!"), ("!!", Octets.ofString "tag:yaml.org,2002:")]

def resolveTag? (handles : Handles) (handle : String) (suffix : Octets) : Option Octets :=
  if handle == "" then some suffix else (handles.lookup handle).map (· ++ suffix)

def properties? (handles : Handles) :
    List Token → Option (Properties String × List Token)
  | .anchor a :: .tag h s :: ts => (resolveTag? handles h s).map fun t => (⟨some a, some t⟩, ts)
  | .tag h s :: .anchor a :: ts => (resolveTag? handles h s).map fun t => (⟨some a, some t⟩, ts)
  | .anchor a :: ts => some (⟨some a, none⟩, ts)
  | .tag h s :: ts => (resolveTag? handles h s).map fun t => (⟨none, some t⟩, ts)
  | ts => some (⟨none, none⟩, ts)

/-! ## Nodes

Each reader answers with what it has read and the tokens after it; `fuel` bounds the depth of the
calls. A missing node between two tokens is an empty scalar. -/

def stopsAt (stops : List Token) (ts : List Token) : Bool := ts.head?.any stops.contains

def blockStops : List Token := [.key, .value, .blockEnd]
def flowItemStops : List Token := [.flowEntry, .flowSequenceEnd]
def flowEntryStops : List Token := [.flowEntry, .flowMappingEnd]

/-- Outside of the first place an item of a flow collection follows a comma. -/
def afterComma? (first : Bool) : List Token → Option (List Token)
  | .flowEntry :: ts => if first then some (.flowEntry :: ts) else some ts
  | ts => if first then some ts else none

mutual

/-- One node. A block collection may start here if `block`; a sequence without brackets, at the
indentation of its mapping, if `inMapping`. -/
def node? (handles : Handles) (block inMapping : Bool) :
    (fuel : Nat) → List Token → Option (Tree String × List Token)
  | 0, _ => none
  | _ + 1, .alias name :: ts => some (.alias name, ts)
  | fuel + 1, ts => do
    let (p, ts) ← properties? handles ts
    let bare := p.anchor.isNone && p.tag.isNone
    let missing := if bare then none else some (.scalar p .plain "", ts)
    match ts with
    | .scalar text style :: ts => some (.scalar p style text, ts)
    | .flowSequenceStart :: ts =>
      (flowItems? handles true fuel ts).map fun (xs, ts) => (.sequence p xs, ts)
    | .flowMappingStart :: ts =>
      (flowEntries? handles true fuel ts).map fun (xs, ts) => (.mapping p xs, ts)
    | .blockEntry :: rest =>
      if inMapping then
        (indentlessItems? handles fuel (.blockEntry :: rest)).map fun (xs, ts) => (.sequence p xs, ts)
      else missing
    | .blockSequenceStart :: ts =>
      if block then (blockItems? handles fuel ts).map fun (xs, ts) => (.sequence p xs, ts)
      else missing
    | .blockMappingStart :: ts =>
      if block then (blockEntries? handles fuel ts).map fun (xs, ts) => (.mapping p xs, ts)
      else missing
    | _ => missing

def nodeUnless? (handles : Handles) (stops : List Token) (block inMapping : Bool) :
    (fuel : Nat) → List Token → Option (Tree String × List Token)
  | 0, _ => none
  | fuel + 1, ts =>
    if stopsAt stops ts then some (emptyScalar, ts) else node? handles block inMapping fuel ts

def blockItems? (handles : Handles) :
    (fuel : Nat) → List Token → Option (List (Tree String) × List Token)
  | fuel + 1, .blockEntry :: ts => do
    let (x, ts) ← nodeUnless? handles [.blockEntry, .blockEnd] true false fuel ts
    let (xs, ts) ← blockItems? handles fuel ts
    some (x :: xs, ts)
  | _ + 1, .blockEnd :: ts => some ([], ts)
  | _, _ => none

def indentlessItems? (handles : Handles) :
    (fuel : Nat) → List Token → Option (List (Tree String) × List Token)
  | 0, _ => none
  | fuel + 1, .blockEntry :: ts => do
    let (x, ts) ← nodeUnless? handles (.blockEntry :: blockStops) true false fuel ts
    let (xs, ts) ← indentlessItems? handles fuel ts
    some (x :: xs, ts)
  | _ + 1, ts => some ([], ts)

def blockEntries? (handles : Handles) :
    (fuel : Nat) → List Token → Option (List (Tree String × Tree String) × List Token)
  | fuel + 1, .key :: ts => do
    let (k, ts) ← nodeUnless? handles blockStops true true fuel ts
    let (v, ts) ← valueUnless? handles blockStops true fuel ts
    let (xs, ts) ← blockEntries? handles fuel ts
    some ((k, v) :: xs, ts)
  | _ + 1, .blockEnd :: ts => some ([], ts)
  | _, _ => none

def valueUnless? (handles : Handles) (stops : List Token) (block : Bool) :
    (fuel : Nat) → List Token → Option (Tree String × List Token)
  | fuel + 1, .value :: ts => nodeUnless? handles stops block block fuel ts
  | _, ts => some (emptyScalar, ts)

/-- The items of a flow sequence. A single pair may stand as an item; after its `?` a token that
cannot start a key is dropped. -/
def flowItems? (handles : Handles) (first : Bool) :
    (fuel : Nat) → List Token → Option (List (Tree String) × List Token)
  | 0, _ => none
  | _ + 1, .flowSequenceEnd :: ts => some ([], ts)
  | fuel + 1, ts => do
    match ← afterComma? first ts with
    | .flowSequenceEnd :: ts => some ([], ts)
    | .key :: ts =>
      let (k, ts) ←
        if stopsAt (.value :: flowItemStops) ts then some (emptyScalar, ts.tail)
        else node? handles false false fuel ts
      let (v, ts) ← valueUnless? handles flowItemStops false fuel ts
      let (xs, ts) ← flowItems? handles false fuel ts
      some (.mapping ⟨none, none⟩ [(k, v)] :: xs, ts)
    | ts =>
      let (x, ts) ← node? handles false false fuel ts
      let (xs, ts) ← flowItems? handles false fuel ts
      some (x :: xs, ts)

def flowEntries? (handles : Handles) (first : Bool) :
    (fuel : Nat) → List Token → Option (List (Tree String × Tree String) × List Token)
  | 0, _ => none
  | _ + 1, .flowMappingEnd :: ts => some ([], ts)
  | fuel + 1, ts => do
    match ← afterComma? first ts with
    | .flowMappingEnd :: ts => some ([], ts)
    | .key :: ts =>
      let (k, ts) ← nodeUnless? handles (.value :: flowEntryStops) false false fuel ts
      let (v, ts) ← valueUnless? handles flowEntryStops false fuel ts
      let (xs, ts) ← flowEntries? handles false fuel ts
      some ((k, v) :: xs, ts)
    | ts =>
      let (k, ts) ← node? handles false false fuel ts
      let (xs, ts) ← flowEntries? handles false fuel ts
      some ((k, emptyScalar) :: xs, ts)

end

/-! ## Documents -/

def directives? (version : Bool) (handles : Handles) : List Token → Option (Handles × List Token)
  | .versionDirective :: ts => if version then none else directives? true handles ts
  | .tagDirective handle uri :: ts =>
    if (handles.lookup handle).isSome then none
    else directives? version ((handle, uri) :: handles) ts
  | .documentStart :: ts => some (handles ++ defaultHandles, ts)
  | _ => none

/-- Is the document that starts here given by a marker, with or without directives? -/
def startsExplicit : List Token → Bool
  | .versionDirective :: _ | .tagDirective .. :: _ | .documentStart :: _ => true
  | _ => false

def document? (ts : List Token) : Option (Tree String × List Token) :=
  let fuel := 4 * ts.length + 4
  if startsExplicit ts then do
    let (handles, ts) ← directives? false [] ts
    if ts.isEmpty || startsExplicit ts || ts.head? == some .documentEnd then some (emptyScalar, ts)
    else node? handles true false fuel ts
  else node? defaultHandles true false fuel ts

def ofTokens? (ts : List Token) : Option (Tree String) :=
  if ts.isEmpty then some emptyScalar
  else do
    let (tree, rest) ← document? ts
    if rest.all (· == .documentEnd) then some tree else none

/-! ## Anchors

An anchor is numbered by the distinct names before it. A name that comes again takes the same
number as the next new name, and an alias stands for the last node with its number, wherever that
node is. -/

abbrev Names := List (String × Nat)

def define (anchor : Option String) (names : Names) : Option Nat × Names :=
  match anchor with
  | none => (none, names)
  | some a => (some names.length, (a, names.length) :: names.filter (·.1 != a))

mutual

/-- Replaces the names of anchors by their numbers, in the order of the text. An alias needs an
anchor before it. -/
def number? : Tree String → Names → Option (Tree Nat × Names)
  | .alias a, names => (names.lookup a).map fun n => (.alias n, names)
  | .scalar p style text, names =>
    let (n, names) := define p.anchor names
    some (.scalar ⟨n, p.tag⟩ style text, names)
  | .sequence p items, names => do
    let (n, names) := define p.anchor names
    let (items, names) ← numberItems? items names
    some (.sequence ⟨n, p.tag⟩ items, names)
  | .mapping p entries, names => do
    let (n, names) := define p.anchor names
    let (entries, names) ← numberEntries? entries names
    some (.mapping ⟨n, p.tag⟩ entries, names)

def numberItems? : List (Tree String) → Names → Option (List (Tree Nat) × Names)
  | [], names => some ([], names)
  | x :: xs, names => do
    let (x, names) ← number? x names
    let (xs, names) ← numberItems? xs names
    some (x :: xs, names)

def numberEntries? :
    List (Tree String × Tree String) → Names → Option (List (Tree Nat × Tree Nat) × Names)
  | [], names => some ([], names)
  | (k, v) :: xs, names => do
    let (k, names) ← number? k names
    let (v, names) ← number? v names
    let (xs, names) ← numberEntries? xs names
    some ((k, v) :: xs, names)

end

def target (p : Properties α) (x : Tree α) : List (α × Tree α) :=
  p.anchor.toList.map (·, x)

mutual

def targets : Tree α → List (α × Tree α)
  | .alias _ => []
  | .scalar p style text => target p (.scalar p style text)
  | .sequence p items => target p (.sequence p items) ++ targetsOfItems items
  | .mapping p entries => target p (.mapping p entries) ++ targetsOfEntries entries

def targetsOfItems : List (Tree α) → List (α × Tree α)
  | [] => []
  | x :: xs => targets x ++ targetsOfItems xs

def targetsOfEntries : List (Tree α × Tree α) → List (α × Tree α)
  | [] => []
  | (k, v) :: xs => targets k ++ targets v ++ targetsOfEntries xs

end

mutual

/-- The size of a tree: one for a scalar or an alias, and for a collection its start and its end. -/
def weight : Tree α → Nat
  | .alias _ => 1
  | .scalar .. => 1
  | .sequence _ items => 2 + weightOfItems items
  | .mapping _ entries => 2 + weightOfEntries entries

def weightOfItems : List (Tree α) → Nat
  | [] => 0
  | x :: xs => weight x + weightOfItems xs

def weightOfEntries : List (Tree α × Tree α) → Nat
  | [] => 0
  | (k, v) :: xs => weight k + weight v + weightOfEntries xs

end

end Tree

end InlineSchema.Yaml
