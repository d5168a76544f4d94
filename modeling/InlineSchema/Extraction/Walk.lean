import InlineSchema.Extraction.Schema
import InlineSchema.Naming.PascalCase
import InlineSchema.Options
import InlineSchema.Registry

/-!
# Extraction from a schema

A walk goes down one schema and moves every object without a name that it meets into the registry,
leaving a reference in its place. The name of an object is built from the name of what it stands
in: a property adds its own name, items add `Item`, further properties `Value`, and a branch of a
composition its keyword and number. The body of a new definition is walked under its new name
before it is stored.
-/

namespace InlineSchema.Extraction

open Naming (pascalCase)

/-- The keywords under which a schema holds other schemas. -/
inductive Site where
  | branches (key : String)
  | properties
  | items
  | furtherProperties
deriving DecidableEq, Repr

namespace Site

def key : Site → String
  | .branches key => key
  | .properties => "properties"
  | .items => "items"
  | .furtherProperties => "additionalProperties"

def all : List Site :=
  Node.compositionKeys.map .branches ++ [.properties, .items, .furtherProperties]

end Site

def branchName (base key : String) (i : Nat) : String := base ++ pascalCase key ++ toString i
def propertyName (base property : String) : String := base ++ pascalCase property
def itemName (base : String) : String := base ++ "Item"
def valueName (base : String) : String := base ++ "Value"

/-- Reserves a name made from `base`, lets `walk` prepare the body under that name, and stores the
body. Gives the reference to the new definition. -/
def mint (o : Options) (base : String) (walk : String → StateM Registry Node) :
    StateM Registry Node := do
  let name ← modifyGet fun r => r.reserve base
  let body ← walk name
  modify fun r => r.define name body
  pure (Node.reference (o.refTo name))

def documented (description : String) (reference : Node) : Node :=
  .mapping [("description", Node.string description), ("allOf", .sequence [reference])]

/-- What becomes of the value of a property: a description stays where the property is used. -/
def keepDescription (value reference : Node) : Node :=
  match value.description? with
  | some d => documented d reference
  | none => reference

def setChild (key : String) (child : Option Node) (m : Entries Node) : Entries Node :=
  match child with
  | none => m
  | some child => Entries.modify key (fun _ => child) m

mutual

/-- Extracts from the schemas inside `n`, whose own name is `base`. -/
def walk (o : Options) (base : String) : Node → StateM Registry Node
  | .mapping m => do
    let changes ← Site.all.mapM fun s => do
      let child ← walkSite o base s m
      pure (s.key, child)
    pure (.mapping (changes.foldl (fun m (key, child) => setChild key child m) m))
  | n => pure n

def walkSite (o : Options) (base : String) (s : Site) :
    List (String × Node) → StateM Registry (Option Node)
  | [] => pure none
  | (k, v) :: m =>
    if k = s.key then
      match s, v with
      | .branches key, .sequence xs => do
        let xs ← walkBranches o base key 0 xs
        pure (some (.sequence xs))
      | .properties, .mapping ps => do
        let ps ← walkProperties o base ps
        pure (some (.mapping ps))
      | .items, v =>
        some <$> if v.isInlineObject then mint o (itemName base) fun name => walk o name v
          else walk o (itemName base) v
      | .furtherProperties, v =>
        some <$> if v.isInlineObject then mint o (valueName base) fun name => walk o name v
          else walk o (valueName base) v
      | _, v => pure (some v)
    else walkSite o base s m

def walkBranches (o : Options) (base key : String) (i : Nat) :
    List Node → StateM Registry (List Node)
  | [] => pure []
  | x :: xs => do
    let x ← walk o (branchName base key i) x
    let xs ← walkBranches o base key (i + 1) xs
    pure (x :: xs)

/-- The properties of a schema. Of an array of objects only the items are visited. -/
def walkProperties (o : Options) (base : String) :
    List (String × Node) → StateM Registry (List (String × Node))
  | [] => pure []
  | (k, v) :: ps => do
    let name := propertyName base k
    let v' ←
      if v.isInlineObject then keepDescription v <$> mint o name fun name => walk o name v
      else if v.isInlineObjectArray then
        match v with
        | .mapping m => do
          let items ← walkSite o name .items m
          pure (.mapping (setChild "items" items m))
        | v => pure v
      else walk o name v
    let ps ← walkProperties o base ps
    pure ((k, v') :: ps)

end

end InlineSchema.Extraction
