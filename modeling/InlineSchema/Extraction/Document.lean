import InlineSchema.Extraction.Walk

/-!
# Extraction from a document

First every definition of the table is walked under its own name, then the payloads of every
operation that has an identifier. The schema of a payload is itself moved if it is an object
without a name or a composition. At the end the new definitions join the table.
-/

namespace InlineSchema.Extraction

open Naming (pascalCase)

def methods : List String := ["get", "put", "post", "delete", "options", "head", "patch", "trace"]

def responseName (operation status : String) : String :=
  operation ++ pascalCase status ++ "Response"

def requestName (operation : String) : String := operation ++ "RequestBody"

/-- The identifier of an operation in Pascal case; an empty one does not count. -/
def operationName? (operation : Node) : Option String :=
  (((operation.get? "operationId").bind Node.text?).filter (· != "")).map pascalCase

def schemas (o : Options) (doc : Node) : StateM Registry Node :=
  match doc.lookup o.definitionsPath with
  | some (.mapping table) => do
    let table ← (Node.mapping table).onEntries (walk o)
    pure ((doc.modifyAt? (fun _ => table) o.definitionsPath).getD doc)
  | _ => pure doc

def payload (o : Options) (name : String) (schema : Node) : StateM Registry Node :=
  if schema.isInlineObject || schema.isComposition then mint o name fun name => walk o name schema
  else walk o name schema

def content (o : Options) (name : String) (holder : Node) : StateM Registry Node :=
  if holder.isReference then pure holder
  else
    holder.onChild "content" fun types =>
      types.onEntries fun _ media => media.onChild "schema" (payload o name)

def operation (o : Options) (op : Node) : StateM Registry Node :=
  match operationName? op with
  | none => pure op
  | some name => do
    let op ← op.onChild "responses" fun responses =>
      responses.onEntries fun status => content o (responseName name status)
    op.onChild "requestBody" (content o (requestName name))

def paths (o : Options) (doc : Node) : StateM Registry Node :=
  doc.onChild "paths" fun paths =>
    paths.onEntries fun _ item =>
      item.onEntries fun key op => if methods.contains key then operation o op else pure op

def run (o : Options) (doc : Node) : StateM Registry Node := do
  let doc ← schemas o doc
  paths o doc

end InlineSchema.Extraction

namespace InlineSchema

/-- Moves every object without a name into the definitions table. Gives the document and the new
names; where the table cannot take them, the document has the references already. -/
def extract (o : Options) (doc : Node) : Node × Except Failure (List String) :=
  let (doc, registry) := (Extraction.run o doc).run .empty
  registry.merge o.definitionsPath doc

end InlineSchema
