import InlineSchema.Entries
import InlineSchema.Scalar

/-!
# The document tree

Scalars, sequences and mappings from text. The order of the entries is kept for the output;
`Node.same` ignores it. A place in the tree is given by a chain of mapping keys.
-/

namespace InlineSchema

inductive Node where
  | scalar (value : Scalar)
  | sequence (items : List Node)
  | mapping (entries : List (String × Node))
deriving Repr, Inhabited

namespace Node

def refKey : String := "$ref"

def string (text : String) : Node := .scalar (.string text)
def emptyMapping : Node := .mapping []

def reference (target : String) : Node := .mapping [(refKey, string target)]

def text? : Node → Option String
  | .scalar (.string s) => some s
  | _ => none

def entries? : Node → Option (Entries Node)
  | .mapping m => some m
  | _ => none

def isMapping (n : Node) : Bool := n.entries?.isSome

def get? (n : Node) (key : String) : Option Node := n.entries?.bind fun m => Entries.get? m key

/-! ## Chains of keys -/

def lookup (n : Node) (path : List String) : Option Node :=
  path.foldlM (fun n key => n.get? key) n

def modifyAt? (f : Node → Node) : List String → Node → Option Node
  | [], n => some (f n)
  | key :: path, .mapping m =>
    match Entries.get? m key with
    | none => none
    | some child =>
      (modifyAt? f path child).map fun child => .mapping (Entries.modify key (fun _ => child) m)
  | _ :: _, _ => none

def onChild {m : Type → Type} [Monad m] (key : String) (f : Node → m Node) : Node → m Node
  | .mapping entries =>
    match Entries.get? entries key with
    | none => pure (.mapping entries)
    | some child => do
      let child ← f child
      pure (.mapping (Entries.modify key (fun _ => child) entries))
  | n => pure n

def onEntries {m : Type → Type} [Monad m] (f : String → Node → m Node) : Node → m Node
  | .mapping entries => do
    let entries ← entries.mapM fun (k, v) => do
      let v ← f k v
      pure (k, v)
    pure (.mapping entries)
  | n => pure n

/-! ## Edits -/

/-- Puts a value under a key that is there, and gives back the value it had. -/
def replaceChild? (n : Node) (key : String) (value : Node) : Option (Node × Node) :=
  match n with
  | .mapping m =>
    (Entries.get? m key).map fun old => (old, .mapping (Entries.modify key (fun _ => value) m))
  | _ => none

/-- Puts a value under a key; only a mapping changes. -/
def insert (n : Node) (key : String) (value : Node) : Node :=
  match n with
  | .mapping m => .mapping (Entries.insert key value m)
  | n => n

/-- Puts a value under a key of the node at the end of a chain. Gives the value that the key had, if
it was there, and the tree. -/
def replaceChildAt (n : Node) (path : List String) (key : String) (value : Node) :
    Option Node × Node :=
  match (n.lookup path).bind (·.replaceChild? key value) with
  | none => (none, n)
  | some (old, node) => (some old, (n.modifyAt? (fun _ => node) path).getD n)

def insertAt (n : Node) (path : List String) (key : String) (value : Node) : Node :=
  (n.modifyAt? (·.insert key value) path).getD n

def erase? (n : Node) (key : String) : Option Node :=
  match n with
  | .mapping m => if Entries.contains m key then some (.mapping (Entries.erase key m)) else none
  | _ => none

/-! ## Keywords -/

/-- A mapping with a reference key, whatever else it holds. -/
def isReference (n : Node) : Bool := (n.get? refKey).isSome

/-- The description, unless it is empty. -/
def description? (n : Node) : Option String :=
  ((n.get? "description").bind text?).filter (· != "")

def declaredType? (n : Node) : Option String := (n.get? "type").bind text?

/-! ## Equality -/

mutual

def same : Node → Node → Bool
  | .scalar a, .scalar b => a.same b
  | .sequence xs, .sequence ys => sameItems xs ys
  | .mapping xs, .mapping ys => xs.length == ys.length && sameEntries xs ys
  | _, _ => false

def sameItems : List Node → List Node → Bool
  | [], [] => true
  | x :: xs, y :: ys => same x y && sameItems xs ys
  | _, _ => false

def sameEntries : List (String × Node) → List (String × Node) → Bool
  | [], _ => true
  | (k, v) :: xs, ys =>
    (match Entries.get? ys k with
      | none => false
      | some w => same v w) && sameEntries xs ys

end

end Node

end InlineSchema
