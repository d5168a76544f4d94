import InlineSchema.Proofs.Document
import InlineSchema.Proofs.NormalForm

/-! # Paths into a document

A path of keys and indices leads to one place in a tree, where a value can be replaced. What is left
of a value without its documentation is found at the same places as before.
-/
namespace InlineSchema

inductive Step where
  | key (key : String)
  | index (i : Nat)
deriving DecidableEq, Repr

namespace Node

def child? : Node → Step → Option Node
  | .mapping m, .key key => Entries.get? m key
  | .sequence xs, .index i => xs[i]?
  | _, _ => none

def follow (n : Node) (path : List Step) : Option Node := path.foldlM child? n

def replaceAt : Node → List Step → Node → Node
  | _, [], x => x
  | .mapping m, .key key :: path, x =>
    .mapping (Entries.modify key (fun v => replaceAt v path x) m)
  | .sequence xs, .index i :: path, x => .sequence (xs.modify i fun v => replaceAt v path x)
  | n, _ :: _, _ => n

theorem follow_key_eq_some {n x : Node} {key : String} {path : List Step}
    (h : n.follow (.key key :: path) = some x) :
    ∃ m v, n = .mapping m ∧ Entries.get? m key = some v ∧ v.follow path = some x := by
  obtain ⟨v, hv, hx⟩ := Option.bind_eq_some_iff.mp h
  cases n with
  | scalar => cases hv
  | sequence => cases hv
  | mapping m => exact ⟨m, v, rfl, hv, hx⟩

theorem follow_index_eq_some {n x : Node} {i : Nat} {path : List Step}
    (h : n.follow (.index i :: path) = some x) :
    ∃ xs v, n = .sequence xs ∧ xs[i]? = some v ∧ v.follow path = some x := by
  obtain ⟨v, hv, hx⟩ := Option.bind_eq_some_iff.mp h
  cases n with
  | scalar => cases hv
  | sequence xs => exact ⟨xs, v, rfl, hv, hx⟩
  | mapping => cases hv

theorem Distinct.replaceAt {n x : Node} (hn : n.Distinct) (hx : x.Distinct) (path : List Step) :
    (n.replaceAt path x).Distinct := by
  induction path generalizing n with
  | nil => exact hx
  | cons step path ih =>
    cases hn with
    | scalar s => cases step <;> exact .scalar s
    | @sequence xs h =>
      cases step with
      | key => exact .sequence h
      | index i =>
        refine .sequence fun y hy => ?_
        obtain ⟨j, hj⟩ := List.getElem?_of_mem hy
        rw [List.getElem?_modify] at hj
        obtain ⟨z, hz, rfl⟩ := Option.map_eq_some_iff.mp hj
        have hz := h z (List.mem_of_getElem? hz)
        split
        · exact ih hz
        · exact hz
    | @mapping m hm h =>
      cases step with
      | index => exact .mapping hm h
      | key key =>
        refine .mapping ((Entries.keys_modify ..).symm ▸ hm) fun p hp => ?_
        rcases Entries.exists_of_mem_modify hp with hp | ⟨v, hv, rfl⟩
        · exact h p hp
        · exact ih (h _ hv)

/-- Below a chain of keys the tree changes where the path goes on. -/
theorem lookup_replaceAt (n x : Node) (keys : List String) (path : List Step) :
    (n.replaceAt (keys.map .key ++ path) x).lookup keys =
      (n.lookup keys).map (·.replaceAt path x) := by
  induction keys generalizing n with
  | nil => rfl
  | cons key keys ih =>
    rw [Extraction.lookup_cons, Extraction.lookup_cons]
    cases n with
    | scalar => rfl
    | sequence => rfl
    | mapping m =>
      rw [List.map_cons, List.cons_append, replaceAt, get?_mapping, get?_mapping,
        Entries.get?_modify_self]
      cases Entries.get? m key with
      | none => rfl
      | some v => exact ih v

theorem lookup_append (n : Node) (keys rest : List String) :
    n.lookup (keys ++ rest) = (n.lookup keys).bind (·.lookup rest) := List.foldlM_append ..

theorem lookup_concat (n : Node) (keys : List String) (key : String) :
    n.lookup (keys ++ [key]) = (n.lookup keys).bind (·.get? key) := by
  rw [lookup_append]
  exact congrArg _ (funext fun v => bind_pure (v.get? key))

theorem get?_replaceAt_of_ne (n x : Node) {key k : String} (h : k ≠ key) (path : List Step) :
    (n.replaceAt (.key key :: path) x).get? k = n.get? k := by
  cases n with
  | scalar => rfl
  | sequence => rfl
  | mapping m => exact Entries.get?_modify_of_ne m _ h

end Node

namespace Json

def child? : Json → Step → Option Json
  | .object m, .key key => Entries.get? m key
  | .array xs, .index i => xs[i]?
  | _, _ => none

def follow (v : Json) (path : List Step) : Option Json := path.foldlM child? v

theorem follow_cons (v : Json) (step : Step) (path : List Step) :
    v.follow (step :: path) = (v.child? step).bind (·.follow path) := rfl

end Json

namespace Equivalence

/-- Behind a key there is something without documentation if the key is kept, and then it is what
was there, without its documentation. -/
theorem follow_strip_mapping {inTable : Bool} {m : Entries Node} {key : String} {v : Node}
    {path : List Step} {w : Json} (hv : Entries.get? m key = some v)
    (h : (strip inTable (Json.ofNode (.mapping m))).follow (.key key :: path) = some w) :
    (inTable || !documentationKeys.contains key) = true ∧
      (strip (!inTable && key == "properties") (Json.ofNode v)).follow path = some w := by
  rw [Json.ofNode_mapping, strip, Json.follow_cons] at h
  obtain ⟨u, hu, h⟩ := Option.bind_eq_some_iff.mp h
  change Entries.get? _ key = some u at hu
  rw [get?_stripEntries, Entries.get?_map, hv] at hu
  split at hu
  next hkey => cases hu; exact ⟨hkey, h⟩
  next => cases hu

theorem follow_strip_sequence {inTable : Bool} {xs : List Node} {i : Nat} {x : Node}
    {path : List Step} {w : Json} (hx : xs[i]? = some x)
    (h : (strip inTable (Json.ofNode (.sequence xs))).follow (.index i :: path) = some w) :
    (strip false (Json.ofNode x)).follow path = some w := by
  rw [Json.ofNode_sequence, strip, stripItems_eq_map, Json.follow_cons] at h
  obtain ⟨u, hu, h⟩ := Option.bind_eq_some_iff.mp h
  change (((xs.map Json.ofNode).map (strip false))[i]?) = some u at hu
  rw [List.getElem?_map, List.getElem?_map, hx] at hu
  cases hu
  exact h

end Equivalence
end InlineSchema
