import InlineSchema.Node.Text
import InlineSchema.Json.Value
import InlineSchema.Proofs.Entries
import InlineSchema.Proofs.Node
import InlineSchema.Proofs.Value

/-! # Values for comparison

A document tree has a value of its own for comparison, and it is the value of its text if the text
reads back. A value that was read has distinct keys.
-/
namespace InlineSchema

namespace Json

theorem sizeOf_lt_of_mem {m : Entries Json} {p : String × Json} (h : p ∈ m) :
    sizeOf p.2 < sizeOf (object m) := by
  have hp := List.sizeOf_lt_of_mem h
  obtain ⟨k, v⟩ := p
  simp only [Prod.mk.sizeOf_spec, object.sizeOf_spec] at hp ⊢
  omega

theorem sizeOf_lt_of_mem_array {xs : List Json} {x : Json} (h : x ∈ xs) :
    sizeOf x < sizeOf (array xs) := by
  have hx := List.sizeOf_lt_of_mem h
  simp only [array.sizeOf_spec]
  omega

/-- Induction with the hypothesis for every item of an array and every value of an object. -/
@[elab_as_elim]
theorem induct {motive : Json → Prop} (scalar : ∀ s, motive (.scalar s))
    (array : ∀ xs, (∀ x ∈ xs, motive x) → motive (.array xs))
    (object : ∀ m, (∀ p ∈ m, motive p.2) → motive (.object m)) (v : Json) : motive v := by
  match v with
  | .scalar s => exact scalar s
  | .array xs => exact array xs fun x _ => induct scalar array object x
  | .object m => exact object m fun p _ => induct scalar array object p.2
termination_by v
decreasing_by
  · exact sizeOf_lt_of_mem_array ‹_›
  · exact sizeOf_lt_of_mem ‹_›

/-- `w` is the value `v` or stands in it. -/
inductive Within (w : Json) : Json → Prop
  | self : Within w w
  | item {x : Json} {xs : List Json} (hx : x ∈ xs) (h : Within w x) : Within w (.array xs)
  | value {p : String × Json} {m : Entries Json} (hp : p ∈ m) (h : Within w p.2) :
      Within w (.object m)

theorem Within.trans {u v w : Json} (h : Within u v) (h' : Within v w) : Within u w := by
  induction h' with
  | self => exact h
  | item hx _ ih => exact .item hx ih
  | value hp _ ih => exact .value hp ih

def Everywhere (P : Entries Json → Prop) (v : Json) : Prop := ∀ m, Within (.object m) v → P m

variable {P : Entries Json → Prop}

theorem Everywhere.within {v w : Json} (h : Everywhere P v) (hw : w.Within v) : Everywhere P w :=
  fun m hm => h m (hm.trans hw)

@[simp] theorem everywhere_scalar (s : Scalar) : Everywhere P (.scalar s) := by
  intro m hm
  cases hm

@[simp] theorem everywhere_array_iff (xs : List Json) :
    Everywhere P (.array xs) ↔ ∀ x ∈ xs, Everywhere P x := by
  constructor
  · exact fun h x hx => h.within (.item hx .self)
  · intro h m hm
    cases hm with
    | item hx hm => exact h _ hx m hm

@[simp] theorem everywhere_object_iff (m : Entries Json) :
    Everywhere P (.object m) ↔ P m ∧ ∀ p ∈ m, Everywhere P p.2 := by
  constructor
  · exact fun h => ⟨h m .self, fun p hp => h.within (.value hp .self)⟩
  · rintro ⟨hself, h⟩ m' hm'
    cases hm' with
    | self => exact hself
    | value hp hw => exact h _ hp m' hw

/-- No object in the value has a key twice. -/
inductive Distinct : Json → Prop
  | scalar (s : Scalar) : Distinct (.scalar s)
  | array {xs : List Json} (h : ∀ x ∈ xs, Distinct x) : Distinct (.array xs)
  | object {m : Entries Json} (hm : (Entries.keys m).Nodup) (h : ∀ p ∈ m, Distinct p.2) :
      Distinct (.object m)

theorem Distinct.nodup {m : Entries Json} (h : (Json.object m).Distinct) :
    (Entries.keys m).Nodup := by
  cases h with
  | object hm _ => exact hm

theorem Distinct.values {m : Entries Json} (h : (Json.object m).Distinct) :
    ∀ p ∈ m, p.2.Distinct := by
  cases h with
  | object _ hv => exact hv

theorem Distinct.items {xs : List Json} (h : (Json.array xs).Distinct) : ∀ x ∈ xs, x.Distinct := by
  cases h with
  | array h => exact h

/-- New values under keys that are distinct. -/
theorem distinct_object_map {α : Type} {m : Entries α} (hm : (Entries.keys m).Nodup)
    {f : String × α → Json} (h : ∀ p ∈ m, (f p).Distinct) :
    (object (m.map fun p => (p.1, f p))).Distinct := by
  refine .object ?_ (List.forall_mem_map.mpr h)
  rwa [Entries.keys_map f]

theorem text?_eq_some {v : Json} {t : String} (h : v.text? = some t) : v = .scalar (.string t) := by
  match v, h with
  | .scalar (.string _), rfl => rfl

theorem get?_object (m : Entries Json) (key : String) : (object m).get? key = Entries.get? m key := rfl

/-! ## Values that were read -/

theorem ofItems_eq_map (vs : List Yaml.Value) : ofItems vs = vs.map ofValue := by
  induction vs with
  | nil => rfl
  | cons v vs ih => rw [ofItems, ih, List.map_cons]

theorem ofEntries_eq_map (vs : List (Yaml.Value × Yaml.Value)) :
    ofEntries vs = vs.map fun p => (keyOf (ofValue p.1), ofValue p.2) := by
  induction vs with
  | nil => rfl
  | cons p vs ih =>
    obtain ⟨k, v⟩ := p
    rw [ofEntries, ih, List.map_cons]

end Json

namespace Json

theorem distinct_ofValue (v : Yaml.Value) : (ofValue v).Distinct := by
  induction v using Yaml.Value.induct with
  | scalar s => exact .scalar _
  | sequence xs ih =>
    rw [ofValue, ofItems_eq_map]
    exact .array (List.forall_mem_map.mpr ih)
  | mapping es ih =>
    rw [ofValue, ofEntries_eq_map]
    refine .object (Entries.nodup_ofList _) fun p hp => ?_
    obtain ⟨q, hq, rfl⟩ := List.mem_map.mp (Entries.mem_of_mem_ofList hp)
    exact ih q hq
  | tagged t v ih => rwa [ofValue]

/-! ## Document trees -/

mutual

def ofNode : Node → Json
  | .scalar s => .scalar (ofScalar s)
  | .sequence xs => .array (ofNodes xs)
  | .mapping m => .object (ofNodeEntries m)

def ofNodes : List Node → List Json
  | [] => []
  | n :: ns => ofNode n :: ofNodes ns

def ofNodeEntries : List (String × Node) → List (String × Json)
  | [] => []
  | (k, n) :: ns => (k, ofNode n) :: ofNodeEntries ns

end

theorem ofNodes_eq_map (ns : List Node) : ofNodes ns = ns.map ofNode := by
  induction ns with
  | nil => rfl
  | cons n ns ih => rw [ofNodes, ih, List.map_cons]

theorem ofNodeEntries_eq_map (m : Entries Node) :
    ofNodeEntries m = m.map fun p => (p.1, ofNode p.2) := by
  induction m with
  | nil => rfl
  | cons p m ih =>
    obtain ⟨k, v⟩ := p
    rw [ofNodeEntries, ih, List.map_cons]

theorem ofNode_sequence (xs : List Node) : ofNode (.sequence xs) = .array (xs.map ofNode) := by
  rw [ofNode, ofNodes_eq_map]

theorem ofNode_mapping (m : Entries Node) :
    ofNode (.mapping m) = .object (m.map fun p => (p.1, ofNode p.2)) := by
  rw [ofNode, ofNodeEntries_eq_map]

theorem within_ofNode_sequence {xs : List Node} {x : Node} (hx : x ∈ xs) :
    (ofNode x).Within (ofNode (.sequence xs)) := by
  rw [ofNode_sequence]
  exact .item (List.mem_map_of_mem hx) .self

theorem within_ofNode_mapping {m : Entries Node} {p : String × Node} (hp : p ∈ m) :
    (ofNode p.2).Within (ofNode (.mapping m)) := by
  rw [ofNode_mapping]
  exact .value (List.mem_map_of_mem (f := fun p => (p.1, ofNode p.2)) hp) .self

theorem get?_ofNode (n : Node) (key : String) : (ofNode n).get? key = (n.get? key).map ofNode := by
  cases n with
  | scalar => rfl
  | sequence => rfl
  | mapping m => rw [ofNode_mapping, get?_object, Node.get?_mapping, Entries.get?_map]

end Json

namespace Node

theorem ofItems_eq_map (vs : List Yaml.Value) : ofItems vs = vs.map ofValue := by
  induction vs with
  | nil => rfl
  | cons v vs ih => rw [ofItems, ih, List.map_cons]

theorem ofEntries_eq_map (vs : List (Yaml.Value × Yaml.Value)) :
    ofEntries vs = vs.map fun p => (keyText p.1, ofValue p.2) := by
  induction vs with
  | nil => rfl
  | cons p vs ih =>
    obtain ⟨k, v⟩ := p
    rw [ofEntries, ih, List.map_cons]

theorem toItems_eq_map (ns : List Node) : toItems ns = ns.map toValue := by
  induction ns with
  | nil => rfl
  | cons n ns ih => rw [toItems, ih, List.map_cons]

theorem toEntries_eq_map (m : Entries Node) :
    toEntries m = m.map fun p => (Yaml.Value.string p.1, toValue p.2) := by
  induction m with
  | nil => rfl
  | cons p m ih =>
    obtain ⟨k, v⟩ := p
    rw [toEntries, ih, List.map_cons]

theorem distinct_ofValue (v : Yaml.Value) : (ofValue v).Distinct := by
  induction v using Yaml.Value.induct with
  | scalar s => exact .scalar _
  | sequence xs ih =>
    rw [ofValue, ofItems_eq_map]
    exact .sequence (List.forall_mem_map.mpr ih)
  | mapping es ih =>
    rw [ofValue, ofEntries_eq_map]
    refine .mapping (Entries.nodup_ofList _) fun p hp => ?_
    obtain ⟨q, hq, rfl⟩ := List.mem_map.mp (Entries.mem_of_mem_ofList hp)
    exact ih q hq
  | tagged t v ih => rwa [ofValue]

end Node

namespace Json

/-- The text of a plain key is the same in the tree and in the comparison. -/
theorem keyOf_ofValue {k : Yaml.Value} (h : k.isPlainKey = true) : keyOf (ofValue k) = keyText k := by
  induction k using Yaml.Value.induct with
  | scalar s =>
    cases s with
    | null => rfl
    | bool b => rfl
    | string s => rfl
    | number x =>
      cases x with
      | integer n => rfl
      | float x => cases h
  | sequence => cases h
  | mapping => cases h
  | tagged t v ih => exact ih h

/-- The two readings of a value agree if they agree on its keys. -/
theorem ofValue_eq_ofNode_of_keysAll {v : Yaml.Value}
    (h : v.KeysAll fun k => keyOf (ofValue k) = keyText k) : ofValue v = ofNode (Node.ofValue v) := by
  induction h with
  | scalar s => rfl
  | sequence _ ih =>
    rw [ofValue, Node.ofValue, ofNode_sequence, ofItems_eq_map, Node.ofItems_eq_map, List.map_map]
    exact congrArg _ (List.map_congr_left ih)
  | @mapping es hk _ ih =>
    rw [ofValue, Node.ofValue, ofNode_mapping, ofEntries_eq_map, Node.ofEntries_eq_map,
      ← Entries.ofList_map, List.map_map]
    refine congrArg (fun l => object (Entries.ofList l)) (List.map_congr_left fun p hp => ?_)
    rw [Function.comp_apply, hk p hp, ih p hp]
  | tagged t _ ih => rwa [ofValue, Node.ofValue]

theorem ofValue_eq_ofNode {v : Yaml.Value} (h : v.PlainKeys) : ofValue v = ofNode (Node.ofValue v) :=
  ofValue_eq_ofNode_of_keysAll (h.keysAll.imp fun _ => keyOf_ofValue)

theorem ofValue_toValue {n : Node} (h : n.Distinct) : ofValue n.toValue = ofNode n := by
  induction h with
  | scalar s => rfl
  | sequence _ ih =>
    rw [Node.toValue, ofValue, ofNode_sequence, ofItems_eq_map, Node.toItems_eq_map, List.map_map]
    exact congrArg _ (List.map_congr_left ih)
  | @mapping m hm _ ih =>
    have he : m.map ((fun p => (keyOf (ofValue p.1), ofValue p.2)) ∘
        fun p => (Yaml.Value.string p.1, p.2.toValue)) = m.map fun p => (p.1, ofNode p.2) :=
      List.map_congr_left fun p hp => Prod.ext rfl (ih p hp)
    have hkeys : (Entries.keys (m.map fun p => (p.1, ofNode p.2))).Nodup := by
      rwa [Entries.keys_map fun p => ofNode p.2]
    rw [Node.toValue, ofValue, ofNode_mapping, ofEntries_eq_map, Node.toEntries_eq_map,
      List.map_map, he, Entries.ofList_of_nodup hkeys]

end Json
end InlineSchema
