import InlineSchema.Extraction.Schema
import InlineSchema.Proofs.Entries

/-! # Laws of the document tree

Induction over a tree, whose mappings and sequences hold trees in lists, one step down a chain of
keys, and the first facts on references and objects without a name.
-/
namespace InlineSchema.Node

theorem sizeOf_lt_of_mem {m : Entries Node} {p : String × Node} (h : p ∈ m) :
    sizeOf p.2 < sizeOf (mapping m) := by
  have hp := List.sizeOf_lt_of_mem h
  obtain ⟨k, v⟩ := p
  simp only [Prod.mk.sizeOf_spec, mapping.sizeOf_spec] at hp ⊢
  omega

theorem sizeOf_lt_of_mem_sequence {xs : List Node} {x : Node} (h : x ∈ xs) :
    sizeOf x < sizeOf (sequence xs) := by
  have hx := List.sizeOf_lt_of_mem h
  simp only [sequence.sizeOf_spec]
  omega

/-- Induction with the hypothesis for every item of a sequence and every value of a mapping. -/
@[elab_as_elim]
theorem induct {motive : Node → Prop} (scalar : ∀ s, motive (.scalar s))
    (sequence : ∀ xs, (∀ x ∈ xs, motive x) → motive (.sequence xs))
    (mapping : ∀ m, (∀ p ∈ m, motive p.2) → motive (.mapping m)) (n : Node) : motive n := by
  match n with
  | .scalar s => exact scalar s
  | .sequence xs => exact sequence xs fun x _ => induct scalar sequence mapping x
  | .mapping m => exact mapping m fun p _ => induct scalar sequence mapping p.2
termination_by n
decreasing_by
  · exact sizeOf_lt_of_mem_sequence ‹_›
  · exact sizeOf_lt_of_mem ‹_›

/-- No mapping in the tree has a key twice. -/
inductive Distinct : Node → Prop
  | scalar (s : Scalar) : Distinct (.scalar s)
  | sequence {xs : List Node} (h : ∀ x ∈ xs, Distinct x) : Distinct (.sequence xs)
  | mapping {m : Entries Node} (hm : (Entries.keys m).Nodup) (h : ∀ p ∈ m, Distinct p.2) :
      Distinct (.mapping m)

theorem Distinct.items {xs : List Node} (h : (Node.sequence xs).Distinct) : ∀ x ∈ xs, x.Distinct := by
  cases h with
  | sequence h => exact h

theorem Distinct.values {m : Entries Node} (h : (Node.mapping m).Distinct) : ∀ p ∈ m, p.2.Distinct := by
  cases h with
  | mapping _ h => exact h

theorem Distinct.nodup {m : Entries Node} (h : (Node.mapping m).Distinct) : (Entries.keys m).Nodup := by
  cases h with
  | mapping hm _ => exact hm

theorem Distinct.get? {n v : Node} {key : String} (h : n.Distinct) (hv : n.get? key = some v) :
    v.Distinct := by
  cases n with
  | scalar => cases hv
  | sequence => cases hv
  | mapping m => exact h.values _ (Entries.mem_of_get? hv)

theorem Distinct.modify {m : Entries Node} (h : (Node.mapping m).Distinct) (key : String) {v : Node}
    (hv : v.Distinct) : (Node.mapping (Entries.modify key (fun _ => v) m)).Distinct := by
  refine .mapping ((Entries.keys_modify key _ m).symm ▸ h.nodup) fun p hp => ?_
  rcases Entries.mem_modify hp with rfl | hp
  · exact hv
  · exact h.values p hp

theorem get?_mapping (m : Entries Node) (key : String) :
    (mapping m).get? key = Entries.get? m key := rfl

/-! ## Chains of keys -/

theorem lookup_cons_eq_some {n v : Node} {key : String} {path : List String}
    (h : n.lookup (key :: path) = some v) :
    ∃ m child, n = .mapping m ∧ Entries.get? m key = some child ∧ child.lookup path = some v := by
  obtain ⟨child, hc, hv⟩ := Option.bind_eq_some_iff.mp h
  cases n with
  | scalar | sequence => cases hc
  | mapping m => exact ⟨m, child, rfl, hc, hv⟩

/-- A change below a key is a change of the value of that key. -/
theorem modifyAt?_cons_eq_some {f : Node → Node} {n n' : Node} {key : String} {path : List String}
    (h : n.modifyAt? f (key :: path) = some n') :
    ∃ m child child', n = .mapping m ∧ Entries.get? m key = some child ∧
      child.modifyAt? f path = some child' ∧
      n' = .mapping (Entries.modify key (fun _ => child') m) := by
  cases n with
  | scalar | sequence => cases h
  | mapping m =>
    rw [modifyAt?] at h
    split at h
    next => cases h
    next child hc =>
      obtain ⟨child', hc', rfl⟩ := Option.map_eq_some_iff.mp h
      exact ⟨m, child, child', rfl, hc, hc', rfl⟩

theorem modifyAt?_mapping_cons {f : Node → Node} {m : Entries Node} {key : String}
    {path : List String} {child child' : Node} (hc : Entries.get? m key = some child)
    (hc' : child.modifyAt? f path = some child') :
    (mapping m).modifyAt? f (key :: path) =
      some (.mapping (Entries.modify key (fun _ => child') m)) := by
  simp only [modifyAt?, hc, hc', Option.map_some]

/-! ## What stands in a tree -/

/-- `y` is the tree `n` or stands in it. -/
inductive Within (y : Node) : Node → Prop
  | self : Within y y
  | item {x : Node} {xs : List Node} (hx : x ∈ xs) (h : Within y x) : Within y (.sequence xs)
  | value {p : String × Node} {m : Entries Node} (hp : p ∈ m) (h : Within y p.2) :
      Within y (.mapping m)

theorem Within.trans {x y z : Node} (h : Within x y) (h' : Within y z) : Within x z := by
  induction h' with
  | self => exact h
  | item hx _ ih => exact .item hx ih
  | value hp _ ih => exact .value hp ih

theorem Within.values {n : Node} {m : Entries Node} (h : Within (.mapping m) n) :
    ∀ p ∈ m, Within p.2 n := fun _ hp => (Within.value hp .self).trans h

theorem within_of_get? {n v : Node} {key : String} (h : n.get? key = some v) : Within v n := by
  cases n with
  | scalar => cases h
  | sequence => cases h
  | mapping m => exact Within.self.values _ (Entries.mem_of_get? h)

/-- Somewhere in the tree a reference key has this text, whatever stands beside it. -/
def RefersTo (n : Node) (target : String) : Prop :=
  ∃ m, Within (.mapping m) n ∧ (refKey, string target) ∈ m

theorem RefersTo.within {n x : Node} {target : String} (h : RefersTo x target) (hx : Within x n) :
    RefersTo n target := by
  obtain ⟨m, hm, ht⟩ := h
  exact ⟨m, hm.trans hx, ht⟩

theorem not_refersTo_scalar (s : Scalar) (target : String) : ¬RefersTo (.scalar s) target := by
  rintro ⟨m, hm, -⟩
  cases hm

theorem refersTo_sequence_iff (xs : List Node) (target : String) :
    RefersTo (.sequence xs) target ↔ ∃ x ∈ xs, RefersTo x target := by
  constructor
  · rintro ⟨m', hm', ht⟩
    cases hm' with
    | item hx hw => exact ⟨_, hx, m', hw, ht⟩
  · rintro ⟨x, hx, h⟩
    exact h.within (.item hx .self)

theorem refersTo_mapping_iff (m : Entries Node) (target : String) :
    RefersTo (.mapping m) target ↔
      (refKey, string target) ∈ m ∨ ∃ p ∈ m, RefersTo p.2 target := by
  constructor
  · rintro ⟨m', hm', ht⟩
    cases hm' with
    | self => exact .inl ht
    | value hp hw => exact .inr ⟨_, hp, m', hw, ht⟩
  · rintro (h | ⟨p, hp, h⟩)
    · exact ⟨m, .self, h⟩
    · exact h.within (.value hp .self)

/-! ## Kinds of schemas -/

theorem isMapping_of_isInlineObject {n : Node} (h : n.isInlineObject = true) :
    ∃ m, n = .mapping m := by
  cases n with
  | mapping m => exact ⟨m, rfl⟩
  | scalar => cases h
  | sequence => cases h

theorem isReference_of_isInlineObject {n : Node} (h : n.isInlineObject = true) :
    n.isReference = false := by
  simp only [isInlineObject, Bool.and_eq_true, Bool.not_eq_true'] at h
  exact h.1.1.2

/-- What becomes a definition is a mapping without a reference. -/
theorem mapping_of_moved {n : Node} (h : (n.isInlineObject || n.isComposition) = true) :
    ∃ m, n = .mapping m ∧ n.isReference = false := by
  cases n with
  | scalar | sequence => cases h
  | mapping m =>
    simp only [isInlineObject, isComposition, Bool.or_eq_true, Bool.and_eq_true,
      Bool.not_eq_true'] at h
    exact ⟨m, rfl, h.elim (·.1.1.2) (·.1.2)⟩

theorem items_of_isInlineObjectArray {m : Entries Node}
    (h : (mapping m).isInlineObjectArray = true) :
    ∃ v, Entries.get? m "items" = some v ∧ v.isInlineObject = true := by
  simp only [isInlineObjectArray, Bool.and_eq_true] at h
  rw [get?_mapping] at h
  cases hv : Entries.get? m "items" with
  | none => rw [hv] at h; cases h.2
  | some v => rw [hv] at h; exact ⟨v, rfl, h.2⟩

end InlineSchema.Node
