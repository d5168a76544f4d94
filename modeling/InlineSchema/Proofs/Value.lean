import InlineSchema.Yaml.Value

/-! # Laws of YAML values

Induction over a value, the values whose keys have the same text wherever they are read as text,
and equality of values.
-/
namespace InlineSchema

namespace Yaml.Value

theorem sizeOf_lt_of_mem_mapping {es : List (Value × Value)} {p : Value × Value} (h : p ∈ es) :
    sizeOf p.2 < sizeOf (mapping es) := by
  have hp := List.sizeOf_lt_of_mem h
  obtain ⟨k, v⟩ := p
  simp only [Prod.mk.sizeOf_spec, mapping.sizeOf_spec] at hp ⊢
  omega

/-- Induction over what a value holds, except its keys. -/
@[elab_as_elim]
theorem induct {motive : Value → Prop} (scalar : ∀ s, motive (.scalar s))
    (sequence : ∀ xs, (∀ x ∈ xs, motive x) → motive (.sequence xs))
    (mapping : ∀ es, (∀ p ∈ es, motive p.2) → motive (.mapping es))
    (tagged : ∀ t v, motive v → motive (.tagged t v)) (v : Value) : motive v := by
  match v with
  | .scalar s => exact scalar s
  | .sequence xs => exact sequence xs fun x _ => induct scalar sequence mapping tagged x
  | .mapping es => exact mapping es fun p _ => induct scalar sequence mapping tagged p.2
  | .tagged t v => exact tagged t v (induct scalar sequence mapping tagged v)
termination_by v
decreasing_by
  · have := List.sizeOf_lt_of_mem ‹x ∈ xs›
    simp only [Value.sequence.sizeOf_spec]
    omega
  · exact sizeOf_lt_of_mem_mapping ‹_›
  · simp only [Value.tagged.sizeOf_spec]
    omega

/-- A string, an integer, a boolean or null, with or without a tag. -/
def isPlainKey : Value → Bool
  | .scalar (.number (.float _)) => false
  | .scalar _ => true
  | .tagged _ v => isPlainKey v
  | _ => false

inductive PlainKeys : Value → Prop
  | scalar (s : Scalar) : PlainKeys (.scalar s)
  | sequence {xs : List Value} (h : ∀ x ∈ xs, PlainKeys x) : PlainKeys (.sequence xs)
  | mapping {es : List (Value × Value)} (hk : ∀ p ∈ es, p.1.isPlainKey = true)
      (h : ∀ p ∈ es, PlainKeys p.2) : PlainKeys (.mapping es)
  | tagged (t : String) {v : Value} (h : PlainKeys v) : PlainKeys (.tagged t v)

/-- All keys have the property, and it does not matter what stands inside of them. -/
inductive KeysAll (P : Value → Prop) : Value → Prop
  | scalar (s : Scalar) : KeysAll P (.scalar s)
  | sequence {xs : List Value} (h : ∀ x ∈ xs, KeysAll P x) : KeysAll P (.sequence xs)
  | mapping {es : List (Value × Value)} (hk : ∀ p ∈ es, P p.1) (h : ∀ p ∈ es, KeysAll P p.2) :
      KeysAll P (.mapping es)
  | tagged (t : String) {v : Value} (h : KeysAll P v) : KeysAll P (.tagged t v)

theorem KeysAll.imp {P Q : Value → Prop} (hPQ : ∀ k, P k → Q k) {v : Value} (h : KeysAll P v) :
    KeysAll Q v := by
  induction h with
  | scalar s => exact .scalar s
  | sequence _ ih => exact .sequence ih
  | mapping hk _ ih => exact .mapping (fun p hp => hPQ _ (hk p hp)) ih
  | tagged t _ ih => exact .tagged t ih

theorem PlainKeys.keysAll {v : Value} (h : PlainKeys v) : KeysAll (fun k => k.isPlainKey = true) v := by
  induction h with
  | scalar s => exact .scalar s
  | sequence _ ih => exact .sequence ih
  | mapping hk _ ih => exact .mapping hk ih
  | tagged t _ ih => exact .tagged t ih

theorem plainKeys_sequence_iff (xs : List Value) :
    PlainKeys (.sequence xs) ↔ ∀ x ∈ xs, PlainKeys x :=
  ⟨fun h => match h with | .sequence h => h, .sequence⟩

theorem plainKeys_mapping_iff (es : List (Value × Value)) :
    PlainKeys (.mapping es) ↔ (∀ p ∈ es, p.1.isPlainKey = true) ∧ ∀ p ∈ es, PlainKeys p.2 :=
  ⟨fun h => match h with | .mapping hk h => ⟨hk, h⟩, fun ⟨hk, h⟩ => .mapping hk h⟩

/-! ## Equality -/

mutual

def decEq : (v w : Value) → Decidable (v = w)
  | .scalar s, .scalar t => decidable_of_iff (s = t) (by simp)
  | .sequence xs, .sequence ys =>
    match decEqItems xs ys with
    | isTrue h => isTrue (h ▸ rfl)
    | isFalse h => isFalse fun he => h (Value.sequence.inj he)
  | .mapping es, .mapping fs =>
    match decEqEntries es fs with
    | isTrue h => isTrue (h ▸ rfl)
    | isFalse h => isFalse fun he => h (Value.mapping.inj he)
  | .tagged s v, .tagged t w =>
    match decEq v w with
    | isTrue h => decidable_of_iff (s = t) (by simp [h])
    | isFalse h => isFalse fun he => h (Value.tagged.inj he).2
  | .scalar _, .sequence _ | .scalar _, .mapping _ | .scalar _, .tagged _ _
  | .sequence _, .scalar _ | .sequence _, .mapping _ | .sequence _, .tagged _ _
  | .mapping _, .scalar _ | .mapping _, .sequence _ | .mapping _, .tagged _ _
  | .tagged _ _, .scalar _ | .tagged _ _, .sequence _ | .tagged _ _, .mapping _ => isFalse nofun

def decEqItems : (xs ys : List Value) → Decidable (xs = ys)
  | [], [] => isTrue rfl
  | [], _ :: _ | _ :: _, [] => isFalse nofun
  | x :: xs, y :: ys =>
    match decEq x y, decEqItems xs ys with
    | isTrue hx, isTrue h => isTrue (by rw [hx, h])
    | isFalse hx, _ => isFalse fun he => hx (List.cons.inj he).1
    | _, isFalse h => isFalse fun he => h (List.cons.inj he).2

def decEqEntries : (es fs : List (Value × Value)) → Decidable (es = fs)
  | [], [] => isTrue rfl
  | [], _ :: _ | _ :: _, [] => isFalse nofun
  | (k, v) :: es, (l, w) :: fs =>
    match decEq k l, decEq v w, decEqEntries es fs with
    | isTrue hk, isTrue hv, isTrue h => isTrue (by rw [hk, hv, h])
    | isFalse hk, _, _ => isFalse fun he => hk (Prod.ext_iff.mp (List.cons.inj he).1).1
    | _, isFalse hv, _ => isFalse fun he => hv (Prod.ext_iff.mp (List.cons.inj he).1).2
    | _, _, isFalse h => isFalse fun he => h (List.cons.inj he).2

end

instance : DecidableEq Value := decEq

end Yaml.Value
end InlineSchema
