import InlineSchema.Proofs.Divergence
import InlineSchema.Proofs.Printer

/-! # Keys as text

A document and its comparison each make a text of every key. The texts are the same for scalars,
but for numbers with a positive exponent, and for empty collections; for all other keys they differ.
So the comparison reads a document tree as it reads the document exactly as far as this goes.
-/
namespace InlineSchema

/-! ## Keys with one text -/

namespace Decimal

def isLarge (d : Decimal) : Bool :=
  decide (15 < ((Nat.toDigits 10 d.digits).length : Int) - 1 + d.exponent)

theorem text_json_eq_iff (d : Decimal) : d.text .json = d.text .yaml ↔ d.isLarge = false := by
  rw [isLarge, decide_eq_false_iff_not]
  unfold text
  dsimp only
  by_cases hlarge : 15 < ((Nat.toDigits 10 d.digits).length : Int) - 1 + d.exponent
  · have hexponent : 0 ≤ ((Nat.toDigits 10 d.digits).length : Int) - 1 + d.exponent := by omega
    rw [if_pos (Or.inr hlarge), if_pos (Or.inr hlarge), if_pos hexponent, if_pos hexponent]
    refine iff_of_false (fun h => ?_) (fun h => h hlarge)
    have hlength := congrArg String.length h
    simp [FloatStyle.json, FloatStyle.yaml] at hlength
  · refine iff_of_true ?_ hlarge
    split
    next hexponent =>
      have hneg : ¬0 ≤ ((Nat.toDigits 10 d.digits).length : Int) - 1 + d.exponent := by omega
      rw [if_neg hneg, if_neg hneg]
    next => rfl

end Decimal

def Double.isLarge : Double → Bool
  | .finite _ m e => (shortest m e).isLarge
  | _ => false

theorem Double.text_json_eq_iff (x : Double) (hx : x.isFinite = true) :
    x.text .json = x.text .yaml ↔ x.isLarge = false := by
  cases x with
  | nan | infinite => cases hx
  | finite negative m e =>
    rw [Double.text, Double.text, String.append_right_inj]
    exact Decimal.text_json_eq_iff _

namespace Yaml.Value

/-- A key with the same text in a document and in its comparison: tags apart, a scalar, but no
number with a positive exponent, or an empty collection. -/
def isSharedKey : Value → Bool
  | .scalar (.number (.float x)) => !x.isLarge
  | .scalar _ => true
  | .sequence items => items.isEmpty
  | .mapping entries => entries.isEmpty
  | .tagged _ v => isSharedKey v

/-- All keys have the same text in both. -/
def SharedKeys (v : Value) : Prop := v.KeysAll fun k => k.isSharedKey = true

end Yaml.Value

theorem withoutFinalSpace_isPrefix (text : String) :
    (withoutFinalSpace text).toList <+: text.toList := by
  rw [withoutFinalSpace, String.toList_ofList]
  exact List.rdropWhile_prefix isWhiteSpace text.toList

namespace Json
open Yaml (Value)

theorem keyOf_scalar_eq_iff (s : Scalar) :
    keyOf (ofValue (.scalar s)) = keyText (.scalar s) ↔ (Value.scalar s).isSharedKey = true := by
  cases s with
  | null | bool | string => exact iff_of_true rfl rfl
  | number x =>
    cases x with
    | integer n => exact iff_of_true rfl rfl
    | float x =>
      rw [Value.isSharedKey, Bool.not_eq_true', ofValue, ofScalar]
      cases x with
      | nan => exact iff_of_true rfl rfl
      | infinite negative => exact iff_of_true rfl rfl
      | finite negative m e => exact Double.text_json_eq_iff (.finite negative m e) rfl

/-- The text of a collection that is a key, if it has a written form. -/
theorem keyText_of_ne {v : Value} (hs : ∀ s, v ≠ .scalar s) (ht : ∀ t w, v ≠ .tagged t w) :
    keyText v = "" ∨ (keyText v).toList <+: v.print.toList := by
  have htext : keyText v = (v.print?.map withoutFinalSpace).getD "" := by
    cases v with
    | scalar s => exact absurd rfl (hs s)
    | tagged t w => exact absurd rfl (ht t w)
    | sequence | mapping => rfl
  rw [htext, Value.print?]
  split
  · exact .inr (withoutFinalSpace_isPrefix _)
  · exact .inl rfl

theorem keyOf_sequence_ne (x : Value) (xs : List Value) :
    keyOf (ofValue (.sequence (x :: xs))) ≠ keyText (.sequence (x :: xs)) := by
  intro h
  have hbracket : ['['] <+: (keyOf (ofValue (.sequence (x :: xs)))).toList := by
    simp [ofValue, keyOf, compact, bracket]
  rw [h] at hbracket
  rcases keyText_of_ne (v := .sequence (x :: xs)) (by simp) (by simp) with hempty | hprefix
  · rw [hempty] at hbracket
    simp at hbracket
  · obtain ⟨rest, hrest⟩ := hbracket.trans hprefix
    obtain ⟨rest', hrest'⟩ := Value.begins_print_sequence x xs
    rw [← hrest'] at hrest
    simp at hrest

/-- An object with entries begins with a brace and the quote of its first key. -/
theorem likeObject_compact (p : String × Json) (m : Entries Json) :
    Value.LikeObject (compact (.object (p :: m))).toList := by
  obtain ⟨k, v⟩ := p
  rw [compact, compactEntries, bracket, String.toList_append, String.toList_append,
    String.toList_intercalate, List.map_cons, quote]
  cases (compactEntries m).map String.toList <;> simp [Value.LikeObject, List.intercalate]

theorem keyOf_mapping_ne (k v : Value) (es : List (Value × Value)) :
    keyOf (ofValue (.mapping ((k, v) :: es))) ≠ keyText (.mapping ((k, v) :: es)) := by
  intro h
  have hbrace : Value.LikeObject (keyOf (ofValue (.mapping ((k, v) :: es)))).toList := by
    rw [ofValue, ofEntries]
    obtain ⟨w, m, hm⟩ := Entries.exists_ofList_cons (keyOf (ofValue k), ofValue v) (ofEntries es)
    rw [hm]
    exact likeObject_compact _ m
  rw [h] at hbrace
  rcases keyText_of_ne (v := .mapping ((k, v) :: es)) (by simp) (by simp) with hempty | hprefix
  · rw [hempty] at hbrace
    simp [Value.LikeObject] at hbrace
  · exact Value.not_likeObject_print k v es (List.IsPrefix.trans hbrace hprefix)

/-- The text of a key is the same in both readings exactly for the keys above. -/
theorem keyOf_eq_keyText_iff (k : Value) :
    keyOf (ofValue k) = keyText k ↔ k.isSharedKey = true := by
  induction k using Value.induct with
  | scalar s => exact keyOf_scalar_eq_iff s
  | sequence items =>
    cases items with
    | nil => exact iff_of_true (by decide) rfl
    | cons x xs => exact iff_of_false (keyOf_sequence_ne x xs) (by simp [Value.isSharedKey])
  | mapping entries =>
    cases entries with
    | nil => exact iff_of_true (by decide) rfl
    | cons p es => exact iff_of_false (keyOf_mapping_ne p.1 p.2 es) (by simp [Value.isSharedKey])
  | tagged t v ih => exact ih

end Json

/-! ## The two readings of a value -/

namespace Json
open Yaml (Value)

theorem ofValue_toValue_ofValue {v : Value} (h : v.SharedKeys) :
    ofValue (Node.ofValue v).toValue = ofValue v := by
  have hkeys : v.KeysAll fun k => keyOf (ofValue k) = keyText k :=
    h.imp fun k => (keyOf_eq_keyText_iff k).mpr
  rw [ofValue_toValue (Node.distinct_ofValue v), ofValue_eq_ofNode_of_keysAll hkeys]

theorem ofValue_toValue_singleton {k x : Value} (hk : k.isSharedKey = false) :
    ofValue (Node.ofValue (.mapping [(k, x)])).toValue ≠ ofValue (.mapping [(k, x)]) := by
  intro h
  rw [ofValue_toValue (Node.distinct_ofValue _)] at h
  have htext : keyText k = keyOf (ofValue k) := by
    injection h with hentries
    exact congrArg Prod.fst (List.cons.inj hentries).1
  rw [(keyOf_eq_keyText_iff k).mp htext.symm] at hk
  cases hk

end Json

open Yaml (Value)

/-- A value is compared alike before and after it has become a document tree, if all its keys have
one text. Under any other key, as the only entry of a mapping, it is not. -/
theorem compared_alike_of_sharedKeys (v : Value) :
    (v.SharedKeys → Json.ofValue (Node.ofValue v).toValue = Json.ofValue v ∧
      ∀ o, Equivalence.divergence? o (Json.ofValue v)
        (Json.ofValue (Node.ofValue v).toValue) = none) ∧
      ∀ k : Value, k.isSharedKey = false →
        Json.ofValue (Node.ofValue (.mapping [(k, v)])).toValue ≠
          Json.ofValue (.mapping [(k, v)]) := by
  refine ⟨fun hv => ?_, fun k hk => Json.ofValue_toValue_singleton hk⟩
  have he := Json.ofValue_toValue_ofValue hv
  refine ⟨he, fun o => ?_⟩
  rw [he]
  exact Equivalence.divergence?_self (Json.distinct_ofValue v)

def statusValue : Value :=
  .mapping [(.scalar (.number (.integer 200)), .string "ok"),
    (.string "200", .sequence [.tagged "!t" (.mapping [(.tagged "!k" .null, .string "a")])]),
    (.sequence [], .scalar (.number (.float .nan)))]

theorem compared_alike_statusValue :
    (statusValue.SharedKeys ∧
      Json.ofValue (Node.ofValue statusValue).toValue = Json.ofValue statusValue) ∧
    (Value.sequence [.null]).isSharedKey = false ∧
      Json.ofValue (Node.ofValue (.mapping [(.sequence [.null], .null)])).toValue ≠
        Json.ofValue (.mapping [(.sequence [.null], .null)]) := by
  have hkeys : statusValue.SharedKeys := by
    refine .mapping (by decide) ?_
    simp only [List.forall_mem_cons, List.not_mem_nil, false_implies, implies_true, and_true]
    refine ⟨.scalar _, .sequence (List.forall_mem_singleton.mpr (.tagged _ ?_)), .scalar _⟩
    exact .mapping (by decide) (List.forall_mem_singleton.mpr (.scalar _))
  exact ⟨⟨hkeys, ((compared_alike_of_sharedKeys statusValue).1 hkeys).1⟩, rfl,
    (compared_alike_of_sharedKeys .null).2 (.sequence [.null]) rfl⟩

def sequenceKeyValue : Value :=
  .mapping [(.string "paths", .mapping [(.sequence [.string "a"], .string "b")])]

/-- Nothing is moved from the document, and still it diverges from what is written. -/
theorem hoist_sequenceKeyDocument_diverges :
    let source := "paths:\n ? [a]\n : b\n"
    Value.read? source = some sequenceKeyValue ∧
      extract .default (Node.ofValue sequenceKeyValue) = (Node.ofValue sequenceKeyValue, .ok []) ∧
      Json.ofValue (Node.ofValue sequenceKeyValue).toValue ≠ Json.ofValue sequenceKeyValue ∧
      hoist .default source = .error (.divergent (.missing "/paths/[\"a\"]" .original)) := by
  intro source
  have hsource : Value.read? source = some sequenceKeyValue := by decide +kernel
  have hextract : extract .default (Node.ofValue sequenceKeyValue) =
      (Node.ofValue sequenceKeyValue, .ok []) := by rfl
  have htext : (Node.ofValue sequenceKeyValue).render .yaml = "paths:\n  '- a': b\n" := by
    decide +kernel
  have hread : Value.read? "paths:\n  '- a': b\n" = some (Node.ofValue sequenceKeyValue).toValue := by
    decide +kernel
  have htransform : transform .default source = .ok ⟨"paths:\n  '- a': b\n", ⟨[]⟩⟩ :=
    (transform_eq_ok_iff (parse?_of_read? hsource)).mpr ⟨_, hextract, htext.symm⟩
  have hsome : Equivalence.divergence? .default (Json.ofValue sequenceKeyValue)
      (Json.ofValue (Node.ofValue sequenceKeyValue).toValue) =
        some (.missing "/paths/[\"a\"]" .original) := by
    cbv
  have hfind : findDivergence .default source "paths:\n  '- a': b\n" =
      .ok (some (.missing "/paths/[\"a\"]" .original)) := by
    rw [findDivergence_eq hsource hread, hsome]
  refine ⟨hsource, hextract, ?_, ?_⟩
  · intro he
    rw [he, Equivalence.divergence?_self (Json.distinct_ofValue _)] at hsome
    cases hsome
  · rw [hoist, htransform]
    change (checkEquivalence .default source "paths:\n  '- a': b\n" >>= _) = _
    rw [checkEquivalence, hfind]
    rfl

end InlineSchema
