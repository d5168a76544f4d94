import InlineSchema.Proofs.Divergence
import InlineSchema.Proofs.Preservation
import InlineSchema.Proofs.Simulation

/-! # The comparison is sound

Forms are finite, and references in them that lead back into a definition that is being expanded stay
closed. Still, if the comparison finds no divergence, a reader that follows references to any depth
cannot tell the documents apart.
-/
namespace InlineSchema

namespace Equivalence

/-- A reference into the definitions stands alone, and is no table of properties. -/
def BareLink (o : Options) (m : Entries Json) : Prop :=
  (pointed? o m ≠ none → ∃ target, Json.object m = reference target) ∧
    ∀ m', ("properties", .object m') ∈ m → pointed? o m' = none

/-- A reference into the definitions has a definition of its name. -/
def KnownLink (o : Options) (table : Entries Json) (m : Entries Json) : Prop :=
  ∀ name, pointed? o m = some name → Entries.get? table name ≠ none

/-- What the reference key holds is no mapping that comes down to a text which points into the
definitions. -/
def WrittenLink (o : Options) (table : Entries Json) (m : Entries Json) : Prop :=
  ∀ y, Entries.get? m Node.refKey = some y → y.text? = none →
    ∀ c target, ComesDown table o false y c (.scalar (.string target)) →
      o.definitionName? target = none

theorem readable_of_everywhere {o : Options} {table : Entries Json} {known : String → Prop} {v : Json}
    (hv : v.Distinct) (hbare : v.Everywhere (BareLink o))
    (hwritten : v.Everywhere (WrittenLink o table))
    (hknown : v.Everywhere fun m => ∀ name, pointed? o m = some name → known name) :
    Readable o table known false v where
  distinct := hv
  bare m hm := (hbare m hm).1
  beside m m' hm := (hbare m hm).2 m'
  text m y hm := hwritten m hm y
  known m name hm := hknown m hm name
  table := nofun

/-- Two documents of which the comparison finds every definition of the first in the second, and
alike. -/
theorem paired_of_divergence? {o : Options} {a b : Json} (ha : a.Distinct) (hb : b.Distinct)
    (hbare : a.Everywhere (BareLink o)) (hbare' : b.Everywhere (BareLink o))
    (hknown : a.Everywhere (KnownLink o (definitions o a)))
    (hwritten : a.Everywhere (WrittenLink o (definitions o a)))
    (hwritten' : b.Everywhere (WrittenLink o (definitions o b)))
    (h : divergence? o a b = none) :
    Paired o (definitions o a) (definitions o b)
      (fun name => Entries.get? (definitions o a) name ≠ none) (fun _ => True) := by
  obtain ⟨-, hdefinitions⟩ := (divergence?_eq_none_iff o a b).mp h
  have hrelated (name : String) (body : Json)
      (hbody : Entries.get? (definitions o a) name = some body) :
      ∃ body', Entries.get? (definitions o b) name = some body' ∧
        Related o (definitions o a) (definitions o b) false body false body' := by
    obtain ⟨body', hbody', halike⟩ := hdefinitions (name, body) (Entries.mem_of_get? hbody)
    exact ⟨body', hbody', [name], [name], halike⟩
  constructor
  case left =>
    intro p hp
    have hwithin := within_of_mem_definitions hp
    exact readable_of_everywhere (distinct_of_mem_definitions ha p hp) (hbare.within hwithin)
      (hwritten.within hwithin) (hknown.within hwithin)
  case right =>
    intro p hp
    have hwithin := within_of_mem_definitions hp
    exact readable_of_everywhere (distinct_of_mem_definitions hb p hp) (hbare'.within hwithin)
      (hwritten'.within hwithin) fun _ _ _ _ => trivial
  case forth => exact fun name body hbody _ => hrelated name body hbody
  case back =>
    intro name body' hbody' hname
    obtain ⟨body, hbody⟩ := Option.ne_none_iff_exists'.mp hname
    obtain ⟨body'', hbody'', h⟩ := hrelated name body hbody
    rw [hbody'] at hbody''
    cases hbody''
    exact ⟨body, hbody, h⟩

/-- What stands at the paths of a document, which is null if it has none. -/
def pathsOf (doc : Json) : Json := (doc.get? "paths").getD .null

theorem preparedPaths_eq (o : Options) (doc : Json) :
    preparedPaths o doc = form (definitions o doc) o false [] (pathsOf doc) := by
  rw [preparedPaths, pathsOf]
  cases doc.get? "paths" with
  | none => rw [Option.getD_none, Json.null, form_scalar]
  | some v => rfl

theorem pathsOf_within (doc : Json) : (pathsOf doc).Within doc ∨ pathsOf doc = .null := by
  rw [pathsOf]
  cases h : doc.get? "paths" with
  | none => exact .inr rfl
  | some v => exact .inl (Json.within_of_get? h)

theorem everywhere_pathsOf {P : Entries Json → Prop} {doc : Json} (h : doc.Everywhere P) :
    (pathsOf doc).Everywhere P := by
  rcases pathsOf_within doc with hwithin | hnull
  · exact h.within hwithin
  · rw [hnull]
    exact Json.everywhere_scalar _

theorem distinct_pathsOf {doc : Json} (h : doc.Distinct) : (pathsOf doc).Distinct := by
  rw [pathsOf]
  cases hv : doc.get? "paths" with
  | none => exact .scalar _
  | some v => exact h.get? hv

end Equivalence

open InlineSchema.Equivalence Yaml

/-- If the comparison finds no divergence, the two documents cannot be told apart: along every path
from their paths or from a definition of the first they show the same scalars, arrays of one length
and mappings with the same keys, or both show nothing. -/
theorem findDivergence_sound (o : Options) (original transformed : String) (v w : Value)
    (hv : Value.read? original = some v) (hw : Value.read? transformed = some w)
    (hbare : (Json.ofValue v).Everywhere (BareLink o))
    (hbare' : (Json.ofValue w).Everywhere (BareLink o))
    (hknown : (Json.ofValue v).Everywhere (KnownLink o (definitions o (Json.ofValue v))))
    (hwritten : (Json.ofValue v).Everywhere (WrittenLink o (definitions o (Json.ofValue v))))
    (hwritten' : (Json.ofValue w).Everywhere (WrittenLink o (definitions o (Json.ofValue w))))
    (h : findDivergence o original transformed = .ok none) :
    LookAlike o (definitions o (Json.ofValue v)) (definitions o (Json.ofValue w))
        (pathsOf (Json.ofValue v)) (pathsOf (Json.ofValue w)) ∧
      ∀ name body, Entries.get? (definitions o (Json.ofValue v)) name = some body →
        ∃ body', Entries.get? (definitions o (Json.ofValue w)) name = some body' ∧
          LookAlike o (definitions o (Json.ofValue v)) (definitions o (Json.ofValue w)) body
            body' := by
  have hdistinct := Json.distinct_ofValue v
  have hdistinct' := Json.distinct_ofValue w
  have hnone : divergence? o (Json.ofValue v) (Json.ofValue w) = none := by
    rw [findDivergence_eq hv hw] at h
    exact Except.ok.inj h
  have hp := paired_of_divergence? hdistinct hdistinct' hbare hbare' hknown hwritten hwritten' hnone
  obtain ⟨hpaths, -⟩ := (divergence?_eq_none_iff ..).mp hnone
  constructor
  · refine Related.lookAlike hp ?_ ?_ ⟨[], [], ?_⟩
    · exact readable_of_everywhere (distinct_pathsOf hdistinct) (everywhere_pathsOf hbare)
        (everywhere_pathsOf hwritten) (everywhere_pathsOf hknown)
    · exact readable_of_everywhere (distinct_pathsOf hdistinct') (everywhere_pathsOf hbare')
        (everywhere_pathsOf hwritten') fun _ _ _ _ => trivial
    · rwa [preparedPaths_eq, preparedPaths_eq] at hpaths
  · intro name body hbody
    obtain ⟨body', hbody', hrelated⟩ := hp.forth name body hbody trivial
    exact ⟨body', hbody', Related.lookAlike hp (hp.left _ (Entries.mem_of_get? hbody))
      (hp.right _ (Entries.mem_of_get? hbody')) hrelated⟩

def cyclicValue (q : Value) (others : List (Value × Value)) : Value :=
  .mapping [(.string "d", .mapping ((.string "A", .mapping [(.string "q", q)]) :: others))]

def cyclicBody (q : Json) : Json := .object [("q", q)]

theorem form_cyclicBody (o : Options) (table : Entries Json) (visited : List String) (q : Json) :
    form table o false visited (cyclicBody q) = cyclicBody (form table o false visited q) := by
  simp [cyclicBody, form_object, hasReference, Node.refKey, kept, documentationKeys, closed_of_keys,
    Node.compositionKeys]

/-- A definition that refers to itself, and one that does so through another definition. -/
theorem findDivergence_cyclic :
    let o : Options := ⟨["d"], .yaml⟩
    findDivergence o "d:\n A:\n  q:\n   $ref: '#/d/A'\n"
        "d:\n A:\n  q:\n   $ref: '#/d/B'\n B:\n  $ref: '#/d/A'\n" = .ok none ∧
      LookAlike o [("A", cyclicBody (reference "#/d/A"))]
        [("A", cyclicBody (reference "#/d/B")), ("B", reference "#/d/A")]
        (cyclicBody (reference "#/d/A")) (cyclicBody (reference "#/d/B")) := by
  intro o
  let v := cyclicValue (.mapping [(.string "$ref", .string "#/d/A")]) []
  let w := cyclicValue (.mapping [(.string "$ref", .string "#/d/B")])
    [(.string "B", .mapping [(.string "$ref", .string "#/d/A")])]
  have hv : Value.read? "d:\n A:\n  q:\n   $ref: '#/d/A'\n" = some v := by decide +kernel
  have hw : Value.read? "d:\n A:\n  q:\n   $ref: '#/d/B'\n B:\n  $ref: '#/d/A'\n" = some w := by
    decide +kernel
  have ha : Json.ofValue v = .object [("d", .object [("A", cyclicBody (reference "#/d/A"))])] := rfl
  have hb : Json.ofValue w = .object [("d", .object
      [("A", cyclicBody (reference "#/d/B")), ("B", reference "#/d/A")])] := rfl
  have hname : o.definitionName? "#/d/A" = some "A" := by decide
  have hname' : o.definitionName? "#/d/B" = some "B" := by decide
  have hclosed (table : Entries Json) (visited : List String) (h : "A" ∈ visited) :
      form table o false visited (reference "#/d/A") = reference "#/d/A" :=
    form_reference_of_none (by simp [hname, h]) false
  have hnone : findDivergence o "d:\n A:\n  q:\n   $ref: '#/d/A'\n"
      "d:\n A:\n  q:\n   $ref: '#/d/B'\n B:\n  $ref: '#/d/A'\n" = .ok none := by
    rw [findDivergence_eq hv hw, ha, hb]
    refine congrArg Except.ok ((divergence?_eq_none_iff ..).mpr ⟨.scalar rfl, ?_⟩)
    refine List.forall_mem_singleton.mpr ⟨cyclicBody (reference "#/d/B"), rfl, ?_⟩
    change Alike (form _ o false ["A"] (cyclicBody _)) (form _ o false ["A"] (cyclicBody _))
    rw [form_cyclicBody, form_cyclicBody, hclosed _ _ List.mem_cons_self,
      form_reference hname' (by decide) rfl, hclosed _ _ (List.mem_cons_of_mem _ List.mem_cons_self)]
    exact (difference_eq_none_iff _ _ "").mp rfl
  have hknown : Entries.get? (definitions o (Json.ofValue v)) "A" ≠ none := nofun
  obtain ⟨-, hlook⟩ := findDivergence_sound o _ _ v w hv hw
    (by simp [ha, cyclicBody, BareLink, reference, pointed?, Node.refKey, Json.text?])
    (by simp [hb, cyclicBody, BareLink, reference, pointed?, Node.refKey, Json.text?])
    (by
      rw [ha] at hknown ⊢
      simpa [cyclicBody, KnownLink, reference, pointed?, Node.refKey, Json.text?, hname] using hknown)
    (by simp [ha, cyclicBody, WrittenLink, reference, Node.refKey, Json.text?])
    (by simp [hb, cyclicBody, WrittenLink, reference, Node.refKey, Json.text?]) hnone
  obtain ⟨body', hbody', h⟩ := hlook "A" _ rfl
  cases hbody'
  exact ⟨hnone, h⟩

def hiddenReference : Json :=
  .object [("$ref", .object [("oneOf", .array [.scalar (.string "#/d/A")])])]

theorem form_hiddenReference (o : Options) (table : Entries Json) (visited : List String) :
    form table o false visited hiddenReference = reference "#/d/A" := by
  have hkept : kept false [("oneOf", Json.array [.scalar (.string "#/d/A")])] =
      [("oneOf", .array [.scalar (.string "#/d/A")])] := rfl
  have hbranch : form table o false visited (.object [("oneOf", .array [.scalar (.string "#/d/A")])]) =
      .scalar (.string "#/d/A") := by
    rw [form_of_kept hkept rfl, form_array, List.map_singleton, form_scalar]
    rfl
  simp [hiddenReference, form_object, hasReference, Node.refKey, Json.text?, kept,
    documentationKeys, hbranch, closed_of_keys, Node.compositionKeys, reference]

/-- Behind a cycle such a mapping goes unnoticed: in the one document the definition refers to
itself, in the other it does not. -/
theorem findDivergence_hiddenReference :
    let o : Options := ⟨["d"], .yaml⟩
    let original := "d:\n A:\n  q:\n   $ref: '#/d/A'\n"
    let transformed := "d:\n A:\n  q:\n   $ref:\n    oneOf:\n    - '#/d/A'\n"
    let v := cyclicValue (.mapping [(.string "$ref", .string "#/d/A")]) []
    let w := cyclicValue (.mapping [(.string "$ref", .mapping [(.string "oneOf",
      .sequence [.string "#/d/A"])])]) []
    let body := cyclicBody (reference "#/d/A")
    let body' := cyclicBody hiddenReference
    Value.read? original = some v ∧ Value.read? transformed = some w ∧
      (Json.ofValue v).BareReferences ∧ (Json.ofValue w).BareReferences ∧
      (Json.ofValue v).Everywhere (KnownLink o (definitions o (Json.ofValue v))) ∧
      definitions o (Json.ofValue v) = [("A", body)] ∧
      definitions o (Json.ofValue w) = [("A", body')] ∧
      findDivergence o original transformed = .ok none ∧
      ¬LookAlike o [("A", body)] [("A", body')] body body' := by
  intro o original transformed v w body body'
  have hv : Value.read? original = some v := by decide +kernel
  have hw : Value.read? transformed = some w := by decide +kernel
  have ha : Json.ofValue v = .object [("d", .object [("A", body)])] := rfl
  have hb : Json.ofValue w = .object [("d", .object [("A", body')])] := rfl
  have hname : o.definitionName? "#/d/A" = some "A" := by decide
  refine ⟨hv, hw, ?_, ?_, ?_, rfl, rfl, ?_, ?_⟩
  · simp [ha, body, cyclicBody, reference, Json.bareReferences_object_iff,
      Json.bareReferences_scalar, hasReference, Node.refKey, Json.text?]
  · simp [hb, body', cyclicBody, hiddenReference, Json.bareReferences_object_iff,
      Json.bareReferences_array_iff, Json.bareReferences_scalar, hasReference, Node.refKey,
      Json.text?]
  · have hknown : Entries.get? (definitions o (Json.ofValue v)) "A" ≠ none :=
      Option.some_ne_none _
    rw [ha] at hknown ⊢
    simpa [body, cyclicBody, KnownLink, reference, pointed?, Node.refKey, Json.text?, hname]
      using hknown
  · rw [findDivergence_eq hv hw, ha, hb]
    refine congrArg Except.ok ((divergence?_eq_none_iff ..).mpr ⟨.scalar rfl, ?_⟩)
    refine List.forall_mem_singleton.mpr ⟨body', rfl, ?_⟩
    change Alike (form _ o false ["A"] (cyclicBody _)) (form _ o false ["A"] (cyclicBody _))
    rw [form_cyclicBody, form_cyclicBody, form_hiddenReference,
      form_reference_of_none (by simp [hname]) false]
    exact (difference_eq_none_iff _ _ "").mp rfl
  · intro hlook
    have hreach : Reaches [("A", body)] o false body [.key "q"] false body := by
      have hbody : Stands [("A", body)] o false body := .of_keys rfl (by decide)
      refine .cons ⟨.refl false body, hbody⟩ rfl (.nil ⟨?_, hbody⟩)
      exact .definition (expansion?_eq_some_iff_pointed.mpr ⟨hname, List.not_mem_nil, rfl⟩)
        (.refl false body)
    have hreach' : Reaches [("A", body')] o false body' [.key "q"] false hiddenReference :=
      .cons ⟨.refl false body', .of_keys rfl (by decide)⟩ rfl
        (.nil ⟨.refl false _, .of_keys rfl (by decide)⟩)
    rcases hlook [.key "q"] with ⟨b, x, c, y, hx, hy, hmatches⟩ | ⟨hnot, -⟩
    · obtain ⟨rfl, rfl⟩ := hreach.unique hx
      obtain ⟨rfl, rfl⟩ := hreach'.unique hy
      have hkeys : "q" ∈ ["$ref"] := (hmatches "q").mp List.mem_cons_self
      exact absurd hkeys (by decide)
    · exact hnot false body hreach

end InlineSchema
