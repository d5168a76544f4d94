import InlineSchema.Hoisting
import InlineSchema.Proofs.Divergence
import InlineSchema.Proofs.Extracted
import InlineSchema.Proofs.Preservation

/-! # Hoisting gives an equivalent document

The definitions of a document and those of the extracted one are related as the comparison of forms
requires, so the two documents do not diverge.
-/
namespace InlineSchema

namespace Json

theorem lookup_ofNode (n : Node) (path : List String) :
    (ofNode n).lookup path = (n.lookup path).map ofNode := by
  induction path generalizing n with
  | nil => rfl
  | cons key path ih =>
    rw [lookup_cons, Extraction.lookup_cons, get?_ofNode]
    cases n.get? key with
    | none => rfl
    | some child => exact ih child

theorem distinct_ofNode {n : Node} (h : n.Distinct) : (ofNode n).Distinct := by
  rw [← ofValue_toValue h]
  exact distinct_ofValue _

end Json

namespace Equivalence

theorem get?_definitions_ofNode {o : Options} {n : Node} {t : Entries Node}
    (h : n.lookup o.definitionsPath = some (.mapping t)) (name : String) :
    Entries.get? (definitions o (Json.ofNode n)) name =
      (Entries.get? t name).map Json.ofNode := by
  rw [definitions_eq, Json.lookup_ofNode, h, Option.map_some, Json.ofNode_mapping]
  exact Entries.get?_map Json.ofNode t name

/-- Before anything is expanded. -/
theorem Aligned.start (original : Entries Json) (own : String → Set String) {names : Set String}
    (h : ∀ d, ∀ name ∈ own d, name ∉ names) : Aligned original own names [] [] where
  same _ _ := Iff.rfl
  apart _ h := nomatch h
  unopened d _ _ name hn := ⟨List.not_mem_nil, h d name hn⟩

end Equivalence

namespace Extraction
open InlineSchema.Equivalence Registry

variable {o : Options} {doc doc' : Node} {names : List String} {table table' : Entries Node}
  {R₁ R : Registry}

/-- A successful extraction relates the definitions as the comparison of forms requires. -/
theorem Extracted.transformed (h : Extracted o doc doc' names table table' R₁ R)
    (hdoc : doc.Distinct) (hs : Source o R (Json.ofNode doc)) :
    ∃ own, Transformed o R (definitions o (Json.ofNode doc)) (definitions o (Json.ofNode doc')) own ∧
      ∀ d, own d ⊆ fresh .empty R₁ := by
  have hnodup : (Entries.keys table).Nodup := (hdoc.lookup h.found).nodup
  obtain ⟨-, hkeys, own, hsub, hdisj, hmoved⟩ := moved_definitions h.tableRun hnodup
  have hget := get?_definitions_ofNode h.found
  have hget' : ∀ name, Entries.get? (definitions o (Json.ofNode doc')) name =
      ((Entries.get? table' name).or (R.get? name)).map Json.ofNode := fun name => by
    rw [get?_definitions_ofNode h.merged, h.get?_merged hdoc]
  have hnew : ∀ name, R.get? name ≠ none → Entries.get? table name = none := fun name hname =>
    h.free name (mem_names.mpr (Option.isSome_iff_ne_none.mpr hname))
  refine ⟨own, ?_, hsub⟩
  constructor
  case body =>
    intro d v hv
    rw [hget] at hv
    obtain ⟨n, hn, rfl⟩ := Option.map_eq_some_iff.mp hv
    obtain ⟨n', hn', hz⟩ := Entries.exists_mem_zip_of_get? hkeys hn
    have hwithin : (Json.ofNode n).Within (Json.ofNode doc) := by
      refine within_of_mem_definitions (o := o) (p := (d, Json.ofNode n)) (Entries.mem_of_get? ?_)
      rw [hget, hn, Option.map_some]
    refine ⟨hs.within hwithin, n, n', rfl, ?_, hmoved R h.grows.keeps _ hz⟩
    rw [hget', hn', Option.some_or, Option.map_some]
  case minted =>
    intro name body hbody
    rw [hget', h.get?_eq_none hdoc hbody, hbody, Option.none_or, Option.map_some]
  case other =>
    intro name hname hR
    rw [hget, Option.map_eq_none_iff] at hname
    rw [hget', Entries.get?_eq_none_of_keys hkeys hname, hR]
    rfl
  case new =>
    intro name hname
    rw [hget, hnew name hname, Option.map_none]
  case nonempty => exact h.get?_empty_name
  case own_minted => exact fun d name hname => h.grows.ne_none (hsub d hname).2
  case disjoint => exact hdisj

/-- The extracted document does not diverge from the one that was found. -/
theorem Extracted.divergence?_eq_none (h : Extracted o doc doc' names table table' R₁ R)
    (hdoc : doc.Distinct) (hs : Source o R (Json.ofNode doc)) :
    divergence? o (Json.ofNode doc) (Json.ofNode doc') = none := by
  obtain ⟨own, ht, hsub⟩ := h.transformed hdoc hs
  have hjson := Json.distinct_ofNode hdoc
  refine (divergence?_eq_none_iff _ _ _).mpr ⟨?_, fun p hp => ?_⟩
  · have hpaths : preparedPaths o (Json.ofNode doc') = preparedPaths o (Json.ofNode doc) := by
      rw [preparedPaths, preparedPaths, Json.get?_ofNode, Json.get?_ofNode]
      cases hv : doc.get? "paths" with
      | none => rw [(h.noPaths hv).2]; rfl
      | some v =>
        obtain ⟨hv', hR⟩ := h.payloads v hv
        have hmoved : Moved o R (fresh R₁ R) true .schema v ((pathItems o v).run R₁).1 :=
          (moving_pathItems v R₁).2 R _ (hR ▸ subset_rfl) (hR ▸ (Grows.refl _).keeps)
        have hwithin : (Json.ofNode v).Within (Json.ofNode doc) :=
          Json.within_of_get? ((Json.get?_ofNode doc "paths").trans (by rw [hv]; rfl))
        have ha : Aligned (definitions o (Json.ofNode doc)) own (fresh R₁ R) [] [] :=
          .start _ own fun d name hn => Set.disjoint_left.mp fresh_disjoint (hsub d hn)
        rw [hv', Option.map_some, Option.map_some]
        exact form_moved ht [] hmoved (by decide) [] ha
          (hs.within hwithin) (fun h => by cases h)
    rw [hpaths]
    exact Alike.refl (distinct_preparedPaths hjson)
  · have hget := Entries.get?_of_mem (nodup_definitions hjson) hp
    obtain ⟨hsource, n, n', hn, hn', hmoved⟩ := ht.body p.1 p.2 hget
    have hstart : Aligned (definitions o (Json.ofNode doc)) own ∅ [] [] :=
      .start _ own fun _ _ _ => Set.notMem_empty _
    have ha := hstart.open_original ht (by rw [hget]; exact Option.some_ne_none _)
      (List.not_mem_nil (a := p.1))
    have hform : normalForm (definitions o (Json.ofNode doc')) o [p.1] (Json.ofNode n') =
        normalForm (definitions o (Json.ofNode doc)) o [p.1] p.2 := by
      rw [hn]
      exact form_moved ht [p.1] hmoved (by decide) [p.1] ha (hn ▸ hsource)
        (fun h => by cases h)
    refine ⟨Json.ofNode n', hn', ?_⟩
    rw [hform]
    exact Alike.refl (distinct_form (distinct_of_mem_definitions hjson)
      (distinct_of_mem_definitions hjson p hp) false _)

/-- Nor does it where nothing was extracted, for then it is the document that was found. -/
theorem divergence?_extract (hpath : o.definitionsPath ≠ [])
    (hpaths : o.definitionsPath.head? ≠ some "paths")
    (hextract : extract o doc = (doc', .ok names)) (hdoc : doc.Distinct)
    (hbare : (Json.ofNode doc).BareReferences)
    (hnames : ∀ target, (Json.ofNode doc).RefersTo target →
      ∀ name ∈ names, o.definitionName? target ≠ some name) :
    divergence? o (Json.ofNode doc) (Json.ofNode doc') = none := by
  rcases extract_cases hpath hpaths hextract with ⟨-, rfl, -⟩ | ⟨table, table', R₁, R, h⟩
  · exact divergence?_self (Json.distinct_ofNode hdoc)
  · refine h.divergence?_eq_none hdoc ⟨hbare, fun target ht name hname => ?_⟩
    by_contra hR
    refine hnames target ht name ?_ hname
    rw [h.names_eq]
    exact mem_names.mpr (Option.isSome_iff_ne_none.mpr hR)

end Extraction

open Yaml (Value)

/-- Hoisting gives an equivalent document. -/
theorem hoist_eq_ok (o : Options) (source : String) (v : Value) (doc' : Node)
    (names : List String) (hsource : Value.read? source = some v)
    (hpath : o.definitionsPath ≠ []) (hpaths : o.definitionsPath.head? ≠ some "paths")
    (hkeys : v.PlainKeys) (hbare : (Json.ofValue v).BareReferences)
    (hextract : extract o (Node.ofValue v) = (doc', .ok names))
    (hnames : ∀ target, (Json.ofValue v).RefersTo target →
      ∀ name ∈ names, o.definitionName? target ≠ some name)
    (hread : Value.read? (doc'.render o.format) = some doc'.toValue) :
    findDivergence o source (doc'.render o.format) = .ok none ∧
      hoist o source = .ok ⟨doc'.render o.format, ⟨names⟩⟩ := by
  have hdoc := Node.distinct_ofValue v
  have hjson := Json.ofValue_eq_ofNode hkeys
  have hjson' : Json.ofValue doc'.toValue = Json.ofNode doc' :=
    Json.ofValue_toValue (Extraction.extract_distinct hextract hdoc)
  refine hoist_of_extract hsource hextract hread ?_
  rw [hjson] at hbare hnames
  rw [hjson, hjson']
  exact Extraction.divergence?_extract hpath hpaths hextract hdoc hbare hnames

def recursiveValue : Value :=
  .mapping [(.string "d", .mapping [(.string "A", .mapping [(.string "properties",
    .mapping [(.string "p", .mapping [(.string "properties", .mapping [(.string "q",
      .mapping [(.string "$ref", .string "#/d/A")])])])])])])]

def recursiveDocument : Node :=
  .mapping [("d", .mapping [
    ("A", .mapping [("properties", .mapping [("p", Node.reference "#/d/AP")])]),
    ("AP", .mapping [("properties", .mapping [("q", Node.reference "#/d/A")])])])]

theorem hoist_recursiveDocument :
    let o : Options := ⟨["d"], .yaml⟩
    let source := "d:\n A:\n  properties:\n   p:\n    properties:\n     q:\n      $ref: '#/d/A'\n"
    findDivergence o source (recursiveDocument.render .yaml) = .ok none ∧
      hoist o source = .ok ⟨recursiveDocument.render .yaml, ⟨["AP"]⟩⟩ := by
  have hvalue : Json.ofValue recursiveValue = .object [("d", .object [("A", .object [("properties",
      .object [("p", .object [("properties", .object [("q",
        Equivalence.reference "#/d/A")])])])])])] := rfl
  intro o source
  refine hoist_eq_ok o source recursiveValue recursiveDocument ["AP"] (by decide +kernel)
    (by decide) (by decide) ?_ ?_ rfl ?_ (by decide +kernel)
  · repeat refine .mapping (by decide) (List.forall_mem_singleton.mpr ?_)
    exact .scalar _
  · rw [hvalue]
    simp [Json.bareReferences_object_iff, Json.bareReferences_scalar, Equivalence.hasReference,
      Equivalence.reference, Node.refKey, Json.text?]
  · intro target ht name hname
    rw [hvalue] at ht
    simp [Json.refersTo_object_iff, Json.not_refersTo_scalar, Equivalence.reference,
      Node.refKey] at ht
    rw [← ht, List.mem_singleton.mp hname]
    decide

def nanValue : Value :=
  .mapping [(.string "d", .mapping [(.string "A", .mapping [(.string "properties",
    .mapping [(.string "p", .mapping [(.string "$ref", .scalar (.number (.float .nan))),
      (.string "items", .mapping [(.string "properties", .mapping [])])])])])])]

def nanDocument : Node :=
  .mapping [("d", .mapping [
    ("A", .mapping [("properties", .mapping [("p",
      .mapping [("$ref", .scalar (.number (.float .nan))),
        ("items", Node.reference "#/d/APItem")])])]),
    ("APItem", .mapping [("properties", .mapping [])])])]

/-- Without a single reference that is a text, the document diverges: in the comparison the number
is a text. -/
theorem hoist_nanDocument_diverges :
    let o : Options := ⟨["d"], .yaml⟩
    let source := "d:\n A:\n  properties:\n   p:\n    $ref: .nan\n    items:\n     properties: {}\n"
    Value.read? source = some nanValue ∧ nanValue.PlainKeys ∧
      (∀ target, ¬(Node.ofValue nanValue).RefersTo target) ∧
      extract o (Node.ofValue nanValue) = (nanDocument, .ok ["APItem"]) ∧
      Value.read? (nanDocument.render .yaml) = some nanDocument.toValue ∧
      findDivergence o source (nanDocument.render .yaml) = .ok (some
        (.missing "/d/A/properties/p/items/properties" .original)) := by
  intro o source
  have hsource : Value.read? source = some nanValue := by decide +kernel
  have hread : Value.read? (nanDocument.render .yaml) = some nanDocument.toValue := by
    decide +kernel
  have hdoc : Node.ofValue nanValue = .mapping [("d", .mapping [("A", .mapping [("properties",
      .mapping [("p", .mapping [("$ref", .scalar (.number (.float .nan))),
        ("items", .mapping [("properties", .mapping [])])])])])])] := rfl
  refine ⟨hsource, ?_, fun target => ?_, rfl, hread, ?_⟩
  · iterate 4 refine .mapping (by decide) (List.forall_mem_singleton.mpr ?_)
    refine .mapping (by decide) (List.forall_mem_cons.mpr
      ⟨.scalar _, List.forall_mem_singleton.mpr ?_⟩)
    exact .mapping (by decide) (List.forall_mem_singleton.mpr (.mapping nofun nofun))
  · simp [hdoc, Node.refersTo_mapping_iff, Node.not_refersTo_scalar, Node.refKey, Node.string]
  · rw [findDivergence_eq hsource hread]
    cbv

end InlineSchema
