import InlineSchema.Proofs.Completeness
import InlineSchema.Proofs.Hoisting

/-! # Hoisting twice

What hoisting gives stays as it is when it is hoisted again, exactly if nothing was hidden from the
first time.
-/
namespace InlineSchema
open Extraction
open Yaml (Value)

theorem parse?_eq_some {source : String} {doc : Node} (h : Node.parse? source = some doc) :
    ∃ v, Value.read? source = some v ∧ Node.ofValue v = doc := by
  rw [Node.parse?] at h
  exact Option.map_eq_some_iff.mp h

/-- A document that can be read does not diverge from itself. -/
theorem findDivergence_self {o : Options} {source : String} {doc : Node}
    (h : Node.parse? source = some doc) : findDivergence o source source = .ok none := by
  obtain ⟨v, hv, -⟩ := parse?_eq_some h
  rw [findDivergence_eq hv hv, Equivalence.divergence?_self (Json.distinct_ofValue v)]

/-- A document is hoisted to itself exactly if it is settled. -/
theorem hoist_render_iff {o : Options} {doc : Node}
    (h : Node.parse? (doc.render o.format) = some doc) :
    hoist o (doc.render o.format) = .ok ⟨doc.render o.format, ⟨[]⟩⟩ ↔ SettledDocument o doc := by
  rw [← extract_eq_self_iff, hoist_eq_ok_iff, transform_eq_ok_iff h]
  constructor
  · rintro ⟨⟨doc', hextract, -⟩, -⟩
    exact extract_of_isEmpty (isEmpty_of_extract hextract)
  · intro hextract
    exact ⟨⟨doc, hextract, rfl⟩, findDivergence_self h⟩

/-- Hoisting leaves a settled document, and hoisting again changes nothing, exactly if nothing was
hidden from the first time. -/
theorem hoist_hoisted_iff (o : Options) (source : String) (doc : Node) (first : Hoisted)
    (hsource : Node.parse? source = some doc) (hfirst : hoist o source = .ok first)
    (hread : Node.parse? first.document = some (extract o doc).1)
    (hpaths : o.definitionsPath.head? ≠ some "paths") :
    (SettledDocument o (extract o doc).1 ↔ ExposedDocument o doc) ∧
      (hoist o first.document = .ok ⟨first.document, ⟨[]⟩⟩ ↔ ExposedDocument o doc) := by
  obtain ⟨htransform, -⟩ := hoist_eq_ok_iff.mp hfirst
  obtain ⟨doc', hextract, hdocument⟩ := (transform_eq_ok_iff hsource).mp htransform
  obtain ⟨v, -, rfl⟩ := parse?_eq_some hsource
  have hsettled : SettledDocument o doc' ↔ ExposedDocument o (Node.ofValue v) :=
    settled_extract_iff hpaths hextract (Node.distinct_ofValue v)
  rw [hextract] at hread ⊢
  refine ⟨hsettled, ?_⟩
  rw [hdocument] at hread ⊢
  exact (hoist_render_iff hread).trans hsettled

def arrayValue (more : List (Value × Value)) : Value :=
  .mapping [(.string "d", .mapping [(.string "A", .mapping [(.string "properties",
    .mapping [(.string "p", .mapping ([(.string "type", .string "array"),
      (.string "items", .mapping [(.string "properties", .mapping [])])] ++ more))])])])]

def arrayDocument (more : Entries Node) : Node :=
  .mapping [("d", .mapping [
    ("A", .mapping [("properties", .mapping [("p", .mapping ([("type", Node.string "array"),
      ("items", Node.reference "#/d/APItem")] ++ more))])]),
    ("APItem", .mapping [("properties", .mapping [])])])]

theorem hoist_arrayDocument :
    let o : Options := ⟨["d"], .yaml⟩
    let source := "d:\n A:\n  properties:\n   p:\n    type: array\n    items:\n     properties: {}\n"
    let first : Hoisted := ⟨(arrayDocument []).render .yaml, ⟨["APItem"]⟩⟩
    hoist o source = .ok first ∧ ExposedDocument o (Node.ofValue (arrayValue [])) ∧
      SettledDocument o (arrayDocument []) ∧
      hoist o first.document = .ok ⟨first.document, ⟨[]⟩⟩ := by
  intro o source first
  have hsource : Value.read? source = some (arrayValue []) := by decide +kernel
  have hread : Value.read? first.document = some (arrayDocument []).toValue := by decide +kernel
  have hjson : Json.ofNode (Node.ofValue (arrayValue [])) = .object [("d", .object [("A",
      .object [("properties", .object [("p", .object [("type", .scalar (.string "array")),
        ("items", .object [("properties", .object [])])])])])])] := rfl
  have hextract : extract o (Node.ofValue (arrayValue [])) =
    (arrayDocument [], .ok ["APItem"]) := rfl
  have hfirst : hoist o source = .ok first := by
    refine (hoist_of_extract hsource hextract hread
      (divergence?_extract (by decide) (by decide) hextract (Node.distinct_ofValue _) ?_ ?_)).2
    · simp [hjson, Json.bareReferences_object_iff, Json.bareReferences_scalar,
        Equivalence.hasReference, Node.refKey]
    · intro target ht
      simp [hjson, Json.refersTo_object_iff, Json.not_refersTo_scalar, Node.refKey] at ht
  have hitems : Exposed (.mapping [("properties", .mapping [])]) :=
    exposed_properties (List.forall_mem_nil _)
  have hexposed : ExposedDocument o (Node.ofValue (arrayValue [])) := by
    refine ⟨(atDefinitions_of_lookup rfl).mpr (atEntries_mapping.mpr ?_), fun v hv => by cases hv⟩
    refine List.forall_mem_singleton.mpr (exposed_properties (List.forall_mem_singleton.mpr ?_))
    refine (exposedProperty_array rfl rfl rfl).mpr ⟨settledBesideItems_of_none ?_, hitems⟩
    exact forall_site.mpr ⟨fun _ => rfl, fun _ => rfl, fun _ => rfl, fun _ => rfl,
      fun hne => absurd rfl hne, fun _ => rfl⟩
  obtain ⟨hsettled, hagain⟩ := hoist_hoisted_iff o source _ first (parse?_of_read? hsource) hfirst
    (parse?_of_read? hread) (by decide)
  exact ⟨hfirst, hexposed, hsettled.mpr hexposed, hagain.mpr hexposed⟩

/-- What a run reports is what the extraction of its document adds. -/
theorem extracted_of_hoist {o : Options} {source : String} {doc : Node} {names : List String}
    {h : Hoisted} (hsource : Node.parse? source = some doc) (hextract : (extract o doc).2 = .ok names)
    (hh : hoist o source = .ok h) : h.report.extracted = names := by
  obtain ⟨htransform, -⟩ := hoist_eq_ok_iff.mp hh
  obtain ⟨doc', hextract', -⟩ := (transform_eq_ok_iff hsource).mp htransform
  rw [hextract'] at hextract
  exact Except.ok.inj hextract

def responsesValue : Value :=
  .mapping [(.string "paths", .mapping [(.string "example", .mapping [(.string "get", .mapping [
    (.string "operationId", .string "x"), (.string "responses", .mapping [(.string "m",
      .mapping [(.string "properties", .mapping [(.string "q", .mapping [
        (.string "properties", .mapping []), (.string "content", .mapping [(.string "t",
          .mapping [(.string "schema", .mapping [(.string "properties",
            .mapping [])])])])])])])])])])])]

def responsesDocument : Node :=
  .mapping [("paths", .mapping [("example", .mapping [("get", .mapping [
    ("operationId", Node.string "x"), ("responses", .mapping [
      ("m", .mapping [("properties", .mapping [("q",
        Node.reference "#/paths/example/get/responses/mQ")])]),
      ("mQ", .mapping [("properties", .mapping []), ("content", .mapping [("t",
        .mapping [("schema", .mapping [("properties", .mapping [])])])])])])])])])]

theorem divergence?_responsesDocument :
    Equivalence.divergence? ⟨["paths", "example", "get", "responses"], .yaml⟩
      (Json.ofValue responsesValue) (Json.ofValue responsesDocument.toValue) = none := by
  let o : Options := ⟨["paths", "example", "get", "responses"], .yaml⟩
  let object : Json := .object [("properties", .object []), ("content", .object [("t",
    .object [("schema", .object [("properties", .object [])])])])]
  have hpaths (table m : Entries Json) :
      Equivalence.form table o false [] (.object [("example", .object m)]) = .object [] := by
    simp [Equivalence.form_object, Equivalence.hasReference, Entries.get?_cons, Node.refKey,
      Equivalence.kept, Equivalence.documentationKeys, Equivalence.closed_of_keys]
  have hobject (table : Entries Json) (visited : List String) :
      Equivalence.form table o false visited object = object := by
    simp [object, Equivalence.form_object, Equivalence.form_empty, Equivalence.hasReference,
      Entries.get?_cons, Node.refKey, Equivalence.kept, Equivalence.documentationKeys,
      Equivalence.closed_of_keys, Node.compositionKeys]
  have hdefinition (table : Entries Json) (visited : List String) (q : Json) :
      Equivalence.form table o false visited (.object [("properties", .object [("q", q)])]) =
        .object [("properties", .object [("q", Equivalence.form table o false visited q)])] := by
    simp [Equivalence.form_object, Equivalence.hasReference, Entries.get?_cons, Node.refKey,
      Equivalence.kept, Equivalence.documentationKeys, Equivalence.closed_of_keys,
      Node.compositionKeys]
  refine (Equivalence.divergence?_eq_none_iff ..).mpr ⟨?_, List.forall_mem_singleton.mpr
    ⟨.object [("properties", .object [("q", Equivalence.reference _)])], rfl, ?_⟩⟩
  · change Equivalence.Alike (Equivalence.form _ o false [] (.object [("example", .object _)]))
      (Equivalence.form _ o false [] (.object [("example", .object _)]))
    rw [hpaths, hpaths]
    exact Equivalence.Alike.refl (.object List.nodup_nil (List.forall_mem_nil _))
  · change Equivalence.Alike
      (Equivalence.form _ o false ["m"] (.object [("properties", .object [("q", object)])]))
      (Equivalence.form _ o false ["m"]
        (.object [("properties", .object [("q", Equivalence.reference _)])]))
    have hname : o.definitionName? "#/paths/example/get/responses/mQ" = some "mQ" := by decide
    rw [hdefinition, hdefinition, hobject, Equivalence.form_reference hname (by decide) rfl]
    change Equivalence.Alike _ (.object [("properties", .object [("q",
      Equivalence.form _ o false ["mQ", "m"] object)])])
    rw [hobject]
    exact (Equivalence.difference_eq_none_iff _ _ "").mp (by cbv)

/-- Beside the items of an array of objects an object is hidden; and if the definitions stand under
the paths, a new definition can be a new place for a payload. -/
theorem hoist_again_extracts :
    (let o : Options := ⟨["d"], .yaml⟩
      let source :=
        "d:\n A:\n  properties:\n   p:\n    type: array\n    items:\n     properties: {}\n" ++
        "    additionalProperties:\n     properties: {}\n"
      let doc := arrayDocument [("additionalProperties", .mapping [("properties", .mapping [])])]
      hoist o source = .ok ⟨doc.render .yaml, ⟨["APItem"]⟩⟩ ∧
        Node.parse? (doc.render .yaml) = some doc ∧
        ∀ second, hoist o (doc.render .yaml) = .ok second →
          second.report.extracted = ["APValue"]) ∧
    (let o : Options := ⟨["paths", "example", "get", "responses"], .yaml⟩
      let source :=
        "paths:\n example:\n  get:\n   operationId: x\n   responses:\n    m:\n     properties:\n" ++
        "      q:\n       properties: {}\n       content:\n        t:\n         schema:\n" ++
        "          properties: {}\n"
      let doc := responsesDocument
      hoist o source = .ok ⟨doc.render .yaml, ⟨["mQ"]⟩⟩ ∧
        Node.parse? (doc.render .yaml) = some doc ∧
        ∀ second, hoist o (doc.render .yaml) = .ok second →
          second.report.extracted = ["XMQResponse"]) := by
  constructor
  · intro o source doc
    let v := arrayValue [(.string "additionalProperties",
      .mapping [(.string "properties", .mapping [])])]
    have hsource : Value.read? source = some v := by decide +kernel
    have hread : Value.read? (doc.render .yaml) = some doc.toValue := by decide +kernel
    have hextract : extract o (Node.ofValue v) = (doc, .ok ["APItem"]) := rfl
    have hagain : (extract o doc).2 = .ok ["APValue"] := by decide +kernel
    have hjson : Json.ofNode (Node.ofValue v) = .object [("d", .object [("A", .object [("properties",
        .object [("p", .object [("type", .scalar (.string "array")),
          ("items", .object [("properties", .object [])]),
          ("additionalProperties", .object [("properties", .object [])])])])])])] := rfl
    refine ⟨?_, parse?_of_read? hread, fun _ => extracted_of_hoist (parse?_of_read? hread) hagain⟩
    refine (hoist_of_extract hsource hextract hread
      (divergence?_extract (by decide) (by decide) hextract (Node.distinct_ofValue _) ?_ ?_)).2
    · simp [hjson, Json.bareReferences_object_iff, Json.bareReferences_scalar,
        Equivalence.hasReference, Node.refKey]
    · intro target ht
      simp [hjson, Json.refersTo_object_iff, Json.not_refersTo_scalar, Node.refKey] at ht
  · intro o source doc
    have hsource : Value.read? source = some responsesValue := by decide +kernel
    have hread : Value.read? (doc.render .yaml) = some doc.toValue := by decide +kernel
    have hextract : extract o (Node.ofValue responsesValue) = (doc, .ok ["mQ"]) := rfl
    have hagain : (extract o doc).2 = .ok ["XMQResponse"] := by decide +kernel
    exact ⟨(hoist_of_extract hsource hextract hread divergence?_responsesDocument).2,
      parse?_of_read? hread, fun _ => extracted_of_hoist (parse?_of_read? hread) hagain⟩

end InlineSchema
