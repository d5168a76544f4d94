import InlineSchema.Proofs.Apart
import InlineSchema.Proofs.Hoisting
import InlineSchema.Proofs.Trail

/-! # Corrupted definitions

A scalar in a new definition is compared, however deep the definition was minted: the way to where its
object stood is open, because no new definition refers to itself, and so the forms of the original and
of the corrupted document are apart.
-/
namespace InlineSchema
open Extraction InlineSchema.Equivalence Registry

variable {o : Options} {R : Registry} {target : String} {body : Node} {path : List Step}
  {s t : Scalar} {original transformed : Entries Json}

/-- The definitions of a document in which, at the end of the path in the definition `target` of `R`,
`t` has taken the place of `s`, which the comparison keeps and does not take for `t`. -/
structure Corrupted (o : Options) (R : Registry) (target : String) (body : Node) (path : List Step)
    (s t : Scalar) (transformed : Entries Json) : Prop where
  defined : R.get? target = some body
  leaf : body.follow path = some (.scalar s)
  kept : ((strip false (Json.ofNode body)).follow path).isSome = true
  last : path.getLast? ≠ some (.key Node.refKey)
  unequal : (Json.ofScalar s).same (Json.ofScalar t) = false
  replaced : Entries.get? transformed target =
    some (Json.ofNode (body.replaceAt path (.scalar t)))
  other : ∀ name b, R.get? name = some b → name ≠ target →
    Entries.get? transformed name = some (Json.ofNode b)
  nonempty : R.get? "" = none

/-- What stands for a definition has its form. -/
theorem form_minted {visited : List String} {name : String} {body n' : Node} (hne : name ≠ "")
    (hv : name ∉ visited) (hbody : Entries.get? transformed name = some (Json.ofNode body))
    (hn' : n' = Node.reference (o.refTo name) ∨
      ∃ d, n' = documented d (Node.reference (o.refTo name))) :
    form transformed o false visited (Json.ofNode n') =
      form transformed o false (name :: visited) (Json.ofNode body) := by
  have hreference : form transformed o false visited (reference (o.refTo name)) =
      form transformed o false (name :: visited) (Json.ofNode body) :=
    form_reference (o.definitionName?_refTo hne) (by simpa using hv) hbody false
  rcases hn' with rfl | ⟨d, rfl⟩
  · exact hreference
  · exact (form_documented transformed visited d (o.refTo name)).trans hreference

/-- Where a way leads to the corrupted definition, the forms are apart. -/
theorem Corrupted.apart (hc : Corrupted o R target body path s t transformed) {names : Set String}
    {g : ReadAs} {n n' : Node} (h : Leads o R target names g n n') (visited : List String) :
    g ≠ .either → (Json.ofNode n).BareReferences → n.Distinct →
    ∀ visited', (∀ x ∈ visited', x ∉ names) →
      Apart (form original o (inTable g) visited (Json.ofNode n))
        (form transformed o (inTable g) visited' (Json.ofNode n')) := by
  have hne (name : String) {b : Node} (hb : R.get? name = some b) : name ≠ "" := by
    rintro rfl
    rw [hc.nonempty] at hb
    cases hb
  have hschema {g : ReadAs} (hg : g ≠ .table) (hg' : g ≠ .either) : g = .schema := by
    cases g with
    | schema => rfl
    | table => exact absurd rfl hg
    | either => exact absurd rfl hg'
  induction h with
  | @here names g m b n' hg hname hR h hn' =>
    intro hg' hbare hdistinct visited' hv
    obtain rfl := hschema hg hg'
    obtain rfl := Option.some.inj (hc.defined.symm.trans hR)
    have hform := form_minted (o := o) (hne target hR) (fun hx => hv target hx hname) hc.replaced hn'
    change Apart (form original o false visited _) (form transformed o false visited' _)
    rw [hform]
    exact apart_replaceAt hc.unequal h hg' hbare hdistinct hc.leaf hc.kept hc.last
  | @through names g name m b n' hg hname hnt hR h hn' ih =>
    intro hg' hbare hdistinct visited' hv
    obtain rfl := hschema hg hg'
    have hform := form_minted (o := o) (hne name hR) (fun hx => hv name hx hname)
      (hc.other name b hR hnt) hn'
    change Apart (form original o false visited _) (form transformed o false visited' _)
    rw [hform]
    refine ih hg' hbare hdistinct (name :: visited') fun x hx hmem => ?_
    rcases List.mem_cons.mp hx with rfl | hx
    · exact hmem.2 rfl
    · exact hv x hx hmem.1
  | item hl hp h ih =>
    intro hg' hbare hdistinct visited' hv
    obtain ⟨hmem, -⟩ := List.of_mem_zip hp
    rw [ReadAs.inside_of_ne hg'] at ih
    exact apart_sequence hl hp _ (ih (by decide) (hbare.within (Json.within_ofNode_sequence hmem))
      (hdistinct.items _ hmem) visited' hv)
  | @value names g m m' hk hm p hp hkeeps h ih =>
    intro hg' hbare hdistinct visited' hv
    obtain ⟨hmem, -⟩ := List.of_mem_zip hp
    have href := hasReference_of_mem hbare hmem fun _ => by
      cases hvalue : p.1.2 with
      | scalar =>
        rw [hvalue] at h
        exact absurd h Leads.not_scalar
      | sequence => rfl
      | mapping => rfl
    have hkept : (inTable g || !documentationKeys.contains p.1.1) = true := by
      cases g with
      | schema => rw [hkeeps (by decide)]; rfl
      | table => rfl
      | either => exact absurd rfl hg'
    have hapart := ih (ReadAs.under_ne_either hg' _)
      (hbare.within (Json.within_ofNode_mapping hmem)) (hdistinct.values _ hmem) visited' hv
    rw [inTable_under hg'] at hapart
    exact apart_mapping hk hdistinct.nodup href ((hasReference_of_moved hk hm).trans href) hp hkept
      hapart

/-! ## In an extracted document -/

def corrupted (o : Options) (doc' : Node) (name : String) (path : List Step) (t : Scalar) : Node :=
  doc'.replaceAt (o.definitionsPath.map .key ++ .key name :: path) (.scalar t)

section
variable {doc doc' : Node} {names : List String} {table table' : Entries Node} {R₁ : Registry}

/-- To where a definition was minted a way leads from the paths or from a definition that was
found. -/
theorem Extraction.Extracted.exists_leads (h : Extracted o doc doc' names table table' R₁ R)
    (hplain : ∀ v, doc.get? "paths" = some v → PlainPaths v) (htarget : R.get? target ≠ none) :
    (∃ v v', doc.get? "paths" = some v ∧ doc'.get? "paths" = some v' ∧
      Leads o R target (fresh R₁ R) .schema v v') ∨
    ∃ p ∈ table.zip table', Leads o R target (fresh .empty R₁) .schema p.1.2 p.2.2 := by
  by_cases hfirst : R₁.get? target = none
  · left
    cases hv : doc.get? "paths" with
    | none => exact absurd ((h.noPaths hv).1 ▸ hfirst) htarget
    | some v =>
      obtain ⟨hv', hR⟩ := h.payloads v hv
      refine ⟨v, _, rfl, hv', leading_pathItems (hplain v hv) R₁ R _ target ?_ ?_ ?_⟩
      · rw [hR]
      · rw [hR]
        exact (Grows.refl R).keeps
      · rw [hR]
        exact ⟨hfirst, htarget⟩
  · right
    have hleading : Leading o .table (Node.onEntries (walk o)) (.mapping table) :=
      .onEntries (fun key => moving_walk key) fun m _ p _ =>
        ⟨leading_walk p.1 p.2, .inl fun hne => absurd rfl hne⟩
    have hlead := hleading .empty R (fresh .empty R₁) target
    rw [h.tableRun] at hlead
    cases hlead subset_rfl h.grows.keeps ⟨rfl, hfirst⟩ with
    | here hg => exact absurd rfl hg
    | through hg => exact absurd rfl hg
    | value _ _ hp _ hlead => exact ⟨_, hp, hlead⟩

/-- Outside the definitions nothing is replaced. -/
theorem get?_paths_corrupted (hpath : o.definitionsPath ≠ [])
    (hpaths : o.definitionsPath.head? ≠ some "paths") :
    (corrupted o doc' target path t).get? "paths" = doc'.get? "paths" := by
  obtain ⟨key, keys, hkey⟩ := List.exists_cons_of_ne_nil hpath
  rw [hkey, List.head?_cons, ne_eq, Option.some.injEq] at hpaths
  rw [corrupted, hkey, List.map_cons, List.cons_append]
  exact Node.get?_replaceAt_of_ne doc' _ (Ne.symm hpaths) _

theorem Extraction.Extracted.lookup_corrupted (h : Extracted o doc doc' names table table' R₁ R)
    (target : String) (path : List Step) (t : Scalar) :
    (corrupted o doc' target path t).lookup o.definitionsPath = some (.mapping
      (Entries.modify target (fun v => v.replaceAt path (.scalar t)) (R.mergedTable table'))) := by
  rw [corrupted, Node.lookup_replaceAt, h.merged]
  rfl

/-- No definition beside the one that is corrupted changes. -/
theorem Extraction.Extracted.get?_corrupted_of_ne (h : Extracted o doc doc' names table table' R₁ R)
    (hdoc : doc.Distinct) (path : List Step) (t : Scalar) {name : String} (hne : name ≠ target) :
    Entries.get? (definitions o (Json.ofNode (corrupted o doc' target path t))) name =
      ((Entries.get? table' name).or (R.get? name)).map Json.ofNode := by
  rw [get?_definitions_ofNode (h.lookup_corrupted target path t), Entries.get?_modify_of_ne _ _ hne,
    h.get?_merged hdoc]

theorem Extraction.Extracted.get?_corrupted_self (h : Extracted o doc doc' names table table' R₁ R)
    (hdoc : doc.Distinct) (path : List Step) (t : Scalar) (hbody : R.get? target = some body) :
    Entries.get? (definitions o (Json.ofNode (corrupted o doc' target path t))) target =
      some (Json.ofNode (body.replaceAt path (.scalar t))) := by
  rw [get?_definitions_ofNode (h.lookup_corrupted target path t), Entries.get?_modify_self,
    h.get?_merged hdoc, h.get?_eq_none hdoc hbody, hbody]
  rfl

/-- The way leads to the corrupted definition from the paths, and the paths diverge. -/
theorem Corrupted.paths_diverge (hc : Corrupted o R target body path s t
      (definitions o (Json.ofNode (corrupted o doc' target path t))))
    (hdoc : doc.Distinct) (hpath : o.definitionsPath ≠ [])
    (hpaths : o.definitionsPath.head? ≠ some "paths") (hbare : (Json.ofNode doc).BareReferences)
    {v v' : Node} (hv : doc.get? "paths" = some v) (hv' : doc'.get? "paths" = some v')
    (hlead : Leads o R target (fresh R₁ R) .schema v v') :
    divergence? o (Json.ofNode doc) (Json.ofNode (corrupted o doc' target path t)) ≠ none := by
  rw [ne_eq, divergence?_eq_none_iff]
  rintro ⟨hsame, -⟩
  rw [preparedPaths, preparedPaths, Json.get?_ofNode, Json.get?_ofNode, hv,
    get?_paths_corrupted hpath hpaths, hv'] at hsame
  have hvalue : (Json.ofNode doc).get? "paths" = some (Json.ofNode v) := by
    rw [Json.get?_ofNode, hv, Option.map_some]
  have hwithin : (Json.ofNode v).Within (Json.ofNode doc) := Json.within_of_get? hvalue
  exact (hc.apart hlead [] (by decide) (hbare.within hwithin) (hdoc.get? hv) []
    fun _ h => absurd h List.not_mem_nil).not_alike
    hsame

/-- The way leads to the corrupted definition from a definition that was found, and that one
diverges. -/
theorem Extraction.Extracted.definition_diverges (h : Extracted o doc doc' names table table' R₁ R)
    (hc : Corrupted o R target body path s t
      (definitions o (Json.ofNode (corrupted o doc' target path t))))
    (hdoc : doc.Distinct) (hbare : (Json.ofNode doc).BareReferences)
    {p : (String × Node) × (String × Node)} (hp : p ∈ table.zip table')
    (hlead : Leads o R target (fresh .empty R₁) .schema p.1.2 p.2.2) :
    divergence? o (Json.ofNode doc) (Json.ofNode (corrupted o doc' target path t)) ≠ none := by
  rw [ne_eq, divergence?_eq_none_iff]
  rintro ⟨-, hdefs⟩
  obtain ⟨⟨d, n⟩, ⟨d', n'⟩⟩ := p
  have hkeys := h.keys_eq hdoc
  obtain rfl : d = d' := Entries.fst_eq_of_mem_zip hkeys hp
  have hmem := (List.of_mem_zip hp).1
  have hnodup := (hdoc.lookup h.found).nodup
  have hd' : Entries.get? table' d = some n' :=
    Entries.get?_of_mem (hkeys ▸ hnodup) (List.of_mem_zip hp).2
  have hR : R.get? d = none := by
    by_contra hR
    obtain ⟨b, hb⟩ := Option.ne_none_iff_exists'.mp hR
    rw [h.get?_eq_none hdoc hb] at hd'
    cases hd'
  have hne : d ≠ target := by
    rintro rfl
    rw [hc.defined] at hR
    cases hR
  have hfound : (d, Json.ofNode n) ∈ definitions o (Json.ofNode doc) := by
    refine Entries.mem_of_get? ?_
    rw [get?_definitions_ofNode h.found, Entries.get?_of_mem hnodup hmem, Option.map_some]
  obtain ⟨w, hw, halike⟩ := hdefs _ hfound
  rw [h.get?_corrupted_of_ne hdoc path t hne, hd', Option.some_or, Option.map_some] at hw
  cases hw
  have hwithin : (Json.ofNode n).Within (Json.ofNode doc) := within_of_mem_definitions hfound
  refine (hc.apart hlead [d] (by decide) (hbare.within hwithin)
    ((hdoc.lookup h.found).values _ hmem) [d] fun x hx hfresh => ?_).not_alike halike
  rw [List.mem_singleton.mp hx] at hfresh
  exact h.grows.ne_none hfresh.2 hR

/-- A new definition in which a scalar is replaced makes the document diverge. -/
theorem Extraction.Extracted.divergence?_corrupted (h : Extracted o doc doc' names table table' R₁ R)
    (hdoc : doc.Distinct) (hpaths : o.definitionsPath.head? ≠ some "paths")
    (hpath : o.definitionsPath ≠ []) (hbare : (Json.ofNode doc).BareReferences)
    (hplain : ∀ v, doc.get? "paths" = some v → PlainPaths v)
    (hbody : R.get? target = some body) (hleaf : body.follow path = some (.scalar s))
    (hkept : ((strip false (Json.ofNode body)).follow path).isSome = true)
    (hlast : path.getLast? ≠ some (.key Node.refKey))
    (hst : (Json.ofScalar s).same (Json.ofScalar t) = false) :
    divergence? o (Json.ofNode doc) (Json.ofNode (corrupted o doc' target path t)) ≠ none := by
  have hc : Corrupted o R target body path s t
      (definitions o (Json.ofNode (corrupted o doc' target path t))) := by
    refine ⟨hbody, hleaf, hkept, hlast, hst, h.get?_corrupted_self hdoc path t hbody,
      fun name b hb hne => ?_, h.get?_empty_name⟩
    rw [h.get?_corrupted_of_ne hdoc path t hne, h.get?_eq_none hdoc hb, hb]
    rfl
  have htarget : R.get? target ≠ none := by
    rw [hbody]
    exact Option.some_ne_none body
  rcases h.exists_leads hplain htarget with ⟨v, v', hv, hv', hlead⟩ | ⟨p, hp, hlead⟩
  · exact hc.paths_diverge hdoc hpath hpaths hbare hv hv' hlead
  · exact h.definition_diverges hc hdoc hbare hp hlead

end

open Yaml (Value)

/-- Every corruption of a new definition is found, however deep the definition was minted. -/
theorem findDivergence_corrupted (o : Options) (source : String) (v : Value) (doc' body : Node)
    (names : List String) (name : String) (path : List Step) (s t : Scalar)
    (hsource : Value.read? source = some v) (hpath : o.definitionsPath ≠ [])
    (hpaths : o.definitionsPath.head? ≠ some "paths") (hkeys : v.PlainKeys)
    (hbare : (Json.ofValue v).BareReferences)
    (hplain : ∀ paths, (Node.ofValue v).get? "paths" = some paths → PlainPaths paths)
    (hextract : extract o (Node.ofValue v) = (doc', .ok names)) (hname : name ∈ names)
    (hbody : doc'.lookup (o.definitionsPath ++ [name]) = some body)
    (hleaf : body.follow path = some (.scalar s))
    (hkept : ((strip false (Json.ofNode body)).follow path).isSome = true)
    (hlast : path.getLast? ≠ some (.key Node.refKey))
    (hst : (Json.ofScalar s).same (Json.ofScalar t) = false)
    (hread : Value.read? ((corrupted o doc' name path t).render o.format) =
      some (corrupted o doc' name path t).toValue) :
    ∃ d, findDivergence o source ((corrupted o doc' name path t).render o.format) =
      .ok (some d) := by
  have hdoc := Node.distinct_ofValue v
  have hcorrupted : (corrupted o doc' name path t).Distinct :=
    (extract_distinct hextract hdoc).replaceAt (.scalar t) _
  rw [findDivergence_eq hsource hread, Json.ofValue_toValue hcorrupted,
    Json.ofValue_eq_ofNode hkeys]
  rw [Json.ofValue_eq_ofNode hkeys] at hbare
  rcases extract_cases hpath hpaths hextract with ⟨-, -, rfl⟩ | ⟨table, table', R₁, R, h⟩
  · cases hname
  · have hR : R.get? name ≠ none := by
      rw [h.names_eq] at hname
      exact Option.isSome_iff_ne_none.mp (mem_names.mp hname)
    have hdefined : R.get? name = some body := by
      obtain ⟨b, hb⟩ := Option.ne_none_iff_exists'.mp hR
      rw [Node.lookup_concat, h.merged, Option.bind_some, Node.get?_mapping, h.get?_merged hdoc,
        h.get?_eq_none hdoc hb, Option.none_or] at hbody
      exact hbody
    have hdiverges := h.divergence?_corrupted hdoc hpaths hpath hbare hplain hdefined hleaf hkept
      hlast hst
    obtain ⟨d, hd⟩ := Option.ne_none_iff_exists'.mp hdiverges
    exact ⟨d, congrArg Except.ok hd⟩

def nestedValue : Value :=
  .mapping [(.string "d", .mapping [(.string "A", .mapping [(.string "properties",
    .mapping [(.string "p", .mapping [(.string "properties", .mapping [(.string "q",
      .mapping [(.string "properties", .mapping [(.string "r",
        .mapping [(.string "type", .string "string")])])])])])])])])]

def nestedBody : Node :=
  .mapping [("properties", .mapping [("r", .mapping [("type", Node.string "string")])])]

def nestedDocument : Node :=
  .mapping [("d", .mapping [
    ("A", .mapping [("properties", .mapping [("p", Node.reference "#/d/AP")])]),
    ("AP", .mapping [("properties", .mapping [("q", Node.reference "#/d/APQ")])]),
    ("APQ", nestedBody)])]

theorem findDivergence_nestedDocument :
    let o : Options := ⟨["d"], .yaml⟩
    let source := "d:\n A:\n  properties:\n   p:\n    properties:\n     q:\n      properties:\n" ++
      "       r:\n        type: string\n"
    let path : List Step := [.key "properties", .key "r", .key "type"]
    ∃ d, findDivergence o source
      ((corrupted o nestedDocument "APQ" path (.string "integer")).render .yaml) =
        .ok (some d) := by
  intro o source path
  refine findDivergence_corrupted o source nestedValue nestedDocument nestedBody ["AP", "APQ"] "APQ"
    path (.string "string") (.string "integer") (by decide +kernel) (by decide) (by decide) ?_ ?_
    nofun rfl (by decide) rfl rfl rfl (by decide) rfl (by decide +kernel)
  · iterate 9 refine .mapping (by decide) (List.forall_mem_singleton.mpr ?_)
    exact .scalar _
  · have hvalue : Json.ofValue nestedValue = .object [("d", .object [("A", .object [("properties",
        .object [("p", .object [("properties", .object [("q", .object [("properties",
          .object [("r", .object [("type", .scalar (.string "string"))])])])])])])])])] := rfl
    simp [hvalue, Json.bareReferences_object_iff, Json.bareReferences_scalar,
      Equivalence.hasReference, Node.refKey]

/-- A payload in a media type that has a number for a reference. In the form of the payload nothing is
left but the text of the reference that takes its place. -/
def collapsingValue (payload : Value) : Value :=
  .mapping [(.string "paths", .mapping [(.string "p", .mapping [(.string "get", .mapping [
      (.string "operationId", .string "x"),
      (.string "requestBody", .mapping [(.string "content", .mapping [(.string "t",
        .mapping [(.string "$ref", .scalar (.number (.float .nan))),
          (.string "schema", payload)])])])])])]),
    (.string "d", .mapping [])]

def collapsingBody (text : String) : Node :=
  .mapping [("allOf", .sequence [.mapping [("$ref",
    .mapping [("allOf", .sequence [Node.string text])])]])]

def collapsingDocument : Node :=
  .mapping [("paths", .mapping [("p", .mapping [("get", .mapping [
      ("operationId", Node.string "x"),
      ("requestBody", .mapping [("content", .mapping [("t",
        .mapping [("$ref", .scalar (.number (.float .nan))),
          ("schema", Node.reference "#/d/XRequestBody")])])])])])]),
    ("d", .mapping [("XRequestBody", collapsingBody "#/d/XRequestBody")])]

/-- Without a single reference that is a text, the corruption of a new definition is not found: the
number is a text in the comparison, and nothing beside it is expanded. -/
theorem findDivergence_collapsingDocument :
    let o : Options := ⟨["d"], .yaml⟩
    let source := "paths:\n p:\n  get:\n   operationId: x\n   requestBody:\n    content:\n" ++
      "     t:\n      $ref: .nan\n      schema:\n       allOf:\n       - $ref:\n          allOf:\n" ++
      "          - '#/d/XRequestBody'\nd: {}\n"
    let v := collapsingValue (collapsingBody "#/d/XRequestBody").toValue
    let path : List Step := [.key "allOf", .index 0, .key "$ref", .key "allOf", .index 0]
    let doc := corrupted o collapsingDocument "XRequestBody" path (.string "y")
    Value.read? source = some v ∧ v.PlainKeys ∧ (∀ target, ¬(Node.ofValue v).RefersTo target) ∧
      (∀ paths, (Node.ofValue v).get? "paths" = some paths → PlainPaths paths) ∧
      extract o (Node.ofValue v) = (collapsingDocument, .ok ["XRequestBody"]) ∧
      collapsingDocument.lookup (o.definitionsPath ++ ["XRequestBody"]) =
        some (collapsingBody "#/d/XRequestBody") ∧
      (collapsingBody "#/d/XRequestBody").follow path = some (Node.string "#/d/XRequestBody") ∧
      ((strip false (Json.ofNode (collapsingBody "#/d/XRequestBody"))).follow path).isSome = true ∧
      path.getLast? ≠ some (.key Node.refKey) ∧
      (Json.ofScalar (.string "#/d/XRequestBody")).same (Json.ofScalar (.string "y")) = false ∧
      Value.read? (doc.render .yaml) = some doc.toValue ∧
      findDivergence o source (doc.render .yaml) = .ok none := by
  intro o source v path doc
  have hsource : Value.read? source = some v := by decide +kernel
  have hread : Value.read? (doc.render .yaml) = some doc.toValue := by decide +kernel
  have hdoc : Node.ofValue v = .mapping [("paths", .mapping [("p", .mapping [("get", .mapping [
      ("operationId", Node.string "x"),
      ("requestBody", .mapping [("content", .mapping [("t",
        .mapping [("$ref", .scalar (.number (.float .nan))),
          ("schema", collapsingBody "#/d/XRequestBody")])])])])])]), ("d", .mapping [])] := rfl
  have hextract : extract ⟨["d"], .yaml⟩ (Node.ofValue
      (collapsingValue (collapsingBody "#/d/XRequestBody").toValue)) =
        (collapsingDocument, .ok ["XRequestBody"]) := rfl
  refine ⟨hsource, ?_, fun target => ?_, ?_, hextract, rfl, rfl, rfl, by decide, rfl, hread, ?_⟩
  · simp [v, collapsingValue, collapsingBody, Node.toValue, Node.toEntries, Node.toItems,
      Node.string, Value.string, Value.plainKeys_mapping_iff, Value.plainKeys_sequence_iff,
      Value.PlainKeys.scalar, Value.isPlainKey]
  · simp [hdoc, collapsingBody, Node.refersTo_mapping_iff, Node.refersTo_sequence_iff,
      Node.not_refersTo_scalar, Node.refKey, Node.string]
  · intro paths hpaths
    cases hpaths
    refine ⟨fun m hm p hp => ?_, fun m hm p hp item hitem q hq _ => ?_⟩
    · cases hm
      rw [List.mem_singleton.mp hp]
      rfl
    · cases hm
      rw [List.mem_singleton.mp hp] at hitem
      cases hitem
      rw [List.mem_singleton.mp hq]
      constructor
      · intro _ h
        cases h
      · intro _ h
        cases h
      · intro body hbody types htypes m hm p hp
        cases hbody
        cases htypes
        cases hm
        rw [List.mem_singleton.mp hp]
        rfl
  · rw [findDivergence_eq hsource hread]
    cbv

end InlineSchema
