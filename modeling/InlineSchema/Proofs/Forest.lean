import InlineSchema.Proofs.Accounted
import InlineSchema.Proofs.Minted
import InlineSchema.Proofs.Path
import InlineSchema.Proofs.References

/-! # The forest of new definitions

After an extraction each new definition has exactly one reference in the document. It stands in an
original definition, in a payload, or in another new definition, and from there the way up ends at
an original definition or a payload.
-/
namespace InlineSchema

namespace Node

/-! ## Counting references -/

theorem count_le_flatMap {m : Entries Node} {key : String} {v : Node}
    (h : Entries.get? m key = some v) (t : String) :
    v.references.count t ≤ (m.flatMap fun p => p.2.references).count t := by
  induction m with
  | nil => cases h
  | cons p m ih =>
    rw [Entries.get?_cons] at h
    rw [List.flatMap_cons, List.count_append]
    split at h
    next => cases h; omega
    next =>
      have := ih h
      omega

/-- The references under two keys of a mapping are counted apart. -/
theorem count_add_count_le {m : Entries Node} {key₁ key₂ : String} (hne : key₁ ≠ key₂)
    {v₁ v₂ : Node} (h₁ : Entries.get? m key₁ = some v₁) (h₂ : Entries.get? m key₂ = some v₂)
    (t : String) :
    v₁.references.count t + v₂.references.count t ≤ (mapping m).references.count t := by
  rw [references_mapping, List.count_append]
  suffices h : v₁.references.count t + v₂.references.count t ≤
      (m.flatMap fun p => p.2.references).count t by omega
  induction m with
  | nil => cases h₁
  | cons p m ih =>
    rw [Entries.get?_cons] at h₁ h₂
    rw [List.flatMap_cons, List.count_append]
    split at h₁
    next hk₁ =>
      rw [if_neg fun hk₂ => hne (hk₁.trans hk₂.symm)] at h₂
      cases h₁
      have := count_le_flatMap h₂ t
      omega
    next =>
      split at h₂
      next =>
        cases h₂
        have := count_le_flatMap h₁ t
        omega
      next =>
        have := ih h₁ h₂
        omega

theorem count_le_of_get? {n v : Node} {key : String} (h : n.get? key = some v) (t : String) :
    v.references.count t ≤ n.references.count t := by
  cases n with
  | scalar => cases h
  | sequence => cases h
  | mapping m =>
    have := count_le_flatMap h t
    rw [references_mapping, List.count_append]
    omega

theorem count_le_of_lookup {n v : Node} {path : List String} (h : n.lookup path = some v)
    (t : String) : v.references.count t ≤ n.references.count t := by
  induction path generalizing n with
  | nil =>
    cases h
    exact le_rfl
  | cons key path ih =>
    rw [Extraction.lookup_cons] at h
    obtain ⟨u, hu, h⟩ := Option.bind_eq_some_iff.mp h
    exact (ih h).trans (count_le_of_get? hu t)

theorem references_subset_of_within {n v : Node} (h : v.Within n) :
    v.references ⊆ n.references := by
  induction h with
  | self => exact List.Subset.refl _
  | item hx _ ih =>
    rw [references_sequence]
    exact fun t ht => List.mem_flatMap.mpr ⟨_, hx, ih ht⟩
  | value hp _ ih =>
    rw [references_mapping]
    exact fun t ht => List.mem_append_right _ (List.mem_flatMap.mpr ⟨_, hp, ih ht⟩)

/-- A reference that stands once in the document stands in one definition. -/
theorem eq_of_count_eq_one {doc body body' : Node} {path : List String} {table : Entries Node}
    {d d' t : String} (htable : doc.lookup path = some (.mapping table))
    (hcount : doc.references.count t = 1) (hd : Entries.get? table d = some body)
    (ht : t ∈ body.references) (hd' : Entries.get? table d' = some body')
    (ht' : t ∈ body'.references) : d = d' := by
  by_contra hne
  have hsum := count_add_count_le hne hd hd' t
  have hle := count_le_of_lookup htable t
  have := List.count_pos_iff.mpr ht
  have := List.count_pos_iff.mpr ht'
  omega

/-- A reference that stands once in the document does not stand under two keys. -/
theorem not_mem_of_count_eq_one {doc v v' : Node} {key key' : String} (hne : key ≠ key')
    {t : String} (hcount : doc.references.count t = 1) (hv : doc.get? key = some v)
    (ht : t ∈ v.references) (hv' : doc.get? key' = some v') : t ∉ v'.references := by
  intro ht'
  cases doc with
  | scalar => cases hv
  | sequence => cases hv
  | mapping m =>
    have hsum := count_add_count_le hne hv hv' t
    have := List.count_pos_iff.mpr ht
    have := List.count_pos_iff.mpr ht'
    omega

end Node

namespace Extraction
open Registry

variable {o : Options}

/-! ## The references of the extracted document -/

/-- The bodies of all definitions are mappings. -/
theorem isMapping_of_run {doc : Node} {name : String} {body : Node}
    (h : ((run o doc).run .empty).2.get? name = some body) : body.isMapping = true := by
  rw [run_run] at h
  rcases tracing_paths.minted h with h | ⟨x, hx, h⟩
  · rcases tracing_schemas.minted h with h | ⟨x, hx, h⟩
    · cases h
    · exact (h.ne_emptyMapping hx.2).1
  · exact (h.ne_emptyMapping hx.2).1

theorem references_mergedTable {r : Registry} {table : Entries Node}
    (ht : (Entries.keys table).Nodup) (hfree : ∀ name ∈ r.names, Entries.get? table name = none)
    (hbodies : ∀ name body, r.get? name = some body → body.isMapping = true) :
    (Node.mapping (r.mergedTable table)).references.Perm
      ((Node.mapping table).references ++ r.entries.flatMap fun p => p.2.references) := by
  have hown : Node.ownReference (r.mergedTable table) = Node.ownReference table := by
    rw [Node.ownReference, Node.ownReference, get?_mergedTable ht hfree]
    cases Entries.get? table Node.refKey with
    | some v => rfl
    | none =>
      rw [Option.none_or]
      cases hb : r.get? Node.refKey with
      | none => rfl
      | some body =>
        cases body with
        | mapping => rfl
        | scalar => cases hbodies _ _ hb
        | sequence => cases hbodies _ _ hb
  rw [Node.references_mapping, Node.references_mapping, hown, List.append_assoc,
    ← List.flatMap_append]
  exact ((mergedTable_perm ht hfree).flatMap_right _).append_left _

/-- A successful extraction adds one reference to each new definition, and no other. -/
theorem references_extract {doc doc' : Node} {names : List String} (hdoc : doc.Distinct)
    (h : extract o doc = (doc', .ok names)) :
    doc'.references.Perm (doc.references ++ names.map o.refTo) := by
  have hmerge : ((run o doc).run .empty).2.merge o.definitionsPath ((run o doc).run .empty).1 =
      (doc', .ok names) := h
  cases hempty : ((run o doc).run .empty).2.isEmpty with
  | true =>
    rw [merge, hempty, if_pos rfl, run_eq_of_isEmpty hempty] at hmerge
    cases hmerge
    rw [List.map_nil, List.append_nil]
  | false =>
    obtain ⟨table, htable, rfl, hfree, hm, -⟩ := merge_eq_ok hmerge hempty
    have hrun := balanced_run (o := o) doc .empty
    have hmodify := (references_modifyAt? htable rfl hm).1
    have hmerged := references_mergedTable ((run_distinct hdoc).lookup htable).nodup hfree
      fun _ _ => isMapping_of_run
    rw [Balanced, added_empty] at hrun
    rw [names, Entries.keys, List.map_map]
    rw [List.perm_iff_count] at hrun hmodify hmerged ⊢
    intro t
    have := hrun t
    have := hmodify t
    have := hmerged t
    simp only [List.count_append, Function.comp_def] at *
    omega

theorem count_refTo {names : List String} (hnodup : names.Nodup) {name : String}
    (h : name ∈ names) : (names.map o.refTo).count (o.refTo name) = 1 :=
  List.count_eq_one_of_mem (hnodup.map fun _ _ => o.refTo_injective) (List.mem_map_of_mem h)

/-! ## Payloads -/

def ContentSchema (holder schema : Node) : Prop :=
  holder.isReference = false ∧ ∃ types type media, holder.get? "content" = some (.mapping types) ∧
    (type, media) ∈ types ∧ media.get? "schema" = some schema

/-- The schema is that of a payload under these paths. -/
inductive Payload (paths schema : Node) : Prop
  | response {items item responses : Entries Node} {path key status : String} {op holder : Node}
      (hpaths : paths = .mapping items) (hitem : (path, .mapping item) ∈ items)
      (hop : (key, op) ∈ item) (hkey : methods.contains key) (hname : (operationName? op).isSome)
      (hresponses : op.get? "responses" = some (.mapping responses))
      (hholder : (status, holder) ∈ responses) (h : ContentSchema holder schema) :
      Payload paths schema
  | request {items item : Entries Node} {path key : String} {op holder : Node}
      (hpaths : paths = .mapping items) (hitem : (path, .mapping item) ∈ items)
      (hop : (key, op) ∈ item) (hkey : methods.contains key) (hname : (operationName? op).isSome)
      (hholder : op.get? "requestBody" = some holder) (h : ContentSchema holder schema) :
      Payload paths schema

theorem entries?_eq_some {n : Node} {m : Entries Node} (h : n.entries? = some m) :
    n = .mapping m := by
  cases n with
  | scalar => cases h
  | sequence => cases h
  | mapping => cases h; rfl

theorem atContent_of_forall {P : Node → Prop} {holder : Node}
    (h : ∀ schema, ContentSchema holder schema → P schema) : AtContent P holder := by
  intro href types htypes m hm p hp schema hschema
  obtain rfl := entries?_eq_some hm
  exact h schema ⟨href, m, p.1, p.2, htypes, hp, hschema⟩

theorem atPayloads_of_forall {P : Node → Prop} {paths : Node}
    (h : ∀ schema, Payload paths schema → P schema) : AtPayloads P paths := by
  intro items hitems ⟨path, n⟩ hitem item hn ⟨key, op⟩ hop hkey hname
  have hn : n = .mapping item := entries?_eq_some hn
  obtain rfl := hn
  constructor
  · intro n hresponses responses hn ⟨status, holder⟩ hholder
    obtain rfl := entries?_eq_some hn
    exact atContent_of_forall fun schema hs => h schema
      (.response (entries?_eq_some hitems) hitem hop hkey hname hresponses hholder hs)
  · intro holder hholder
    exact atContent_of_forall fun schema hs => h schema
      (.request (entries?_eq_some hitems) hitem hop hkey hname hholder hs)

theorem within_of_contentSchema {holder schema : Node} (h : ContentSchema holder schema) :
    schema.Within holder := by
  obtain ⟨-, types, type, media, htypes, hmedia, hschema⟩ := h
  exact (Node.within_of_get? hschema).trans ((Node.within_of_get? htypes).values _ hmedia)

theorem Payload.within {paths schema : Node} (h : Payload paths schema) : schema.Within paths := by
  cases h with
  | response hpaths hitem hop _ _ hresponses hholder h =>
    have hop := (Node.Within.self.values _ hitem).values _ hop
    have hholder := ((Node.within_of_get? hresponses).trans hop).values _ hholder
    rw [hpaths]
    exact (within_of_contentSchema h).trans hholder
  | request hpaths hitem hop _ _ hholder h =>
    have hop := (Node.Within.self.values _ hitem).values _ hop
    rw [hpaths]
    exact ((within_of_contentSchema h).trans (Node.within_of_get? hholder)).trans hop

/-! ## The way up -/

/-- The way from a new definition to the one whose body refers to it, and on from there, ends at a
definition of the source or at a payload. -/
inductive Rooted (o : Options) (source doc : Node) (names : List String) : String → Prop
  | definition {name d : String} {body : Node}
      (hd : (source.lookup (o.definitionsPath ++ [d])).isSome)
      (hbody : doc.lookup (o.definitionsPath ++ [d]) = some body)
      (h : o.refTo name ∈ body.references) : Rooted o source doc names name
  | payload {name : String} {paths schema : Node} (hpaths : doc.get? "paths" = some paths)
      (hschema : Payload paths schema) (h : o.refTo name ∈ schema.references) :
      Rooted o source doc names name
  | minted {name d : String} {body : Node} (hd : d ∈ names)
      (hbody : doc.lookup (o.definitionsPath ++ [d]) = some body)
      (h : o.refTo name ∈ body.references) (hroot : Rooted o source doc names d) :
      Rooted o source doc names name

/-- The body of one new definition refers to another. -/
def Holds (o : Options) (doc : Node) (names : List String) (d name : String) : Prop :=
  d ∈ names ∧ ∃ body, doc.lookup (o.definitionsPath ++ [d]) = some body ∧
    o.refTo name ∈ body.references

variable {doc doc' : Node} {names : List String} {table table' : Entries Node} {R₁ R : Registry}

theorem Extracted.lookup_definition (h : Extracted o doc doc' names table table' R₁ R)
    (hdoc : doc.Distinct) (d : String) : doc'.lookup (o.definitionsPath ++ [d]) =
      (Entries.get? table' d).or (R.get? d) := by
  rw [Node.lookup_concat, h.merged, Option.bind_some, Node.get?_mapping, h.get?_merged hdoc]

theorem Extracted.isSome_definition_iff (h : Extracted o doc doc' names table table' R₁ R)
    (d : String) : (doc.lookup (o.definitionsPath ++ [d])).isSome ↔ d ∈ Entries.keys table := by
  rw [Node.lookup_concat, h.found, Option.bind_some, Node.get?_mapping, Entries.get?_isSome_iff]

/-- The new definitions can be reached from the original ones and the payloads. -/
theorem Extracted.rooted (h : Extracted o doc doc' names table table' R₁ R) (hdoc : doc.Distinct)
    {name : String} (hname : name ∈ names) : Rooted o doc doc' names name := by
  let A : Set String := {name | R.get? name ≠ none → Rooted o doc doc' names name}
  have hA : Closed o R A := by
    intro d hd body hbody name href _
    have hnames : d ∈ names := by
      rw [h.names_eq, mem_names, hbody]
      rfl
    refine .minted hnames ?_ href (hd (by rw [hbody]; exact Option.some_ne_none _))
    rw [h.lookup_definition hdoc, h.get?_eq_none hdoc hbody, Option.none_or, hbody]
  have hdefinitions : fresh .empty R₁ ⊆ A := by
    have hreaches := accounted_definitions.reaches R A hA (.mapping table) .empty
    rw [h.tableRun] at hreaches
    refine hreaches h.grows.keeps (atEntries_mapping.mpr fun p hp name href _ => ?_)
    have hkeys := h.keys_eq hdoc
    refine .definition (d := p.1) ?_ ?_ href
    · rw [h.isSome_definition_iff, hkeys]
      exact List.mem_map_of_mem hp
    · have hnodup := (hdoc.lookup h.found).nodup
      rw [hkeys] at hnodup
      rw [h.lookup_definition hdoc, Entries.get?_of_mem hnodup hp, Option.some_or]
  have hpayloads : fresh R₁ R ⊆ A := by
    cases hv : doc.get? "paths" with
    | none =>
      rw [(h.noPaths hv).1]
      exact fresh_refl_subset R₁ A
    | some v =>
      obtain ⟨hpaths, hR⟩ := h.payloads v hv
      have hreaches := accounted_pathItems.reaches R A hA v R₁
      rw [hR] at hreaches
      refine hreaches (Grows.refl R).keeps (atPayloads_of_forall fun schema hs name href _ => ?_)
      exact .payload hpaths hs href
  have hR : R.get? name ≠ none := by
    rw [h.names_eq, mem_names] at hname
    exact Option.isSome_iff_ne_none.mp hname
  exact fresh_subset_trans hdefinitions hpayloads ⟨rfl, hR⟩ hR

/-- Where each new definition has one reference, none can be reached from itself. -/
theorem Extracted.not_circular (h : Extracted o doc doc' names table table' R₁ R)
    (hpath : o.definitionsPath ≠ [])
    (hpaths : o.definitionsPath.head? ≠ some "paths")
    (hcount : ∀ name ∈ names, doc'.references.count (o.refTo name) = 1) {name : String}
    (hroot : Rooted o doc doc' names name) :
    name ∈ names → ¬Relation.TransGen (Holds o doc' names) name name := by
  have hlookup (d : String) : doc'.lookup (o.definitionsPath ++ [d]) =
      Entries.get? (R.mergedTable table') d := by
    rw [Node.lookup_concat, h.merged, Option.bind_some, Node.get?_mapping]
  induction hroot with
  | @definition name d body hd hbody href =>
    intro hname hcircle
    obtain ⟨c, -, hc, body', hbody', href'⟩ := Relation.TransGen.tail'_iff.mp hcircle
    rw [hlookup] at hbody hbody'
    obtain rfl := Node.eq_of_count_eq_one h.merged (hcount name hname) hbody href hbody' href'
    rw [h.isSome_definition_iff] at hd
    rw [h.names_eq] at hc
    exact Entries.get?_eq_none_iff.mp (h.free d hc) hd
  | @payload name paths schema hp hschema href =>
    intro hname hcircle
    obtain ⟨c, -, hc, body', hbody', href'⟩ := Relation.TransGen.tail'_iff.mp hcircle
    obtain ⟨key, path, hkey⟩ := List.exists_cons_of_ne_nil hpath
    have hne : key ≠ "paths" := by
      rw [hkey] at hpaths
      exact fun he => hpaths (congrArg some he)
    rw [hkey, List.cons_append, lookup_cons] at hbody'
    obtain ⟨v, hv, hbody'⟩ := Option.bind_eq_some_iff.mp hbody'
    refine Node.not_mem_of_count_eq_one hne (hcount name hname) hv ?_ hp
      (Node.references_subset_of_within hschema.within href)
    exact List.count_pos_iff.mp
      ((List.count_pos_iff.mpr href').trans_le (Node.count_le_of_lookup hbody' _))
  | @minted name d body hd hbody href _ ih =>
    intro hname hcircle
    obtain ⟨c, hreach, hlast⟩ := Relation.TransGen.tail'_iff.mp hcircle
    obtain ⟨-, body', hbody', href'⟩ := hlast
    have hstep : Holds o doc' names d name := ⟨hd, body, hbody, href⟩
    rw [hlookup] at hbody hbody'
    obtain rfl := Node.eq_of_count_eq_one h.merged (hcount name hname) hbody href hbody' href'
    exact ih hd (.head' hstep hreach)

/-- New definitions and the references to them match one to one and form a forest. The reference to
a definition is the only one, so there is only one way up from it. -/
theorem minted_forest (o : Options) (doc doc' : Node) (names : List String)
    (hpath : o.definitionsPath ≠ []) (hpaths : o.definitionsPath.head? ≠ some "paths")
    (hdoc : doc.Distinct) (h : extract o doc = (doc', .ok names))
    (hfree : ∀ name ∈ names, o.refTo name ∉ doc.references) (name : String) (hname : name ∈ names) :
    (doc'.lookup (o.definitionsPath ++ [name])).isSome ∧ name ≠ "" ∧
      o.definitionName? (o.refTo name) = some name ∧
      doc'.references.count (o.refTo name) = 1 ∧ Rooted o doc doc' names name ∧
      ¬Relation.TransGen (Holds o doc' names) name name := by
  rcases extract_cases hpath hpaths h with ⟨-, -, rfl⟩ | ⟨table, table', R₁, R, hx⟩
  · cases hname
  · have hcount : ∀ n ∈ names, doc'.references.count (o.refTo n) = 1 := by
      intro n hn
      have hnodup : names.Nodup := by
        rw [hx.names_eq]
        exact R.sorted.nodup
      rw [(references_extract hdoc h).count_eq, List.count_append,
        List.count_eq_zero_of_not_mem (hfree n hn), count_refTo hnodup hn]
    have hR : (R.get? name).isSome := mem_names.mp (hx.names_eq ▸ hname)
    have hne : name ≠ "" := by
      rintro rfl
      rw [hx.get?_empty_name] at hR
      cases hR
    have hroot := hx.rooted hdoc hname
    refine ⟨?_, hne, o.definitionName?_refTo hne, hcount name hname, hroot,
      hx.not_circular hpath hpaths hcount hroot hname⟩
    rw [hx.lookup_definition hdoc, Option.isSome_or, hR, Bool.or_true]

def forestSource : Node :=
  .mapping [
    ("d", .mapping [("A", .mapping [("properties", .mapping [("p", .mapping [("properties",
      .mapping [("q", .mapping [("properties", .mapping [])])])])])])]),
    ("paths", .mapping [("/x", .mapping [("get", .mapping [("operationId", Node.string "x"),
      ("requestBody", .mapping [("content", .mapping [("t", .mapping [("schema",
        .mapping [("properties", .mapping [])])])])])])])])]

def forestDocument : Node :=
  .mapping [
    ("d", .mapping [
      ("A", .mapping [("properties", .mapping [("p", Node.reference "#/d/AP")])]),
      ("AP", .mapping [("properties", .mapping [("q", Node.reference "#/d/APQ")])]),
      ("APQ", .mapping [("properties", .mapping [])]),
      ("XRequestBody", .mapping [("properties", .mapping [])])]),
    ("paths", .mapping [("/x", .mapping [("get", .mapping [("operationId", Node.string "x"),
      ("requestBody", .mapping [("content", .mapping [("t", .mapping [("schema",
        Node.reference "#/d/XRequestBody")])])])])])])]

theorem extract_forestSource : extract ⟨["d"], .yaml⟩ forestSource =
    (forestDocument, .ok ["AP", "APQ", "XRequestBody"]) := rfl

theorem minted_forest_forestSource :
    let o : Options := ⟨["d"], .yaml⟩
    let names := ["AP", "APQ", "XRequestBody"]
    (o.definitionsPath ≠ [] ∧ o.definitionsPath.head? ≠ some "paths" ∧ forestSource.Distinct ∧
      extract o forestSource = (forestDocument, .ok names) ∧
      ∀ name ∈ names, o.refTo name ∉ forestSource.references) ∧
    ∀ name ∈ names, o.definitionName? (o.refTo name) = some name ∧
      forestDocument.references.count (o.refTo name) = 1 ∧
      Rooted o forestSource forestDocument names name ∧
      ¬Relation.TransGen (Holds o forestDocument names) name name := by
  intro o names
  have hextract : extract o forestSource = (forestDocument, .ok names) := extract_forestSource
  have hdistinct : forestSource.Distinct := Node.distinct_ofValue forestSource.toValue
  have hfree : ∀ name ∈ names, o.refTo name ∉ forestSource.references := by decide
  refine ⟨⟨by decide, by decide, hdistinct, hextract, hfree⟩, fun name hname => ?_⟩
  obtain ⟨-, -, hname, hcount, hroot, hcircle⟩ := minted_forest o forestSource forestDocument names
    (by decide) (by decide) hdistinct hextract hfree name hname
  exact ⟨hname, hcount, hroot, hcircle⟩

end Extraction
end InlineSchema
