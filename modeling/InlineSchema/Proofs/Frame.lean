import InlineSchema.Proofs.Completeness
import InlineSchema.Proofs.Footprint

/-! # The frame of an extraction

An extraction goes down through sections that may be missing or malformed, and leaves all of them as
they are. It changes the tree in the definitions and in the schemas of payloads alone, and there at
the objects that it moves. The table gets other keys only when new definitions join it.
-/
namespace InlineSchema

theorem Node.text?_eq_some {v : Node} {t : String} (h : v.text? = some t) : v = Node.string t := by
  match v, h with
  | .scalar (.string _), rfl => rfl

namespace Extraction
open Registry

variable {o : Options}

/-! ## Actions and where they change a tree -/

def Framed (P : Node → List Step → Prop) (f : Node → StateM Registry Node) : Prop :=
  ∀ n r, ChangesWithin (P n) n ((f n).run r).1

def Under (key : String) (P : Node → List Step → Prop) (n : Node) (path : List Step) : Prop :=
  ∃ v rest, n.get? key = some v ∧ path = .key key :: rest ∧ P v rest

def UnderEach (P : String → Node → List Step → Prop) (n : Node) (path : List Step) : Prop :=
  ∃ key, Under key (P key) n path

variable {P : Node → List Step → Prop} {f : Node → StateM Registry Node}

theorem framed_pure : Framed P pure := fun n _ => .refl (P n) n

theorem Framed.mono {P' : Node → List Step → Prop} (h : Framed P f)
    (hP : ∀ n path, P n path → P' n path) : Framed P' f := fun n r => (h n r).mono (hP n)

theorem Framed.onChild (hf : Framed P f) (key : String) :
    Framed (Under key P) (Node.onChild key f) := by
  intro n r
  cases hv : n.get? key with
  | none =>
    rw [onChild_of_get?_eq_none hv]
    exact .refl _ _
  | some v =>
    cases n with
    | scalar => cases hv
    | sequence => cases hv
    | mapping m =>
      have hget : Entries.get? m key = some v := hv
      rw [run_onChild hget]
      exact changesWithin_modify hget ((hf v r).mono fun rest h => ⟨v, rest, hv, rfl, h⟩)

theorem Framed.onEntries {P : String → Node → List Step → Prop}
    {f : String → Node → StateM Registry Node} (hf : ∀ key, Framed (P key) (f key)) :
    Framed (UnderEach P) (Node.onEntries f) := by
  intro n r
  cases n with
  | scalar => exact .refl _ _
  | sequence => exact .refl _ _
  | mapping m =>
    obtain ⟨m', hm', hk⟩ := keys_onEntries f m r
    rw [hm']
    refine changesWithin_mapping hk fun k v v' hv hv' => ?_
    obtain ⟨r', hget⟩ := get?_onEntries f (.mapping m) k r
    simp only [hm', Node.get?_mapping, hv, hv', Option.map_some, Option.some.injEq] at hget
    rw [hget]
    exact (hf k v r').mono fun rest h => ⟨k, v, rest, hv, rfl, h⟩

/-! ## The payloads of a document -/

/-- At the end of these keys stands the schema of a payload, of a request or response that is no
reference, where the operation has an identifier that is not empty. -/
inductive PayloadAt (doc : Node) : List String → Node → Prop
  | response {path method status type id : String} {op holder schema : Node}
      (hmethod : method ∈ methods) (hop : doc.lookup ["paths", path, method] = some op)
      (hid : op.get? "operationId" = some (Node.string id)) (hne : id ≠ "")
      (hholder : op.lookup ["responses", status] = some holder) (href : holder.isReference = false)
      (hschema : holder.lookup ["content", type, "schema"] = some schema) :
      PayloadAt doc ["paths", path, method, "responses", status, "content", type, "schema"] schema
  | request {path method type id : String} {op holder schema : Node}
      (hmethod : method ∈ methods) (hop : doc.lookup ["paths", path, method] = some op)
      (hid : op.get? "operationId" = some (Node.string id)) (hne : id ≠ "")
      (hholder : op.get? "requestBody" = some holder) (href : holder.isReference = false)
      (hschema : holder.lookup ["content", type, "schema"] = some schema) :
      PayloadAt doc ["paths", path, method, "requestBody", "content", type, "schema"] schema

def UnderContent (Q : Node → List Step → Prop) (holder : Node) (path : List Step) : Prop :=
  holder.isReference = false ∧
    Under "content" (UnderEach fun _ => Under "schema" Q) holder path

def UnderOperation (Q : Node → List Step → Prop) (op : Node) (path : List Step) : Prop :=
  (∃ id, op.get? "operationId" = some (Node.string id) ∧ id ≠ "") ∧
    (Under "responses" (UnderEach fun _ => UnderContent Q) op path ∨
      Under "requestBody" (UnderContent Q) op path)

def UnderPaths (Q : Node → List Step → Prop) : Node → List Step → Prop :=
  Under "paths" (UnderEach fun _ => UnderEach fun key op path =>
    key ∈ methods ∧ UnderOperation Q op path)

theorem underContent_iff {Q : Node → List Step → Prop} {holder : Node} {path : List Step} :
    UnderContent Q holder path ↔ holder.isReference = false ∧ ∃ type schema rest,
      holder.lookup ["content", type, "schema"] = some schema ∧
        path = ["content", type, "schema"].map .key ++ rest ∧ Q schema rest := by
  refine and_congr_right fun _ => ?_
  constructor
  · rintro ⟨types, _, htypes, rfl, type, media, _, hmedia, rfl, schema, rest, hschema, rfl, h⟩
    exact ⟨type, schema, rest, by simp [Node.lookup, htypes, hmedia, hschema], rfl, h⟩
  · rintro ⟨type, schema, rest, hlookup, rfl, h⟩
    obtain ⟨types, htypes, hlookup⟩ := Option.bind_eq_some_iff.mp hlookup
    obtain ⟨media, hmedia, hlookup⟩ := Option.bind_eq_some_iff.mp hlookup
    obtain ⟨_, hschema, ⟨⟩⟩ := Option.bind_eq_some_iff.mp hlookup
    exact ⟨types, _, htypes, rfl, type, media, _, hmedia, rfl, schema, rest, hschema, rfl, h⟩

theorem underPaths_iff {Q : Node → List Step → Prop} {doc : Node} {path : List Step} :
    UnderPaths Q doc path ↔ ∃ keys schema rest,
      PayloadAt doc keys schema ∧ path = keys.map .key ++ rest ∧ Q schema rest := by
  constructor
  · rintro ⟨paths, _, hpaths, rfl, p, item, _, hitem, rfl, method, op, _, hop, rfl, hmethod,
      ⟨id, hid, hne⟩, h⟩
    have hlookup : doc.lookup ["paths", p, method] = some op := by
      simp [Node.lookup, hpaths, hitem, hop]
    rcases h with ⟨responses, _, hresponses, rfl, status, holder, _, hstatus, rfl, h⟩ |
      ⟨holder, _, hholder, rfl, h⟩
    · obtain ⟨href, type, schema, rest, hschema, rfl, hq⟩ := underContent_iff.mp h
      have hholder : op.lookup ["responses", status] = some holder := by
        simp [Node.lookup, hresponses, hstatus]
      exact ⟨_, schema, rest, .response hmethod hlookup hid hne hholder href hschema, rfl, hq⟩
    · obtain ⟨href, type, schema, rest, hschema, rfl, hq⟩ := underContent_iff.mp h
      exact ⟨_, schema, rest, .request hmethod hlookup hid hne hholder href hschema, rfl, hq⟩
  · rintro ⟨_, schema, rest, hp, rfl, h⟩
    have hunder : ∀ {p method : String} {op : Node} {path : List Step}, method ∈ methods →
        doc.lookup ["paths", p, method] = some op → UnderOperation Q op path →
          UnderPaths Q doc (["paths", p, method].map .key ++ path) := by
      intro p method op path hmethod hlookup hop
      obtain ⟨paths, hpaths, hlookup⟩ := Option.bind_eq_some_iff.mp hlookup
      obtain ⟨item, hitem, hlookup⟩ := Option.bind_eq_some_iff.mp hlookup
      obtain ⟨_, hget, ⟨⟩⟩ := Option.bind_eq_some_iff.mp hlookup
      exact ⟨paths, _, hpaths, rfl, p, item, _, hitem, rfl, method, op, _, hget, rfl, hmethod, hop⟩
    cases hp with
    | @response p method status type id op holder schema hmethod hop hid hne hholder href hschema =>
      obtain ⟨responses, hresponses, hholder⟩ := Option.bind_eq_some_iff.mp hholder
      obtain ⟨_, hstatus, ⟨⟩⟩ := Option.bind_eq_some_iff.mp hholder
      have hcontent : UnderContent Q holder _ :=
        underContent_iff.mpr ⟨href, type, schema, rest, hschema, rfl, h⟩
      refine hunder hmethod hop ⟨⟨id, hid, hne⟩, .inl ?_⟩
      exact ⟨responses, _, hresponses, rfl, status, holder, _, hstatus, rfl, hcontent⟩
    | @request p method type id op holder schema hmethod hop hid hne hholder href hschema =>
      have hcontent : UnderContent Q holder _ :=
        underContent_iff.mpr ⟨href, type, schema, rest, hschema, rfl, h⟩
      exact hunder hmethod hop ⟨⟨id, hid, hne⟩, .inr ⟨holder, _, hholder, rfl, hcontent⟩⟩

/-- A schema of a payload is moved for being an object without a name or a composition, and walked
otherwise. -/
def PayloadFootprint (schema : Node) (path : List Step) : Prop :=
  (schema.isInlineObject || schema.isComposition) = true ∨ Footprint schema path

def ContentFootprint (holder : Node) (path : List Step) : Prop :=
  holder.isReference = false ∧
    Under "content" (UnderEach fun _ => Under "schema" PayloadFootprint) holder path

def OperationFootprint (op : Node) (path : List Step) : Prop :=
  (∃ id, op.get? "operationId" = some (Node.string id) ∧ id ≠ "") ∧
    (Under "responses" (UnderEach fun _ => ContentFootprint) op path ∨
      Under "requestBody" ContentFootprint op path)

def PathsFootprint : Node → List Step → Prop :=
  Under "paths" (UnderEach fun _ => UnderEach fun key op path =>
    key ∈ methods ∧ OperationFootprint op path)

theorem framed_walk (base : String) : Framed Footprint (walk o base) :=
  fun n r => (walked o base n r).framed

theorem framed_payload (name : String) : Framed PayloadFootprint (payload o name) := by
  intro n r
  rcases walked_payload (o := o) name n r with ⟨hi, -, -⟩ | ⟨-, h⟩
  · exact fun path hpath => absurd (.inl hi) hpath
  · exact h.framed.mono fun _ => .inr

theorem framed_content (name : String) : Framed ContentFootprint (content o name) := by
  intro n r
  unfold content
  cases href : n.isReference with
  | true => exact .refl _ _
  | false =>
    have hmedia : Framed _ _ := (framed_payload (o := o) name).onChild "schema"
    have htypes : Framed _ _ := (Framed.onEntries fun _ => hmedia).onChild "content"
    exact (htypes n r).mono fun path hpath => ⟨href, hpath⟩

theorem exists_operationId {op : Node} {name : String} (h : operationName? op = some name) :
    ∃ id, op.get? "operationId" = some (Node.string id) ∧ id ≠ "" := by
  obtain ⟨id, hid, -⟩ := Option.map_eq_some_iff.mp h
  obtain ⟨htext, hne⟩ := Option.filter_eq_some_iff.mp hid
  obtain ⟨v, hv, ht⟩ := Option.bind_eq_some_iff.mp htext
  obtain rfl := Node.text?_eq_some ht
  exact ⟨id, hv, by simpa using hne⟩

theorem framed_operation : Framed OperationFootprint (operation o) := by
  intro n r
  unfold operation
  cases hname : operationName? n with
  | none => exact .refl _ _
  | some name =>
    have hid := exists_operationId hname
    have hresponses : Framed _ _ := (Framed.onEntries fun status =>
      framed_content (o := o) (responseName name status)).onChild "responses"
    have hrequest : Framed _ _ :=
      (framed_content (o := o) (requestName name)).onChild "requestBody"
    refine ((hresponses n r).mono fun path h => ⟨hid, .inl h⟩).trans
      ((hrequest _ _).mono fun path h => ⟨hid, .inr ?_⟩)
    obtain ⟨holder, rest, hholder, hpath, h⟩ := h
    have hne : "requestBody" ≠ "responses" := by decide
    rw [get?_onChild_of_ne hne] at hholder
    exact ⟨holder, rest, hholder, hpath, h⟩

theorem framed_paths : Framed PathsFootprint (paths o) := by
  refine Framed.onChild (.onEntries fun _ => .onEntries fun key => ?_) "paths"
  cases hkey : methods.contains key with
  | false => exact framed_pure
  | true => exact framed_operation.mono fun _ _ h => ⟨by simpa using hkey, h⟩

/-! ## What an extraction touches -/

/-- The path leads to an object or a payload that the extraction moves, or into one, from an original
definition or the schema of a payload. -/
inductive Touched (o : Options) (doc : Node) : List Step → Prop
  | definition {table : Entries Node} {name : String} {body : Node} {path : List Step}
      (htable : doc.lookup o.definitionsPath = some (.mapping table))
      (hbody : Entries.get? table name = some body) (h : Footprint body path) :
      Touched o doc (o.definitionsPath.map .key ++ .key name :: path)
  | payload {keys : List String} {schema : Node} {path : List Step} (h : PayloadAt doc keys schema)
      (hpath : PayloadFootprint schema path) : Touched o doc (keys.map .key ++ path)

theorem touched_of_pathsFootprint {doc : Node} {path : List Step} (h : PathsFootprint doc path) :
    Touched o doc path := by
  obtain ⟨keys, schema, rest, hp, rfl, hq⟩ := underPaths_iff.mp h
  exact .payload hp hq

theorem changesWithin_modifyAt? {S : List Step → Prop} {keys : List String} {n n' v v' : Node}
    (hn : n.lookup keys = some v) (hn' : n.modifyAt? (fun _ => v') keys = some n')
    (h : ChangesWithin (fun path => S (keys.map .key ++ path)) v v') : ChangesWithin S n n' := by
  induction keys generalizing n n' S with
  | nil =>
    cases hn
    cases hn'
    exact h
  | cons key keys ih =>
    obtain ⟨m, child, rfl, hget, hv⟩ := Node.lookup_cons_eq_some hn
    simp only [Node.modifyAt?, hget] at hn'
    obtain ⟨child', hchild', rfl⟩ := Option.map_eq_some_iff.mp hn'
    exact changesWithin_modify hget (ih hv hchild' h)

/-- The definitions are walked where they stand. -/
theorem changesWithin_schemas (doc : Node) (r : Registry) :
    ChangesWithin (Touched o doc) doc ((schemas o doc).run r).1 := by
  by_cases h : ∃ table, doc.lookup o.definitionsPath = some (.mapping table)
  · obtain ⟨table, htable⟩ := h
    obtain ⟨doc₁, hrun, hm, -⟩ := schemas_of_lookup htable r
    rw [hrun]
    apply changesWithin_modifyAt? htable hm
    refine (Framed.onEntries (framed_walk (o := o)) (.mapping table) r).mono ?_
    rintro _ ⟨name, body, path, hbody, rfl, hpath⟩
    exact .definition htable hbody hpath
  · unfold schemas
    split
    next table htable => exact absurd ⟨table, htable⟩ h
    next => exact .refl _ _

theorem get?_schemas_paths (hne : o.definitionsPath ≠ [])
    (hhead : o.definitionsPath.head? ≠ some "paths") (doc : Node) (r : Registry) :
    ((schemas o doc).run r).1.get? "paths" = doc.get? "paths" := by
  by_cases h : ∃ table, doc.lookup o.definitionsPath = some (.mapping table)
  · obtain ⟨table, htable⟩ := h
    obtain ⟨doc₁, hrun, hm, -⟩ := schemas_of_lookup htable r
    rw [hrun]
    obtain ⟨key, keys, hkeys⟩ := List.exists_cons_of_ne_nil hne
    rw [hkeys] at hm
    apply Node.get?_modifyAt?_of_ne hm
    rintro rfl
    exact hhead (by simp [hkeys])
  · unfold schemas
    split
    next table htable => exact absurd ⟨table, htable⟩ h
    next => rfl

theorem changesWithin_run (hne : o.definitionsPath ≠ [])
    (hhead : o.definitionsPath.head? ≠ some "paths") (doc : Node) :
    ChangesWithin (Touched o doc) doc ((run o doc).run .empty).1 := by
  rw [run_run]
  refine (changesWithin_schemas doc .empty).trans ((framed_paths _ _).mono fun path h => ?_)
  obtain ⟨paths, rest, hpaths, hpath, h⟩ := h
  rw [get?_schemas_paths hne hhead] at hpaths
  exact touched_of_pathsFootprint ⟨paths, rest, hpaths, hpath, h⟩

/-! ## The table -/

/-- The names that have joined the table. -/
def joined (outcome : Except Failure (List String)) : List String := outcome.toOption.getD []

/-- The path leads to the table, or into a new definition of it. -/
def JoinFootprint (keys names : List String) (path : List Step) : Prop :=
  names ≠ [] ∧
    (path = keys.map .key ∨ ∃ name ∈ names, keys.map .key ++ [.key name] <+: path)

theorem merge_eq_error {r : Registry} {keys : List String} {doc doc' : Node} {e : Failure}
    (h : r.merge keys doc = (doc', .error e)) : doc' = doc := by
  unfold merge at h
  split at h
  · cases h
  · split at h
    · cases h; rfl
    · split at h
      · cases h; rfl
      · cases h

theorem changesWithin_merge {r : Registry} {keys : List String} {doc : Node}
    (hdoc : doc.Distinct) :
    ChangesWithin (JoinFootprint keys (joined (r.merge keys doc).2)) doc (r.merge keys doc).1 := by
  cases hmerge : r.merge keys doc with
  | mk doc' outcome =>
    cases outcome with
    | error e =>
      rw [merge_eq_error hmerge]
      exact .refl _ _
    | ok names =>
      cases hempty : r.isEmpty with
      | true =>
        simp only [merge, hempty, ↓reduceIte, Prod.mk.injEq] at hmerge
        rw [← hmerge.1]
        exact .refl _ _
      | false =>
        obtain ⟨table, htable, rfl, hfree, hm, -⟩ := merge_eq_ok hmerge hempty
        have hne : r.names ≠ [] := by
          intro hnil
          rw [names, Entries.keys, List.map_eq_nil_iff] at hnil
          simp [isEmpty, hnil] at hempty
        have ht := (hdoc.lookup htable).nodup
        refine changesWithin_modifyAt? htable hm fun path hpath => ?_
        cases path with
        | nil => exact absurd ⟨hne, .inl (by simp)⟩ hpath
        | cons step path =>
          cases step with
          | index => simp
          | key k =>
            have hk : r.get? k = none := by
              by_contra hk
              have hmem : k ∈ r.names := mem_names.mpr (Option.isSome_iff_ne_none.mpr hk)
              exact hpath ⟨hne, .inr ⟨k, hmem, by simp [List.prefix_append_right_inj]⟩⟩
            simp [get?_mergedTable ht hfree, hk]

/-! ## The whole extraction -/

theorem PayloadAt.head? {doc schema : Node} {keys : List String} (h : PayloadAt doc keys schema) :
    keys.head? = some "paths" := by
  cases h <;> rfl

theorem Touched.inside {doc : Node} {path : List Step} (h : Touched o doc path) :
    o.definitionsPath.map .key <+: path ∨
      ∃ keys schema, PayloadAt doc keys schema ∧ keys.map .key <+: path := by
  cases h with
  | definition => exact .inl (List.prefix_append ..)
  | payload h => exact .inr ⟨_, _, h, List.prefix_append ..⟩

theorem Touched.ne_table {doc : Node} {path : List Step}
    (hhead : o.definitionsPath.head? ≠ some "paths") (h : Touched o doc path) :
    path ≠ o.definitionsPath.map .key := by
  intro he
  cases h with
  | definition => simp at he
  | @payload keys schema path h =>
    have hkeys := h.head?
    cases keys with
    | nil => cases hkeys
    | cons key keys =>
      obtain rfl : key = "paths" := Option.some.inj hkeys
      cases hpath : o.definitionsPath with
      | nil => simp [hpath] at he
      | cons key' keys' =>
        simp only [hpath, List.map_cons, List.cons_append, List.cons.injEq, Step.key.injEq] at he
        exact hhead (by rw [hpath, ← he.1, List.head?_cons])

/-- An extraction touches nothing else, whether the new definitions join the table or not. The tree
has the same values, keys and order of keys everywhere outside the table and outside the schemas of
the payloads. Inside these it has the same outside the objects and payloads that are moved and
outside the new definitions, and without new definitions the table has the same keys in the same
order. -/
theorem extract_touches (o : Options) (doc : Node) (hne : o.definitionsPath ≠ [])
    (hhead : o.definitionsPath.head? ≠ some "paths") (hdoc : doc.Distinct) :
    let doc' := (extract o doc).1
    let names := joined (extract o doc).2
    let table := o.definitionsPath.map Step.key
    (∀ path, ¬table <+: path →
      (∀ keys schema, PayloadAt doc keys schema → ¬keys.map Step.key <+: path) →
      doc'.shapeAt path = doc.shapeAt path) ∧
    (∀ path, ¬Touched o doc path → ¬JoinFootprint o.definitionsPath names path →
      doc'.shapeAt path = doc.shapeAt path) ∧
    (names = [] → doc'.shapeAt table = doc.shapeAt table) := by
  intro doc' names table
  have hinside : ∀ path, ¬Touched o doc path → ¬JoinFootprint o.definitionsPath names path →
      doc'.shapeAt path = doc.shapeAt path := by
    intro path htouched hjoin
    have hrun := changesWithin_run hne hhead doc path htouched
    have hmerge := changesWithin_merge (run_distinct hdoc) path hjoin
    exact hmerge.trans hrun
  refine ⟨fun path htable hpayload => hinside path ?_ ?_, hinside, fun hnone => ?_⟩
  · intro htouched
    rcases htouched.inside with h | ⟨keys, schema, h, hkeys⟩
    · exact htable h
    · exact hpayload keys schema h hkeys
  · rintro ⟨-, rfl | ⟨name, -, h⟩⟩
    · exact htable List.prefix_rfl
    · exact htable ((List.prefix_append ..).trans h)
  · apply hinside
    · exact fun htouched => htouched.ne_table hhead rfl
    · exact fun hjoin => hjoin.1 hnone

def referencedResponse : Yaml.Value :=
  .mapping [
    (.string "paths", .mapping [(.string "p", .mapping [(.string "get", .mapping [
      (.string "operationId", .string "x"),
      (.string "responses", .mapping [(.string "200", .mapping [
        (.string "$ref", .string "#/r"),
        (.string "content", .mapping [(.string "t", .mapping [(.string "schema",
          .mapping [(.string "properties", .mapping [])])])])])])])])]),
    (.string "d", .mapping [(.string "A", .mapping [(.string "properties",
      .mapping [(.string "b", .mapping [(.string "properties", .mapping [])])])])])]

theorem extract_touches_referencedResponse :
    let o : Options := ⟨["d"], .yaml⟩
    let doc := Node.ofValue referencedResponse
    let path : List Step := ["paths", "p", "get", "responses", "200", "content", "t", "schema",
      "properties"].map .key
    doc.Distinct ∧ (extract o doc).2 = .ok ["AB"] ∧
      (extract o doc).1.shapeAt path = some (.mapping []) := by
  intro o doc path
  have hdoc : doc.Distinct := Node.distinct_ofValue referencedResponse
  have hpayload : ∀ keys schema, PayloadAt doc keys schema → ¬keys.map Step.key <+: path := by
    intro keys schema h hkeys
    cases h with
    | @response p method status type id op holder schema hmethod hop hid hne hholder href =>
      simp only [path, List.map_cons, List.cons_prefix_cons, Step.key.injEq] at hkeys
      obtain ⟨-, rfl, rfl, -, rfl, -⟩ := hkeys
      cases hop
      cases hholder
      cases href
    | request => simp [path, List.cons_prefix_cons] at hkeys
  have hsame := (extract_touches o doc (by decide) (by decide) hdoc).1 path (by decide) hpayload
  exact ⟨hdoc, rfl, hsame.trans rfl⟩

end Extraction
end InlineSchema
