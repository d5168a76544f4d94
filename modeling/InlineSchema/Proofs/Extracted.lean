import InlineSchema.Proofs.Document

/-! # The document that an extraction gives

Where the definitions stand outside the paths, the two parts of an extraction do not meet. A
successful extraction then leaves the walked definitions together with the new ones in the table,
and the operations with their payloads in the paths.
-/
namespace InlineSchema

namespace Node

theorem get?_modifyAt?_of_ne {f : Node → Node} {n n' : Node} {key k : String} {path : List String}
    (h : n.modifyAt? f (key :: path) = some n') (hk : k ≠ key) : n'.get? k = n.get? k := by
  obtain ⟨m, _, _, rfl, -, -, rfl⟩ := modifyAt?_cons_eq_some h
  exact Entries.get?_modify_of_ne m _ hk

theorem exists_modifyAt? (f : Node → Node) {n v : Node} {path : List String}
    (h : n.lookup path = some v) :
    ∃ n', n.modifyAt? f path = some n' ∧ n'.lookup path = some (f v) := by
  induction path generalizing n with
  | nil =>
    obtain rfl := Option.some.inj h
    exact ⟨f n, rfl, rfl⟩
  | cons key path ih =>
    obtain ⟨m, child, rfl, hc, h⟩ := lookup_cons_eq_some h
    obtain ⟨child', hm, hl⟩ := ih h
    refine ⟨_, modifyAt?_mapping_cons hc hm, ?_⟩
    rw [Extraction.lookup_cons, get?_mapping, Entries.get?_modify_self, hc]
    exact hl

theorem Distinct.modifyAt? {f : Node → Node} {n n' : Node} {path : List String} (hn : n.Distinct)
    (hf : ∀ v, v.Distinct → (f v).Distinct) (h : n.modifyAt? f path = some n') : n'.Distinct := by
  induction path generalizing n n' with
  | nil =>
    cases h
    exact hf n hn
  | cons key path ih =>
    obtain ⟨m, child, child', rfl, hc, hchild, rfl⟩ := modifyAt?_cons_eq_some h
    exact hn.modify key (ih (hn.values _ (Entries.mem_of_get? hc)) hchild)

theorem Distinct.lookup {n v : Node} {path : List String} (hn : n.Distinct)
    (h : n.lookup path = some v) : v.Distinct := by
  induction path generalizing n with
  | nil =>
    cases h
    exact hn
  | cons key path ih =>
    rw [Extraction.lookup_cons] at h
    obtain ⟨child, hc, h⟩ := Option.bind_eq_some_iff.mp h
    exact ih (hn.get? hc) h

theorem lookup_congr {n n' : Node} {key : String} {path : List String}
    (h : n'.get? key = n.get? key) : n'.lookup (key :: path) = n.lookup (key :: path) := by
  rw [Extraction.lookup_cons, Extraction.lookup_cons, h]

end Node

namespace Extraction
open Registry

variable {o : Options}

theorem keys_onEntries (f : String → Node → StateM Registry Node) (m : Entries Node) (r : Registry) :
    ∃ m', (((Node.mapping m).onEntries f).run r).1 = .mapping m' ∧
      Entries.keys m' = Entries.keys m := by
  refine ⟨(changed f m r).1, congrArg Prod.fst (run_onEntries f m r), ?_⟩
  induction m generalizing r with
  | nil => rfl
  | cons p m ih => exact congrArg (List.cons p.1) (ih ((f p.1 p.2).run r).2)

/-! ## A successful extraction -/

/-- The table of definitions, before and after, with the registries after each of the two parts,
where the extraction of `doc` gives `doc'` and adds `names`. -/
structure Extracted (o : Options) (doc doc' : Node) (names : List String)
    (table table' : Entries Node) (R₁ R : Registry) : Prop where
  found : doc.lookup o.definitionsPath = some (.mapping table)
  tableRun : ((Node.mapping table).onEntries (walk o)).run .empty = (.mapping table', R₁)
  noPaths : doc.get? "paths" = none → R = R₁ ∧ doc'.get? "paths" = none
  payloads : ∀ v, doc.get? "paths" = some v →
    doc'.get? "paths" = some ((pathItems o v).run R₁).1 ∧ ((pathItems o v).run R₁).2 = R
  merged : doc'.lookup o.definitionsPath = some (.mapping (R.mergedTable table'))
  free : ∀ name ∈ R.names, Entries.get? table name = none
  names_eq : names = R.names

variable {doc doc' : Node} {names : List String} {table table' : Entries Node} {R₁ R : Registry}

theorem Extracted.grows (h : Extracted o doc doc' names table table' R₁ R) : Grows R₁ R := by
  cases hv : doc.get? "paths" with
  | none => rw [(h.noPaths hv).1]; exact Grows.refl _
  | some v =>
    rw [← (h.payloads v hv).2]
    exact (moving_pathItems v R₁).1

theorem Extracted.keys_eq (h : Extracted o doc doc' names table table' R₁ R) (hdoc : doc.Distinct) :
    Entries.keys table = Entries.keys table' := by
  obtain ⟨-, hkeys, -⟩ := moved_definitions h.tableRun (hdoc.lookup h.found).nodup
  exact hkeys

/-- The definitions of the extracted document are those that were there and the new ones. -/
theorem Extracted.get?_merged (h : Extracted o doc doc' names table table' R₁ R)
    (hdoc : doc.Distinct) (name : String) :
    Entries.get? (R.mergedTable table') name = (Entries.get? table' name).or (R.get? name) := by
  have hkeys := h.keys_eq hdoc
  refine get?_mergedTable (hkeys ▸ (hdoc.lookup h.found).nodup) (fun name hname => ?_) name
  exact Entries.get?_eq_none_of_keys hkeys (h.free name hname)

/-- No definition that was there has the name of a new one. -/
theorem Extracted.get?_eq_none (h : Extracted o doc doc' names table table' R₁ R)
    (hdoc : doc.Distinct) {name : String} {body : Node} (hbody : R.get? name = some body) :
    Entries.get? table' name = none :=
  Entries.get?_eq_none_of_keys (h.keys_eq hdoc)
    (h.free name (mem_names.mpr (Option.isSome_of_eq_some hbody)))

/-- The empty name is not taken: only a definition of that name could lead to it. -/
theorem Extracted.get?_empty_name (h : Extracted o doc doc' names table table' R₁ R) :
    R.get? "" = none := by
  by_contra hR
  have hfree := h.free "" (mem_names.mpr (Option.isSome_iff_ne_none.mpr hR))
  have hkeys : ∀ p ∈ table, p.1 ≠ "" := fun p hp he =>
    Entries.get?_eq_none_iff.mp hfree (he ▸ List.mem_map_of_mem hp)
  have hR₁ : R₁.get? "" = none := by
    have hwalk : (((Node.mapping table).onEntries (walk o)).run .empty).2.get? "" = none :=
      onEntries_preserves (I := fun r => r.get? "" = none)
        (fun p hp r hr => (walked o p.1 p.2 r).get?_empty_name (hkeys p hp) hr) rfl
    rwa [h.tableRun] at hwalk
  refine hR ?_
  cases hv : doc.get? "paths" with
  | none => rwa [(h.noPaths hv).1]
  | some v =>
    rw [← (h.payloads v hv).2]
    refine pathItems_preserves (P := fun _ => True) (I := fun r => r.get? "" = none)
      (fun _ _ _ _ => trivial) (fun name hname n _ r hr => ?_) trivial hR₁
    rcases walked_payload name n r with ⟨-, hw, -⟩ | ⟨-, hw⟩
    · exact hw.get?_empty_name hname hr
    · exact hw.get?_empty_name hname hr

theorem schemas_of_lookup {doc : Node} {table : Entries Node}
    (h : doc.lookup o.definitionsPath = some (.mapping table)) (r : Registry) :
    let x := ((Node.mapping table).onEntries (walk o)).run r
    ∃ doc₁, (schemas o doc).run r = (doc₁, x.2) ∧
      doc.modifyAt? (fun _ => x.1) o.definitionsPath = some doc₁ ∧
      doc₁.lookup o.definitionsPath = some x.1 := by
  intro x
  obtain ⟨doc₁, hm, hl⟩ := Node.exists_modifyAt? (fun _ => x.1) h
  refine ⟨doc₁, ?_, hm, hl⟩
  rw [schemas, h]
  have hget : (doc.modifyAt? (fun _ => x.1) o.definitionsPath).getD doc = doc₁ := by
    rw [hm]
    rfl
  exact congrArg (·, x.2) hget

/-- A merge of new definitions succeeds if the table is there and has none of their names. -/
theorem merge_eq_ok {r : Registry} {path : List String} {doc doc' : Node} {names : List String}
    (h : r.merge path doc = (doc', .ok names)) (hr : r.isEmpty = false) :
    ∃ table, doc.lookup path = some (.mapping table) ∧ names = r.names ∧
      (∀ name ∈ r.names, Entries.get? table name = none) ∧
      doc.modifyAt? (fun _ => .mapping (r.mergedTable table)) path = some doc' ∧
      doc'.lookup path = some (.mapping (r.mergedTable table)) := by
  rw [merge, hr, if_neg Bool.false_ne_true] at h
  split at h
  next => cases h
  next table htable =>
    obtain ⟨n, hn, hentries⟩ := Option.bind_eq_some_iff.mp htable
    cases n with
    | scalar => cases hentries
    | sequence => cases hentries
    | mapping m =>
      cases hentries
      split at h
      next => cases h
      next hfree =>
        obtain ⟨doc₁, hm, hl⟩ :=
          Node.exists_modifyAt? (fun _ => .mapping (r.mergedTable table)) hn
        rw [hm, Option.getD_some] at h
        cases h
        refine ⟨table, hn, rfl, fun name hname => ?_, hm, hl⟩
        have := List.find?_eq_none.mp hfree name hname
        simpa [Entries.contains] using this

theorem isEmpty_iff {r : Registry} : r.isEmpty = true ↔ r = .empty := by
  refine ⟨fun h => ?_, fun h => h ▸ rfl⟩
  obtain ⟨entries, hs⟩ := r
  obtain rfl : entries = [] := List.isEmpty_iff.mp h
  rfl

/-- The definitions are where they were when the payloads have been moved. -/
theorem lookup_run {key : String} {path : List String} (hkey : key ≠ "paths") (doc : Node) :
    ((run o doc).run .empty).1.lookup (key :: path) =
      ((schemas o doc).run .empty).1.lookup (key :: path) :=
  Node.lookup_congr (get?_onChild_of_ne hkey _ _ _)

theorem lookup_of_schemas {doc : Node} {table' : Entries Node} {r : Registry}
    (h : ((schemas o doc).run r).1.lookup o.definitionsPath = some (.mapping table')) :
    ∃ table, doc.lookup o.definitionsPath = some (.mapping table) := by
  by_contra hnot
  rw [schemas] at h
  split at h
  next table htable => exact hnot ⟨table, htable⟩
  next => exact hnot ⟨table', h⟩

/-- Either there was nothing to move, or the table was there and has taken the new definitions. -/
theorem extract_cases {doc doc' : Node} {names : List String} (hpath : o.definitionsPath ≠ [])
    (hpaths : o.definitionsPath.head? ≠ some "paths") (h : extract o doc = (doc', .ok names)) :
    (run o doc).run .empty = (doc, .empty) ∧ doc' = doc ∧ names = [] ∨
      ∃ table table' R₁ R, Extracted o doc doc' names table table' R₁ R := by
  have hmerge : ((run o doc).run .empty).2.merge o.definitionsPath ((run o doc).run .empty).1 =
      (doc', .ok names) := h
  cases hempty : ((run o doc).run .empty).2.isEmpty with
  | true =>
    have hrun : (run o doc).run .empty = (doc, .empty) :=
      Prod.ext (run_eq_of_isEmpty hempty) (isEmpty_iff.mp hempty)
    rw [hrun] at hmerge
    cases hmerge
    exact .inl ⟨hrun, rfl, rfl⟩
  | false =>
    obtain ⟨key, path, hkey⟩ := List.exists_cons_of_ne_nil hpath
    have hne : key ≠ "paths" := by
      rw [hkey] at hpaths
      exact fun he => hpaths (congrArg some he)
    obtain ⟨table', htable', hnames, hfree, hm, hl⟩ := merge_eq_ok hmerge hempty
    have hlookup := htable'
    rw [hkey, lookup_run hne, ← hkey] at hlookup
    obtain ⟨table, htable⟩ := lookup_of_schemas hlookup
    obtain ⟨doc₁, hdoc₁, hm₁, hl₁⟩ := schemas_of_lookup htable .empty
    obtain ⟨t, ht, hkeys⟩ := keys_onEntries (walk o) table .empty
    have htable₁ : t = table' := by
      rw [hdoc₁] at hlookup
      rw [hl₁, ht] at hlookup
      exact Node.mapping.inj (Option.some.inj hlookup)
    subst htable₁
    have hrun : (run o doc).run .empty =
        (paths o doc₁).run (((Node.mapping table).onEntries (walk o)).run .empty).2 := by
      rw [run_run, hdoc₁]
    have hpaths₁ : doc₁.get? "paths" = doc.get? "paths" := by
      rw [hkey] at hm₁
      exact Node.get?_modifyAt?_of_ne hm₁ (Ne.symm hne)
    have hpaths' : doc'.get? "paths" = ((run o doc).run .empty).1.get? "paths" := by
      rw [hkey] at hm
      exact Node.get?_modifyAt?_of_ne hm (Ne.symm hne)
    rw [hrun, paths_eq] at hpaths'
    refine .inr ⟨table, t, (((Node.mapping table).onEntries (walk o)).run .empty).2,
      ((run o doc).run .empty).2, htable, Prod.ext ht rfl, fun hnone => ?_, fun v hv => ?_, hl,
      fun name hname => ?_, hnames⟩
    · have hpure := onChild_of_get?_eq_none (f := pathItems o) (hpaths₁.trans hnone)
      rw [hpure] at hpaths'
      refine ⟨?_, hpaths'.trans (hpaths₁.trans hnone)⟩
      rw [hrun, paths_eq, hpure]
      rfl
    · obtain ⟨hvalue, hregistry⟩ := get?_onChild (f := pathItems o) (hpaths₁.trans hv)
        (((Node.mapping table).onEntries (walk o)).run .empty).2
      refine ⟨hpaths'.trans hvalue, ?_⟩
      rw [hrun, paths_eq, hregistry]
    · exact Entries.get?_eq_none_of_keys hkeys (hfree name hname)

/-! ## The document stays well-formed -/

theorem Moving.distinct {g : ReadAs} {f : Node → StateM Registry Node} (hf : Moving o g f)
    {n : Node} (hn : n.Distinct) (r : Registry) : ((f n).run r).1.Distinct :=
  ((hf n r).2 _ _ subset_rfl (Grows.refl _).keeps).distinct hn

theorem distinctBodies_walk {base : String} {n : Node} (hn : n.Distinct) {r : Registry}
    (hr : DistinctBodies r) : DistinctBodies ((walk o base n).run r).2 :=
  (walked o base n r).distinctBodies hn hr

theorem distinctBodies_payload {name : String} {n : Node} (hn : n.Distinct) {r : Registry}
    (hr : DistinctBodies r) : DistinctBodies ((payload o name n).run r).2 := by
  rcases walked_payload name n r with ⟨-, h, -⟩ | ⟨-, h⟩
  · exact h.distinctBodies hn hr
  · exact h.distinctBodies hn hr

theorem distinctBodies_schemas {doc : Node} (hdoc : doc.Distinct) :
    DistinctBodies ((schemas o doc).run .empty).2 := by
  have hempty : DistinctBodies .empty := nofun
  rw [schemas]
  split
  next table htable =>
    have ht : (Node.mapping table).Distinct := hdoc.lookup htable
    exact onEntries_preserves (fun p hp r hr => distinctBodies_walk (ht.values p hp) hr) hempty
  next => exact hempty

theorem distinctBodies_paths {doc : Node} (hdoc : doc.Distinct) {r : Registry}
    (hr : DistinctBodies r) : DistinctBodies ((paths o doc).run r).2 :=
  onChild_preserves (fun _ hv _ hr => pathItems_preserves (fun _ hm => hm.values)
    (fun _ _ _ hn _ hr => distinctBodies_payload hn hr) (hdoc.get? hv) hr) hr

theorem distinct_mergedTable {r : Registry} (hr : DistinctBodies r) {table : Entries Node}
    (ht : (Node.mapping table).Distinct) : (Node.mapping (r.mergedTable table)).Distinct := by
  refine .mapping (Entries.sorted_sort _).nodup fun p hp => ?_
  rcases List.mem_append.mp (Entries.mem_of_mem_sort hp) with hp | hp
  · exact ht.values p hp
  · exact hr p.1 p.2 (Entries.get?_of_mem r.sorted.nodup hp)

theorem run_distinct {doc : Node} (hdoc : doc.Distinct) :
    ((run o doc).run .empty).1.Distinct :=
  moving_paths.distinct (moving_schemas.distinct hdoc .empty) _

theorem extract_distinct {doc doc' : Node} {names : List String}
    (h : extract o doc = (doc', .ok names)) (hdoc : doc.Distinct) : doc'.Distinct := by
  have hmerge : ((run o doc).run .empty).2.merge o.definitionsPath ((run o doc).run .empty).1 =
      (doc', .ok names) := h
  have h₁ := moving_schemas.distinct (o := o) hdoc .empty
  have h₂ := run_distinct (o := o) hdoc
  have hR : DistinctBodies ((run o doc).run .empty).2 :=
    distinctBodies_paths h₁ (distinctBodies_schemas hdoc)
  cases hempty : ((run o doc).run .empty).2.isEmpty with
  | true =>
    rw [merge, hempty, if_pos rfl] at hmerge
    cases hmerge
    exact h₂
  | false =>
    obtain ⟨table, htable, -, -, hm, -⟩ := merge_eq_ok hmerge hempty
    exact h₂.modifyAt? (fun _ _ => distinct_mergedTable hR (h₂.lookup htable)) hm

end Extraction
end InlineSchema
