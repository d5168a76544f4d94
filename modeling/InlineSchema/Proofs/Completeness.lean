import InlineSchema.Proofs.Extracted
import InlineSchema.Proofs.PascalCase
import InlineSchema.Proofs.Settling

/-! # What a second extraction finds

An extraction adds nothing exactly if its document is settled, and it leaves a settled document
exactly if what it finds hides nothing from it.
-/
namespace InlineSchema.Extraction
open Registry

variable {o : Options}

def AtDefinitions (o : Options) (P : Node → Prop) (doc : Node) : Prop :=
  ∀ table, doc.lookup o.definitionsPath = some table → AtEntries (fun _ => P) table

/-- Nothing in the document is to be moved. -/
def SettledDocument (o : Options) (doc : Node) : Prop :=
  AtDefinitions o Settled doc ∧ AtChild "paths" (AtPayloads SettledPayload) doc

/-- Nothing is hidden from an extraction. The payloads are looked at as the walk of the definitions
leaves them, which is how they were found unless the document itself is the table. -/
def ExposedDocument (o : Options) (doc : Node) : Prop :=
  AtDefinitions o Exposed doc ∧
    AtChild "paths" (AtPayloads Exposed) ((schemas o doc).run .empty).1

theorem atDefinitions_of_lookup {P : Node → Prop} {doc table : Node}
    (h : doc.lookup o.definitionsPath = some table) :
    AtDefinitions o P doc ↔ AtEntries (fun _ => P) table := by
  constructor
  · exact fun hd => hd table h
  · intro hd t ht
    rw [h] at ht
    cases ht
    exact hd

theorem atDefinitions_of_not_mapping {P : Node → Prop} {doc : Node}
    (h : ∀ table, doc.lookup o.definitionsPath ≠ some (.mapping table)) : AtDefinitions o P doc := by
  intro t ht m hm
  cases t with
  | scalar | sequence => cases hm
  | mapping t => exact absurd ht (h t)

theorem fresh_schemas_eq_empty_iff (doc : Node) (r : Registry) :
    fresh r ((schemas o doc).run r).2 = ∅ ↔ AtDefinitions o Settled doc := by
  by_cases h : ∃ table, doc.lookup o.definitionsPath = some (.mapping table)
  · obtain ⟨table, htable⟩ := h
    obtain ⟨doc₁, hdoc₁, -, -⟩ := schemas_of_lookup htable r
    rw [hdoc₁, atDefinitions_of_lookup htable]
    exact settling_definitions.fresh_eq_empty_iff _ r
  · have hnone := not_exists.mp h
    rw [schemas]
    split
    next table htable => exact absurd htable (hnone table)
    next => exact iff_of_true (fresh_refl r) (atDefinitions_of_not_mapping hnone)

theorem settled_schemas_iff (doc : Node) (r : Registry) :
    SettledBodies ((schemas o doc).run r).2 ∧ AtDefinitions o Settled ((schemas o doc).run r).1 ↔
      SettledBodies r ∧ AtDefinitions o Exposed doc := by
  by_cases h : ∃ table, doc.lookup o.definitionsPath = some (.mapping table)
  · obtain ⟨table, htable⟩ := h
    obtain ⟨doc₁, hdoc₁, -, hl⟩ := schemas_of_lookup htable r
    rw [hdoc₁, atDefinitions_of_lookup htable, atDefinitions_of_lookup hl]
    exact settling_definitions.settled_iff _ r
  · have hnone := not_exists.mp h
    rw [schemas]
    split
    next table htable => exact absurd htable (hnone table)
    next =>
      exact and_congr_right fun _ => iff_of_true (atDefinitions_of_not_mapping hnone)
        (atDefinitions_of_not_mapping hnone)

/-- An extraction takes no name exactly if its document is settled. -/
theorem fresh_run_eq_empty_iff (doc : Node) (r : Registry) :
    fresh r ((run o doc).run r).2 = ∅ ↔ SettledDocument o doc := by
  rw [run_run, fresh_trans_eq_empty (grows_schemas doc r) (settling_paths.grows _ _),
    settling_paths.fresh_eq_empty_iff]
  constructor
  · rintro ⟨hfresh, hpaths⟩
    rw [moving_schemas.eq hfresh] at hpaths
    exact ⟨(fresh_schemas_eq_empty_iff doc r).mp hfresh, hpaths⟩
  · rintro ⟨hdefinitions, hpaths⟩
    have hfresh := (fresh_schemas_eq_empty_iff doc r).mpr hdefinitions
    refine ⟨hfresh, ?_⟩
    rw [moving_schemas.eq hfresh]
    exact hpaths

theorem fresh_empty_eq_empty_iff {r : Registry} : fresh .empty r = ∅ ↔ r.isEmpty = true := by
  rw [isEmpty_iff]
  constructor
  · intro h
    have hnone : ∀ name, r.get? name = none := fun name => by
      by_contra hn
      exact Set.eq_empty_iff_forall_notMem.mp h name ⟨get?_empty name, hn⟩
    have hempty : r.isEmpty = true := by
      rw [isEmpty, List.isEmpty_iff]
      refine List.eq_nil_iff_forall_not_mem.mpr fun p hp => ?_
      have hget : r.get? p.1 = some p.2 := Entries.get?_of_mem r.sorted.nodup hp
      rw [hnone] at hget
      cases hget
    exact isEmpty_iff.mp hempty
  · rintro rfl
    exact fresh_refl _

/-- An extraction that adds nothing has found nothing. -/
theorem isEmpty_of_extract {doc doc' : Node} (h : extract o doc = (doc', .ok [])) :
    ((run o doc).run .empty).2.isEmpty = true := by
  have hmerge : ((run o doc).run .empty).2.merge o.definitionsPath ((run o doc).run .empty).1 =
      (doc', .ok []) := h
  by_contra hne
  obtain ⟨table, -, hnames, -⟩ := merge_eq_ok hmerge (Bool.eq_false_of_not_eq_true hne)
  refine hne ?_
  rw [isEmpty, List.isEmpty_iff]
  exact List.map_eq_nil_iff.mp hnames.symm

theorem extract_of_isEmpty {doc : Node} (h : ((run o doc).run .empty).2.isEmpty = true) :
    extract o doc = (doc, .ok []) := by
  have hextract : extract o doc =
      ((run o doc).run .empty).2.merge o.definitionsPath ((run o doc).run .empty).1 := rfl
  rw [hextract, merge, if_pos h, run_eq_of_isEmpty h]

theorem extract_eq_self_iff (doc : Node) :
    extract o doc = (doc, .ok []) ↔ SettledDocument o doc := by
  rw [← fresh_run_eq_empty_iff doc .empty, fresh_empty_eq_empty_iff]
  exact ⟨isEmpty_of_extract, extract_of_isEmpty⟩

/-! ## The merge -/

theorem settled_mergedTable_iff {r : Registry} {table : Entries Node}
    (ht : (Entries.keys table).Nodup) (hfree : ∀ name ∈ r.names, Entries.get? table name = none) :
    AtEntries (fun _ => Settled) (.mapping (r.mergedTable table)) ↔
      SettledBodies r ∧ AtEntries (fun _ => Settled) (.mapping table) := by
  rw [atEntries_mapping, atEntries_mapping]
  constructor
  · intro h
    constructor
    · intro name body hbody
      have hfresh := hfree name (mem_names.mpr (by rw [hbody]; rfl))
      have hget : Entries.get? (r.mergedTable table) name = some body := by
        rw [get?_mergedTable ht hfree, hfresh, Option.none_or, hbody]
      exact h _ (Entries.mem_of_get? hget)
    · intro p hp
      have hget : Entries.get? (r.mergedTable table) p.1 = some p.2 := by
        rw [get?_mergedTable ht hfree, Entries.get?_of_mem ht hp, Option.some_or]
      exact h _ (Entries.mem_of_get? hget)
  · rintro ⟨hbodies, htable⟩ p hp
    rcases List.mem_append.mp (Entries.mem_of_mem_sort hp) with hp | hp
    · exact htable p hp
    · exact hbodies p.1 p.2 (Entries.get?_of_mem r.sorted.nodup hp)

/-- After the merge the document is settled if it was before, and the new definitions are. -/
theorem settled_merge_iff {r : Registry} {doc doc' : Node} {names : List String}
    (h : r.merge o.definitionsPath doc = (doc', .ok names)) (hdoc : doc.Distinct)
    (hpaths : doc'.get? "paths" = doc.get? "paths") :
    SettledDocument o doc' ↔ SettledBodies r ∧ SettledDocument o doc := by
  cases hempty : r.isEmpty with
  | true =>
    rw [merge, hempty, if_pos rfl] at h
    cases h
    refine (and_iff_right ?_).symm
    rw [isEmpty_iff.mp hempty]
    exact settledBodies_empty
  | false =>
    obtain ⟨table, htable, -, hfree, -, hl⟩ := merge_eq_ok h hempty
    have hnodup := (hdoc.lookup htable).nodup
    have hchild : AtChild "paths" (AtPayloads SettledPayload) doc' ↔
        AtChild "paths" (AtPayloads SettledPayload) doc := by
      rw [AtChild, AtChild, hpaths]
    rw [SettledDocument, SettledDocument, atDefinitions_of_lookup hl,
      atDefinitions_of_lookup htable, hchild, settled_mergedTable_iff hnodup hfree, and_assoc]

/-! ## The whole document as the table -/

structure SameSchema (n n' : Node) : Prop where
  isMapping : n'.isMapping = n.isMapping
  get? : ∀ key ∈ Node.refKey :: "type" :: Site.all.map Site.key, n'.get? key = n.get? key

theorem SameSchema.refl (n : Node) : SameSchema n n := ⟨rfl, fun _ _ => rfl⟩

theorem SameSchema.isInlineObject {n n' : Node} (h : SameSchema n n') :
    n'.isInlineObject = n.isInlineObject := by
  rw [Node.isInlineObject, Node.isInlineObject, Node.isReference, Node.isReference, h.isMapping,
    h.get? Node.refKey (by decide), h.get? "type" (by decide), h.get? "properties" (by decide)]

theorem SameSchema.settled_iff {n n' : Node} (h : SameSchema n n') : Settled n' ↔ Settled n := by
  rw [Extraction.settled_iff, Extraction.settled_iff]
  refine forall₂_congr fun s hs => ?_
  rw [h.get? s.key (List.mem_cons_of_mem _ (List.mem_cons_of_mem _ (List.mem_map_of_mem hs)))]

theorem isMapping_onChild (key : String) (f : Node → StateM Registry Node) (n : Node)
    (r : Registry) : ((n.onChild key f).run r).1.isMapping = n.isMapping := by
  cases n with
  | scalar | sequence => rfl
  | mapping m =>
    cases hv : Entries.get? m key with
    | none =>
      rw [onChild_of_none hv]
      rfl
    | some v =>
      rw [run_onChild hv]
      rfl

theorem sameSchema_operation (n : Node) (r : Registry) :
    SameSchema n ((operation o n).run r).1 := by
  rw [operation]
  cases operationName? n with
  | none => exact .refl n
  | some name =>
    constructor
    · rw [run_bind, isMapping_onChild, isMapping_onChild]
    · intro key hkey
      have hne : key ≠ "responses" ∧ key ≠ "requestBody" := by
        revert key
        decide
      rw [run_bind, get?_onChild_of_ne hne.2, get?_onChild_of_ne hne.1]

/-- Every entry is changed on its own, from whatever registry it is reached with. -/
theorem onEntries_forall₂ (f : String → Node → StateM Registry Node) (m : Entries Node)
    (r : Registry) :
    ∃ m', (((Node.mapping m).onEntries f).run r).1 = .mapping m' ∧
      List.Forall₂ (fun p p' => p'.1 = p.1 ∧ ∃ r, p'.2 = ((f p.1 p.2).run r).1) m m' := by
  refine ⟨(changed f m r).1, congrArg Prod.fst (run_onEntries f m r), ?_⟩
  induction m generalizing r with
  | nil => exact .nil
  | cons p m ih => exact .cons ⟨rfl, r, rfl⟩ (ih ((f p.1 p.2).run r).2)

theorem isMapping_onEntries (f : String → Node → StateM Registry Node) (n : Node) (r : Registry) :
    ((n.onEntries f).run r).1.isMapping = n.isMapping := by
  cases n with
  | scalar | sequence => rfl
  | mapping m =>
    obtain ⟨m', hm', -⟩ := onEntries_forall₂ f m r
    rw [hm']
    rfl

theorem get?_onEntries (f : String → Node → StateM Registry Node) (n : Node) (key : String)
    (r : Registry) :
    ∃ r', ((n.onEntries f).run r).1.get? key =
      (n.get? key).map fun v => ((f key v).run r').1 := by
  cases n with
  | scalar | sequence => exact ⟨r, rfl⟩
  | mapping m =>
    obtain ⟨m', hm', hall⟩ := onEntries_forall₂ f m r
    rw [hm', Node.get?_mapping, Node.get?_mapping]
    clear hm'
    induction hall with
    | nil => exact ⟨r, rfl⟩
    | @cons p p' m m' hp _ ih =>
      obtain ⟨hkey, r', hvalue⟩ := hp
      rw [Entries.get?_cons, Entries.get?_cons, hkey]
      split
      next hk =>
        rw [hvalue, hk]
        exact ⟨r', rfl⟩
      next => exact ih

def pathItem (o : Options) (item : Node) : StateM Registry Node :=
  item.onEntries fun key op => if methods.contains key then operation o op else pure op

theorem sameSchema_entry (key : String) (op : Node) (r : Registry) :
    SameSchema op ((if methods.contains key then operation o op else pure op :
      StateM Registry Node).run r).1 := by
  split
  next => exact sameSchema_operation op r
  next => exact .refl op

theorem sameSchema_pathItem (item : Node) (r : Registry) :
    SameSchema item ((pathItem o item).run r).1 := by
  constructor
  · exact isMapping_onEntries _ item r
  · intro key hkey
    have hno : methods.contains key = false := by
      revert key
      decide
    obtain ⟨r', hget⟩ := get?_onEntries (fun key op =>
      if methods.contains key then operation o op else pure op) item key r
    rw [pathItem, hget, hno]
    exact Option.map_id'

theorem site_settled_pathItem (s : Site) (v : Node) (r : Registry) :
    s.Settled ((pathItem o v).run r).1 ↔ s.Settled v := by
  cases s with
  | items =>
    have hsame := sameSchema_pathItem (o := o) v r
    rw [site_settled_items, site_settled_items, hsame.isInlineObject, hsame.settled_iff]
  | furtherProperties =>
    have hsame := sameSchema_pathItem (o := o) v r
    rw [site_settled_furtherProperties, site_settled_furtherProperties, hsame.isInlineObject,
      hsame.settled_iff]
  | branches key =>
    cases v with
    | scalar | sequence => rfl
    | mapping m =>
      obtain ⟨m', hm', -⟩ := onEntries_forall₂ (fun key op =>
        if methods.contains key then operation o op else pure op) m r
      rw [pathItem, hm']
      exact iff_of_true nofun nofun
  | properties =>
    cases v with
    | scalar | sequence => rfl
    | mapping m =>
      obtain ⟨m', hm', hall⟩ := onEntries_forall₂ (fun key op =>
        if methods.contains key then operation o op else pure op) m r
      rw [pathItem, hm', site_settled_properties, site_settled_properties]
      clear hm'
      induction hall with
      | nil => rfl
      | @cons p p' m m' hp _ ih =>
        obtain ⟨-, r', hvalue⟩ := hp
        have hsame := sameSchema_entry (o := o) p.1 p.2 r'
        rw [List.forall_mem_cons, List.forall_mem_cons, ih, hvalue, hsame.isInlineObject,
          hsame.settled_iff]

/-- The change of the payloads leaves the paths as settled as they were when read as a schema. -/
theorem settled_pathItems_iff (n : Node) (r : Registry) :
    Settled ((pathItems o n).run r).1 ↔ Settled n := by
  rw [settled_iff, settled_iff]
  refine forall₂_congr fun s _ => ?_
  obtain ⟨r', hget⟩ := get?_onEntries (fun _ => pathItem o) n s.key r
  have hget' : ((pathItems o n).run r).1.get? s.key =
      (n.get? s.key).map fun v => ((pathItem o v).run r').1 := hget
  rw [hget']
  cases n.get? s.key with
  | none => exact iff_of_true nofun nofun
  | some v =>
    have hsite := site_settled_pathItem (o := o) s v r'
    constructor
    · intro h w hw
      cases hw
      exact hsite.mp (h _ rfl)
    · intro h w hw
      cases hw
      exact hsite.mpr (h v rfl)

theorem forall_mem_modify {P : Node → Prop} {m : Entries Node} {key : String} {v v' : Node}
    (hv : Entries.get? m key = some v) (h : P v' ↔ P v) :
    (∀ p ∈ Entries.modify key (fun _ => v') m, P p.2) ↔ ∀ p ∈ m, P p.2 := by
  induction m with
  | nil => cases hv
  | cons p m ih =>
    rw [Entries.get?_cons] at hv
    rw [Entries.modify_cons]
    split at hv
    next hk =>
      cases hv
      rw [if_pos hk, List.forall_mem_cons, List.forall_mem_cons, h]
    next hk => rw [if_neg hk, List.forall_mem_cons, List.forall_mem_cons, ih hv]

theorem settled_paths_iff (hpaths : o.definitionsPath.head? ≠ some "paths") (doc : Node)
    (r : Registry) :
    AtDefinitions o Settled ((paths o doc).run r).1 ↔ AtDefinitions o Settled doc := by
  cases hpath : o.definitionsPath with
  | cons key path =>
    have hne : key ≠ "paths" := by
      rw [hpath] at hpaths
      exact fun he => hpaths (congrArg some he)
    rw [AtDefinitions, AtDefinitions, hpath, paths_eq,
      Node.lookup_congr (get?_onChild_of_ne hne _ _ _)]
  | nil =>
    have hself (n : Node) : n.lookup o.definitionsPath = some n := by
      rw [hpath]
      rfl
    rw [atDefinitions_of_lookup (hself _), atDefinitions_of_lookup (hself doc), paths_eq]
    cases doc with
    | scalar | sequence => rfl
    | mapping m =>
      cases hv : Entries.get? m "paths" with
      | none => rw [onChild_of_none hv]; rfl
      | some v =>
        rw [run_onChild hv, atEntries_mapping, atEntries_mapping]
        exact forall_mem_modify hv (settled_pathItems_iff v r)

def ApartFromPaths (key name : String) : Prop := name = key ∨ ¬name.toList <+: "paths".toList

theorem Appended.head {s : String} (h : Appended s) : ∀ c ∈ s.toList.head?, c.isLower = false := by
  cases h with
  | word text => exact Naming.pascalCase_head text
  | item | value =>
    intro c hc
    cases hc
    rfl
  | number n =>
    intro c hc
    have hmem := List.mem_of_mem_head? hc
    rw [Nat.toList_repr] at hmem
    have hdigit := Nat.isDigit_of_mem_toDigits (by decide) (by decide) hmem
    rw [Char.isDigit, Bool.and_eq_true, decide_eq_true_eq, decide_eq_true_eq] at hdigit
    rw [← Bool.not_eq_true, Naming.isLower_iff]
    have hle : c.toNat ≤ 57 := hdigit.2
    omega

theorem ApartFromPaths.append {key name s : String} (h : ApartFromPaths key name)
    (hs : Appended s) : ApartFromPaths key (name ++ s) := by
  have hlower : ∀ c ∈ "paths".toList, c.isLower = true := List.all_eq_true.mp rfl
  rw [ApartFromPaths, String.toList_append]
  rcases h with rfl | h
  · cases hlist : s.toList with
    | nil =>
      have hempty : s = "" := String.toList_eq_nil_iff.mp hlist
      rw [hempty, String.append_empty]
      exact .inl rfl
    | cons c cs =>
      refine .inr fun hprefix => ?_
      have hc := hs.head c (by rw [hlist]; rfl)
      have hmem := hprefix.subset (List.mem_append_right _ List.mem_cons_self)
      rw [hlower c hmem] at hc
      cases hc
  · exact .inr fun hprefix => h ((List.prefix_append _ _).trans hprefix)

/-- Without paths in it the table takes no definition of that name from the walk of another. -/
theorem get?_definitions_paths {table : Entries Node} (ht : Entries.get? table "paths" = none) :
    (((Node.mapping table).onEntries (walk o)).run .empty).2.get? "paths" = none := by
  refine onEntries_preserves (I := fun r => r.get? "paths" = none) (fun p hp r hr => ?_) rfl
  by_contra hr'
  have hne : p.1 ≠ "paths" := fun he =>
    Entries.get?_eq_none_iff.mp ht (he ▸ List.mem_map_of_mem hp)
  have happend : ∀ base s, Appended s → ApartFromPaths p.1 base → ApartFromPaths p.1 (base ++ s) :=
    fun _ _ hs h => h.append hs
  rcases (walked o p.1 p.2 r).names happend (.inl rfl) "paths" ⟨hr, hr'⟩ with he | hno
  · exact hne he.symm
  · exact hno List.prefix_rfl

theorem get?_run_paths_eq_none (hpath : o.definitionsPath = []) {doc : Node}
    (h : ((run o doc).run .empty).1.get? "paths" = none) :
    ((run o doc).run .empty).2.get? "paths" = none := by
  have hfirst : ((schemas o doc).run .empty).1.get? "paths" = none := by
    by_contra hsome
    obtain ⟨v, hv⟩ := Option.ne_none_iff_exists'.mp hsome
    have hget := (get?_onChild (f := pathItems o) hv ((schemas o doc).run .empty).2).1
    rw [run_run, paths_eq, hget] at h
    cases h
  have hregistry : ((run o doc).run .empty).2 = ((schemas o doc).run .empty).2 := by
    rw [run_run, paths_eq, onChild_of_get?_eq_none hfirst]
    rfl
  rw [hregistry]
  cases doc with
  | scalar | sequence =>
    rw [schemas, hpath]
    rfl
  | mapping table =>
    have hself : (Node.mapping table).lookup o.definitionsPath = some (.mapping table) := by
      rw [hpath]
      rfl
    obtain ⟨doc₁, hdoc₁, -, hl⟩ := schemas_of_lookup hself .empty
    rw [hpath] at hl
    obtain rfl := Option.some.inj hl
    rw [hdoc₁] at hfirst ⊢
    obtain ⟨r, hget⟩ := get?_onEntries (walk o) (.mapping table) "paths" .empty
    rw [hget] at hfirst
    exact get?_definitions_paths (Option.map_eq_none_iff.mp hfirst)

/-- The paths are those of the document before the merge. -/
theorem get?_paths_of_extract (hpaths : o.definitionsPath.head? ≠ some "paths") {doc doc' : Node}
    {names : List String} (h : extract o doc = (doc', .ok names)) (hdoc : doc.Distinct) :
    doc'.get? "paths" = ((run o doc).run .empty).1.get? "paths" := by
  have hmerge : ((run o doc).run .empty).2.merge o.definitionsPath ((run o doc).run .empty).1 =
      (doc', .ok names) := h
  cases hempty : ((run o doc).run .empty).2.isEmpty with
  | true =>
    rw [merge, hempty, if_pos rfl] at hmerge
    cases hmerge
    rfl
  | false =>
    obtain ⟨table, htable, -, hfree, hm, hl⟩ := merge_eq_ok hmerge hempty
    cases hpath : o.definitionsPath with
    | cons key path =>
      have hne : "paths" ≠ key := by
        rintro rfl
        rw [hpath] at hpaths
        exact hpaths rfl
      rw [hpath] at hm
      exact Node.get?_modifyAt?_of_ne hm hne
    | nil =>
      have hrun := run_distinct (o := o) hdoc
      have hnodup := (hrun.lookup htable).nodup
      have hnone := @get?_run_paths_eq_none o hpath doc
      rw [hpath] at hl htable
      rw [Option.some.inj hl]
      rw [Option.some.inj htable] at hnone ⊢
      rw [Node.get?_mapping, Node.get?_mapping, get?_mergedTable hnodup hfree]
      cases hget : Entries.get? table "paths" with
      | none => exact hnone hget
      | some v => rfl

/-- Where the table stands apart from the paths, the payloads are those that were found. -/
theorem exposedDocument_iff (hpath : o.definitionsPath ≠ [])
    (hpaths : o.definitionsPath.head? ≠ some "paths") (doc : Node) :
    ExposedDocument o doc ↔
      AtDefinitions o Exposed doc ∧ AtChild "paths" (AtPayloads Exposed) doc := by
  have hget : ((schemas o doc).run .empty).1.get? "paths" = doc.get? "paths" := by
    obtain ⟨key, path, hkey⟩ := List.exists_cons_of_ne_nil hpath
    have hne : "paths" ≠ key := by
      rintro rfl
      rw [hkey] at hpaths
      exact hpaths rfl
    by_cases h : ∃ table, doc.lookup o.definitionsPath = some (.mapping table)
    · obtain ⟨table, htable⟩ := h
      obtain ⟨doc₁, hdoc₁, hm, -⟩ := schemas_of_lookup htable .empty
      rw [hkey] at hm
      rw [hdoc₁]
      exact Node.get?_modifyAt?_of_ne hm hne
    · rw [schemas]
      split
      next table htable => exact absurd ⟨table, htable⟩ h
      next => rfl
  rw [ExposedDocument, AtChild, AtChild, hget]

/-- A successful extraction leaves a settled document exactly if nothing is hidden from it. -/
theorem settled_extract_iff (hpaths : o.definitionsPath.head? ≠ some "paths") {doc doc' : Node}
    {names : List String} (h : extract o doc = (doc', .ok names)) (hdoc : doc.Distinct) :
    SettledDocument o doc' ↔ ExposedDocument o doc := by
  have hrun := run_distinct (o := o) hdoc
  have hfirst := settled_schemas_iff (o := o) doc .empty
  have hsecond := (settling_paths (o := o)).settled_iff ((schemas o doc).run .empty).1
    ((schemas o doc).run .empty).2
  have hmerge : ((run o doc).run .empty).2.merge o.definitionsPath ((run o doc).run .empty).1 =
      (doc', .ok names) := h
  rw [settled_merge_iff hmerge hrun (get?_paths_of_extract hpaths h hdoc), run_run, SettledDocument,
    settled_paths_iff hpaths]
  exact (settledBodies_trans hfirst hsecond).trans (and_iff_right settledBodies_empty)

end InlineSchema.Extraction
