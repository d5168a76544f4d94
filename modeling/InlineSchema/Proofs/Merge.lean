import Mathlib
import InlineSchema.Proofs.Frame

/-! # Joining the table

New definitions join the table all together or not at all. Without a table they cannot, nor where a
name is taken, of which the first in the order of names is told. If they can, the table holds both
the old definitions and the new ones, in the order of their names, and nothing else has changed.
-/
namespace InlineSchema

/-- In an increasing list the first element with a property is the least. -/
theorem find?_eq_some_iff_isLeast {p : String → Bool} {l : List String} (hl : l.Pairwise (· < ·))
    {x : String} : l.find? p = some x ↔ IsLeast {y | y ∈ l ∧ p y = true} x := by
  induction l with
  | nil => simp [IsLeast]
  | cons y l ih =>
    obtain ⟨hy, hl⟩ := List.pairwise_cons.mp hl
    rw [List.find?_cons]
    cases hp : p y with
    | true =>
      constructor
      · rintro ⟨⟩
        refine ⟨⟨List.mem_cons_self, hp⟩, fun z hz => ?_⟩
        rcases List.mem_cons.mp hz.1 with rfl | hz
        · exact le_rfl
        · exact (hy z hz).le
      · intro h
        rcases List.mem_cons.mp h.1.1 with rfl | hx
        · rfl
        · exact absurd (h.2 ⟨List.mem_cons_self, hp⟩) (not_le_of_gt (hy x hx))
    | false =>
      have hset : {z | z ∈ y :: l ∧ p z = true} = {z | z ∈ l ∧ p z = true} := by
        ext z
        by_cases hz : z = y <;> simp [hz, hp]
      rw [hset]
      exact ih hl

namespace Registry

variable {r : Registry} {path : List String} {doc : Node} {table : Entries Node}

theorem names_increasing (r : Registry) : r.names.Pairwise (· < ·) := List.pairwise_map.mpr r.sorted

theorem contains_eq_true {name : String} : Entries.contains table name = true ↔
    name ∈ Entries.keys table := Entries.get?_isSome_iff

/-! ## The three outcomes -/

theorem merge_of_isEmpty (hr : r.isEmpty = true) : r.merge path doc = (doc, .ok []) := by
  simp [merge, hr]

theorem merge_of_no_table (hr : r.isEmpty = false)
    (h : ∀ table, doc.lookup path ≠ some (.mapping table)) :
    r.merge path doc = (doc, .error (.missingTable (".".intercalate path) r.size)) := by
  have hnone : (doc.lookup path).bind Node.entries? = none := by
    cases hn : doc.lookup path with
    | none => rfl
    | some n =>
      cases n with
      | scalar => rfl
      | sequence => rfl
      | mapping table => exact absurd hn (h table)
  simp [merge, hr, hnone]

theorem entries_of_table (h : doc.lookup path = some (.mapping table)) :
    (doc.lookup path).bind Node.entries? = some table := by
  rw [h]
  rfl

theorem merge_of_taken (hr : r.isEmpty = false) (h : doc.lookup path = some (.mapping table))
    {name : String} (hname : r.names.find? (Entries.contains table) = some name) :
    r.merge path doc = (doc, .error (.nameCollision name)) := by
  simp [merge, hr, entries_of_table h, hname]

theorem merge_of_free (hr : r.isEmpty = false) (h : doc.lookup path = some (.mapping table))
    (hfree : r.names.find? (Entries.contains table) = none) :
    (r.merge path doc).2 = .ok r.names := by
  simp [merge, hr, entries_of_table h, hfree]

theorem isLeast_of_find? {name : String}
    (h : r.names.find? (Entries.contains table) = some name) :
    IsLeast {x | x ∈ r.names ∧ x ∈ Entries.keys table} name := by
  simpa only [contains_eq_true] using (find?_eq_some_iff_isLeast r.names_increasing).mp h

theorem free_of_find? (h : r.names.find? (Entries.contains table) = none) :
    ∀ name ∈ r.names, name ∉ Entries.keys table := fun name hname hkey =>
  List.find?_eq_none.mp h name hname (contains_eq_true.mpr hkey)

theorem merge_eq_missingTable_iff (hr : r.isEmpty = false) :
    (r.merge path doc).2 = .error (.missingTable (".".intercalate path) r.size) ↔
      ∀ table, doc.lookup path ≠ some (.mapping table) := by
  constructor
  · intro h table htable
    cases hfind : r.names.find? (Entries.contains table) with
    | none =>
      rw [merge_of_free hr htable hfind] at h
      cases h
    | some name =>
      rw [merge_of_taken hr htable hfind] at h
      cases h
  · intro h
    rw [merge_of_no_table hr h]

theorem merge_eq_nameCollision_iff (hr : r.isEmpty = false)
    (h : doc.lookup path = some (.mapping table)) {name : String} :
    (r.merge path doc).2 = .error (.nameCollision name) ↔
      IsLeast {x | x ∈ r.names ∧ x ∈ Entries.keys table} name := by
  cases hfind : r.names.find? (Entries.contains table) with
  | none =>
    rw [merge_of_free hr h hfind]
    exact ⟨nofun, fun hleast => absurd hleast.1.2 (free_of_find? hfind name hleast.1.1)⟩
  | some found =>
    have hleast := isLeast_of_find? hfind
    rw [merge_of_taken hr h hfind]
    constructor
    · rintro ⟨⟩
      exact hleast
    · intro hname
      rw [hleast.unique hname]

theorem exists_nameCollision_iff (hr : r.isEmpty = false)
    (h : doc.lookup path = some (.mapping table)) :
    (∃ name, (r.merge path doc).2 = .error (.nameCollision name)) ↔
      ∃ name ∈ r.names, name ∈ Entries.keys table := by
  simp only [merge_eq_nameCollision_iff hr h]
  constructor
  · rintro ⟨name, hleast⟩
    exact ⟨name, hleast.1⟩
  · rintro ⟨name, hname, hkey⟩
    cases hfind : r.names.find? (Entries.contains table) with
    | none => exact absurd hkey (free_of_find? hfind name hname)
    | some found => exact ⟨found, isLeast_of_find? hfind⟩

/-! ## What has joined -/

/-- The definitions have joined the table at the end of the path, which now is `merged`. -/
structure Joins (r : Registry) (path : List String) (doc doc' : Node) (table merged : Entries Node) :
    Prop where
  left : doc'.lookup path = some (.mapping merged)
  increasing : (Entries.keys merged).Pairwise (· < ·)
  keys : (Entries.keys merged).Perm (Entries.keys table ++ r.names)
  old : ∀ key ∈ Entries.keys table, Entries.get? merged key = Entries.get? table key
  new : ∀ name ∈ r.names, Entries.get? merged name = r.get? name
  frame : ∀ steps, ¬path.map Step.key <+: steps → doc'.shapeAt steps = doc.shapeAt steps

/-- What joins a table is put into its place and changes no other. -/
theorem merge_joins (hr : r.isEmpty = false) (hdoc : doc.Distinct)
    (h : doc.lookup path = some (.mapping table))
    (hfree : ∀ name ∈ r.names, name ∉ Entries.keys table) :
    (r.merge path doc).2 = .ok r.names ∧
      ∃ merged, Joins r path doc (r.merge path doc).1 table merged := by
  have hok : (r.merge path doc).2 = .ok r.names := by
    refine merge_of_free hr h (List.find?_eq_none.mpr fun name hname hkey => ?_)
    exact hfree name hname (contains_eq_true.mp hkey)
  obtain ⟨table', htable', -, hnone, hmodify, hleft⟩ := Extraction.merge_eq_ok (Prod.ext rfl hok) hr
  cases h.symm.trans htable'
  have hnodup := (hdoc.lookup h).nodup
  refine ⟨hok, r.mergedTable table, hleft, List.pairwise_map.mpr (Entries.sorted_sort _), ?_,
    fun key hkey => ?_, fun name hname => ?_, fun steps hsteps => ?_⟩
  · have hperm := (mergedTable_perm hnodup hnone).map Prod.fst
    rwa [List.map_append] at hperm
  · obtain ⟨body, hbody⟩ := Option.isSome_iff_exists.mp (Entries.get?_isSome_iff.mpr hkey)
    rw [get?_mergedTable hnodup hnone, hbody, Option.some_or]
  · rw [get?_mergedTable hnodup hnone, hnone name hname, Option.none_or]
  · have hchanges : Extraction.ChangesWithin (fun steps => path.map Step.key <+: steps) doc
        (r.merge path doc).1 :=
      Extraction.changesWithin_modifyAt? h hmodify fun rest hrest =>
        absurd (List.prefix_append ..) hrest
    exact hchanges steps hsteps

/-- The whole of a merge. It does nothing without definitions. With definitions it fails where there
is no table, and tells how many they are; it fails where names are taken, and tells the least of
them; and otherwise all join the table. Where it fails it leaves the document as it is. -/
theorem merge_atomic (r : Registry) (path : List String) (doc : Node) (hdoc : doc.Distinct) :
    let doc' := (r.merge path doc).1
    let outcome := (r.merge path doc).2
    (r.isEmpty = true → doc' = doc ∧ outcome = .ok []) ∧
    (r.isEmpty = false →
      (outcome = .error (.missingTable (".".intercalate path) r.size) ↔
        ∀ table, doc.lookup path ≠ some (.mapping table)) ∧
      ∀ table, doc.lookup path = some (.mapping table) →
        (∀ name, outcome = .error (.nameCollision name) ↔
          IsLeast {x | x ∈ r.names ∧ x ∈ Entries.keys table} name) ∧
        ((∃ name, outcome = .error (.nameCollision name)) ↔
          ∃ name ∈ r.names, name ∈ Entries.keys table) ∧
        ((∀ name ∈ r.names, name ∉ Entries.keys table) →
          outcome = .ok r.names ∧ ∃ merged, Joins r path doc doc' table merged)) ∧
    (∀ e, outcome = .error e → doc' = doc) ∧ r.names.Pairwise (· < ·) := by
  intro doc' outcome
  refine ⟨fun hr => ?_, fun hr => ⟨merge_eq_missingTable_iff hr, fun table htable => ?_⟩,
    fun e he => Extraction.merge_eq_error (Prod.ext rfl he), r.names_increasing⟩
  · simp [doc', outcome, merge_of_isEmpty hr]
  · exact ⟨fun name => merge_eq_nameCollision_iff hr htable, exists_nameCollision_iff hr htable,
      merge_joins hr hdoc htable⟩

def zooDocument : Node :=
  .mapping [("d", .mapping [("t", .mapping [("Zebra", .string "z"), ("Apple", .string "a")])]),
    ("paths", .emptyMapping)]

def zooRegistry : Registry := (empty.define "Mango" .emptyMapping).define "Banana" (.string "b")

theorem merge_zooDocument :
    zooDocument.Distinct ∧ zooRegistry.isEmpty = false ∧
      (zooRegistry.merge ["d", "t"] zooDocument).2 = .ok ["Banana", "Mango"] ∧
      ∃ merged, Entries.keys merged = ["Apple", "Banana", "Mango", "Zebra"] ∧
        Joins zooRegistry ["d", "t"] zooDocument (zooRegistry.merge ["d", "t"] zooDocument).1
          [("Zebra", .string "z"), ("Apple", .string "a")] merged := by
  have hdoc : zooDocument.Distinct := Node.distinct_ofValue zooDocument.toValue
  have hr : zooRegistry.isEmpty = false := by decide
  have h := (merge_atomic zooRegistry ["d", "t"] zooDocument hdoc).2.1 hr
  obtain ⟨hok, merged, hjoins⟩ := (h.2 _ rfl).2.2 (by decide)
  refine ⟨hdoc, hr, hok, merged, ?_, hjoins⟩
  have hleft := hjoins.left
  cases hleft
  decide

end Registry
end InlineSchema
