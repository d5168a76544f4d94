import InlineSchema.Proofs.Divergence
import InlineSchema.Proofs.Preservation

/-! # Definitions that nothing refers to

A definition is read where a reference names it, and where the first document has one of the same
name. So a new definition of the second document under a name that is in neither place makes no
difference to the comparison, whatever its body refers to: not to the verdict, and not to the
divergence that is found.
-/
namespace InlineSchema

namespace Json

def put : Json → List String → Json → Json
  | _, [], x => x
  | .object m, key :: path, x => .object (Entries.modify key (fun v => put v path x) m)
  | v, _ :: _, _ => v

theorem lookup_put {v w : Json} {path : List String} (x : Json) (h : v.lookup path = some w) :
    (v.put path x).lookup path = some x := by
  induction path generalizing v with
  | nil => rfl
  | cons key path ih =>
    rw [lookup_cons] at h ⊢
    obtain ⟨u, hu, hw⟩ := Option.bind_eq_some_iff.mp h
    cases v with
    | scalar => cases hu
    | array => cases hu
    | object m =>
      have hget : Entries.get? m key = some u := hu
      rw [put, get?_object, Entries.get?_modify_self, hget]
      exact ih hw

theorem get?_put_of_ne (v x : Json) {key k : String} (h : k ≠ key) (path : List String) :
    (v.put (key :: path) x).get? k = v.get? k := by
  cases v with
  | scalar => rfl
  | array => rfl
  | object m => exact Entries.get?_modify_of_ne m _ h

def Ignores (o : Options) (name : String) (v : Json) : Prop :=
  ∀ target, v.RefersTo target → o.definitionName? target ≠ some name

theorem Ignores.within {o : Options} {name : String} {v w : Json} (h : Ignores o name v)
    (hw : w.Within v) : Ignores o name w := fun target ht => h target (ht.within hw)

end Json

namespace Equivalence

open Json

variable {o : Options} {table table' : Entries Json} {e : String}

/-! ## Resolving without the definition -/

/-- Two tables with the same definitions but for one name expand whatever does not refer to it in
the same way. -/
theorem expansion?_eq_of_ignores {m : Entries Json} (hm : (Json.object m).Ignores o e)
    (htable : ∀ k ≠ e, Entries.get? table' k = Entries.get? table k) (visited : List String) :
    expansion? table' o visited m = expansion? table o visited m := by
  unfold expansion?
  cases ht : (Entries.get? m Node.refKey).bind Json.text? with
  | none => rfl
  | some target =>
    obtain ⟨u, hu, hut⟩ := Option.bind_eq_some_iff.mp ht
    have hrefers : (Json.object m).RefersTo target := ⟨m, .self, Json.text?_eq_some hut ▸ hu⟩
    cases hname : o.definitionName? target with
    | none => simp [hname]
    | some name =>
      have hne : name ≠ e := fun he => hm target hrefers (he ▸ hname)
      simp [hname, htable name hne]

/-- The induction is on the definitions that are not being expanded, and then on the value. What an
expansion opens is a body in the table, which ignores the name as well. -/
theorem resolve_eq_of_ignores (hbodies : ∀ p ∈ table, p.2.Ignores o e)
    (htable : ∀ k ≠ e, Entries.get? table' k = Entries.get? table k) (visited : List String)
    {v : Json} (hv : v.Ignores o e) : resolve table' o visited v = resolve table o visited v := by
  induction visited using unvisited_induct table generalizing v with
  | step visited ihk =>
    induction v using Json.induct with
    | scalar s => simp [resolve]
    | array xs ih =>
      simp only [resolve, resolveItems_eq_map, array.injEq]
      exact List.map_congr_left fun x hx => ih x hx (hv.within (.item hx .self))
    | object m ih =>
      have hexpansion := expansion?_eq_of_ignores hv htable visited
      cases hfound : expansion? table o visited m with
      | none =>
        rw [resolve_object_of_none hfound, resolve_object_of_none (hexpansion.trans hfound)]
        split
        · rfl
        · simp only [resolveEntries_eq_map, object.injEq]
          exact List.map_congr_left fun p hp => Prod.ext rfl (ih p hp (hv.within (.value hp .self)))
      | some found =>
        obtain ⟨name, body⟩ := found
        have hless := unvisited_expansion_lt hfound
        have hbody : resolve table' o (name :: visited) body =
            resolve table o (name :: visited) body :=
          ihk _ hless (hbodies _ (Entries.mem_of_get? (get?_of_expansion hfound)))
        have hbeside : resolveEntries table' o (name :: visited) m =
            resolveEntries table o (name :: visited) m := by
          simp only [resolveEntries_eq_map]
          exact List.map_congr_left fun p hp =>
            Prod.ext rfl (ihk _ hless (hv.within (.value hp .self)))
        rw [resolve_object_of_some hfound, resolve_object_of_some (hexpansion.trans hfound), hbody,
          hbeside]

theorem normalForm_eq_of_ignores (hbodies : ∀ p ∈ table, p.2.Ignores o e)
    (htable : ∀ k ≠ e, Entries.get? table' k = Entries.get? table k) {v : Json}
    (hv : v.Ignores o e) (visited : List String) :
    normalForm table' o visited v = normalForm table o visited v := by
  unfold normalForm
  rw [resolve_eq_of_ignores hbodies htable visited hv]

/-! ## Comparing without the definition -/

/-- The second document is only asked for definitions of the first. -/
theorem definitionsDifference_congr (path : String) {a b b' : Entries Json}
    (h : ∀ k ∈ Entries.keys a, Entries.get? b' k = Entries.get? b k) :
    definitionsDifference path a b' = definitionsDifference path a b := by
  induction a with
  | nil => rfl
  | cons p a ih =>
    have hp := h p.1 List.mem_cons_self
    have ih := ih fun k hk => h k (List.mem_cons_of_mem _ hk)
    simp only [definitionsDifference, List.findSome?_cons, hp] at ih ⊢
    rw [ih]

theorem divergence?_eq_of_ignores {original transformed extended : Json}
    (hpaths : extended.get? "paths" = transformed.get? "paths")
    (htable : ∀ k ≠ e,
      Entries.get? (definitions o extended) k = Entries.get? (definitions o transformed) k)
    (horiginal : e ∉ Entries.keys (definitions o original))
    (hignored : ∀ v, transformed.get? "paths" = some v → v.Ignores o e)
    (hbodies : ∀ p ∈ definitions o transformed, p.2.Ignores o e) :
    divergence? o original extended = divergence? o original transformed := by
  have hprepared : preparedPaths o extended = preparedPaths o transformed := by
    unfold preparedPaths
    rw [hpaths]
    cases hv : transformed.get? "paths" with
    | none => rfl
    | some v => exact normalForm_eq_of_ignores hbodies htable (hignored v hv) []
  have hdefinitions : ∀ k ∈ Entries.keys (preparedDefinitions o original),
      Entries.get? (preparedDefinitions o extended) k =
        Entries.get? (preparedDefinitions o transformed) k := by
    intro k hk
    have hne : k ≠ e := by
      rintro rfl
      apply horiginal
      simpa [preparedDefinitions, Entries.keys] using hk
    rw [get?_preparedDefinitions, get?_preparedDefinitions, htable k hne]
    apply Option.map_congr
    intro body hbody
    exact normalForm_eq_of_ignores hbodies htable (hbodies _ (Entries.mem_of_get? hbody)) [k]
  rw [divergence?, divergence?, hprepared, definitionsDifference_congr _ hdefinitions]

/-- The other definitions are found as before beside a new one. -/
theorem get?_definitions_put {doc : Json} {before after : Entries Json}
    (h : doc.lookup o.definitionsPath = some (.object (before ++ after))) (body : Json) {k : String}
    (hk : k ≠ e) :
    Entries.get? (definitions o
        (doc.put o.definitionsPath (.object (before ++ (e, body) :: after)))) k =
      Entries.get? (definitions o doc) k := by
  have hput := Json.lookup_put (.object (before ++ (e, body) :: after)) h
  simp [definitions_eq, hput, h, Json.entries?, Entries.get?_append, hk]

theorem get?_put_paths (doc table : Json) (hne : o.definitionsPath ≠ [])
    (hhead : o.definitionsPath.head? ≠ some "paths") :
    (doc.put o.definitionsPath table).get? "paths" = doc.get? "paths" := by
  cases hkeys : o.definitionsPath with
  | nil => exact absurd hkeys hne
  | cons key path =>
    have hkey : "paths" ≠ key := by
      rintro rfl
      exact hhead (by simp [hkeys])
    exact Json.get?_put_of_ne doc table hkey path

end Equivalence

open InlineSchema.Equivalence

/-- A definition that nothing refers to is invisible: with it at any place in the table of the
second document, the comparison finds the same divergence, or none as before. -/
theorem findDivergence_extended (o : Options) (original transformed extended : String)
    (doc body : Json) (before after : Entries Json) (e : String)
    (hne : o.definitionsPath ≠ []) (hhead : o.definitionsPath.head? ≠ some "paths")
    (hread : read transformed = .ok doc)
    (htable : doc.lookup o.definitionsPath = some (.object (before ++ after)))
    (hextended :
      read extended = .ok (doc.put o.definitionsPath (.object (before ++ (e, body) :: after))))
    (horiginal : ∀ v, read original = .ok v → e ∉ Entries.keys (definitions o v))
    (hpaths : ∀ v, doc.get? "paths" = some v →
      ∀ target, v.RefersTo target → o.definitionName? target ≠ some e)
    (hbodies : ∀ p ∈ before ++ after,
      ∀ target, p.2.RefersTo target → o.definitionName? target ≠ some e) :
    findDivergence o original extended = findDivergence o original transformed := by
  have hdefinitions : definitions o doc = before ++ after := by
    rw [definitions_eq, htable]
    rfl
  unfold findDivergence
  rw [hread, hextended]
  cases hv : read original with
  | error => rfl
  | ok v =>
    have hresult := divergence?_eq_of_ignores (get?_put_paths doc _ hne hhead)
      (fun k => get?_definitions_put htable body) (horiginal v hv) hpaths (hdefinitions ▸ hbodies)
    exact congrArg Except.ok hresult

def typedValue (type : String) : Yaml.Value :=
  .mapping [
    (.string "paths", .mapping [(.string "p", .mapping [(.string "$ref", .string "#/d/A")])]),
    (.string "d", .mapping [(.string "A", .mapping [(.string "type", .string type)])])]

def typedValueExtended (type : String) : Yaml.Value :=
  .mapping [
    (.string "paths", .mapping [(.string "p", .mapping [(.string "$ref", .string "#/d/A")])]),
    (.string "d", .mapping [
      (.string "B/C", .mapping [(.string "$ref", .string "#/d/B~1C"),
        (.string "q", .mapping [(.string "$ref", .string "#/d/A")])]),
      (.string "A", .mapping [(.string "type", .string type)])])]

theorem preparedPaths_typedValue (type : String) :
    preparedPaths ⟨["d"], .yaml⟩ (Json.ofValue (typedValue type)) =
      .object [("p", .object [("type", .scalar (.string type))])] := by
  let table := [("A", Json.object [("type", .scalar (.string type))])]
  have hbody : form table ⟨["d"], .yaml⟩ false ["A"] (.object [("type", .scalar (.string type))]) =
      .object [("type", .scalar (.string type))] := by
    rw [form_object rfl]
    simp [kept, documentationKeys, form_scalar, closed, onlyBranch?]
  have hreference : form table ⟨["d"], .yaml⟩ false [] (reference "#/d/A") = _ :=
    (form_reference (by rfl) (by rfl) (by rfl) false).trans hbody
  change form table ⟨["d"], .yaml⟩ false [] (.object [("p", reference "#/d/A")]) = _
  rw [form_object rfl]
  simp [kept, documentationKeys, hreference, closed, onlyBranch?]

theorem findDivergence_extended_typedValue :
    let o : Options := ⟨["d"], .yaml⟩
    let original := "paths:\n p:\n  $ref: '#/d/A'\nd:\n A:\n  type: string\n"
    let transformed := "paths:\n p:\n  $ref: '#/d/A'\nd:\n A:\n  type: number\n"
    let extended := "paths:\n p:\n  $ref: '#/d/A'\nd:\n B/C:\n  $ref: '#/d/B~1C'\n" ++
      "  q:\n   $ref: '#/d/A'\n A:\n  type: number\n"
    (read transformed = .ok (Json.ofValue (typedValue "number")) ∧
      read extended = .ok (Json.ofValue (typedValueExtended "number"))) ∧
    findDivergence o original extended = findDivergence o original transformed ∧
    findDivergence o original extended =
      .ok (some (.mismatch "/paths/p/type" "\"string\"" "\"number\"")) := by
  intro o original transformed extended
  have hv : Yaml.Value.read? original = some (typedValue "string") := by decide +kernel
  have hw : Yaml.Value.read? transformed = some (typedValue "number") := by decide +kernel
  have hread : read transformed = .ok (Json.ofValue (typedValue "number")) := read_eq_ok hw
  have hread' : read extended = .ok (Json.ofValue (typedValueExtended "number")) :=
    read_eq_ok (by decide +kernel)
  have hsame : findDivergence o original extended = findDivergence o original transformed := by
    refine findDivergence_extended o original transformed extended
      (Json.ofValue (typedValue "number"))
      (.object [(Node.refKey, .scalar (.string "#/d/B~1C")), ("q", reference "#/d/A")]) []
      [("A", .object [("type", .scalar (.string "number"))])] "B/C"
      (by decide) (by decide) hread rfl hread' ?_ ?_ ?_
    · intro v hr hmem
      cases (read_eq_ok hv).symm.trans hr
      revert hmem
      decide
    · intro v hpaths target ht
      obtain rfl : Json.object [("p", reference "#/d/A")] = v := Option.some.inj hpaths
      obtain rfl : "#/d/A" = target := by
        simpa [Json.refersTo_object_iff, Json.not_refersTo_scalar, reference, Node.refKey] using ht
      decide
    · intro p hp target ht
      cases List.mem_singleton.mp hp
      simp [Json.refersTo_object_iff, Json.not_refersTo_scalar, Node.refKey] at ht
  have hdiverges : divergence? o (Json.ofValue (typedValue "string"))
      (Json.ofValue (typedValue "number")) =
        some (.mismatch "/paths/p/type" "\"string\"" "\"number\"") := by
    rw [divergence?, preparedPaths_typedValue, preparedPaths_typedValue]
    rfl
  refine ⟨⟨hread, hread'⟩, hsame, hsame.trans ?_⟩
  exact (findDivergence_eq hv hw).trans (congrArg Except.ok hdiverges)

end InlineSchema
