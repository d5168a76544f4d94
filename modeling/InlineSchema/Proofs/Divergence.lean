import InlineSchema.Hoisting
import InlineSchema.Proofs.Difference
import InlineSchema.Proofs.NormalForm

/-! # Documents without a divergence

Two documents do not diverge exactly if the forms of their paths and of the definitions of the
first are alike. No document diverges from itself.
-/
namespace InlineSchema

namespace Json

theorem Distinct.get? {v : Json} (hv : v.Distinct) {key : String} {w : Json}
    (h : v.get? key = some w) : w.Distinct := by
  cases hv with
  | scalar => cases h
  | array => cases h
  | object _ hm => exact hm _ (Entries.mem_of_get? h)

def lookup (v : Json) (path : List String) : Option Json :=
  path.foldlM (fun v key => v.get? key) v

theorem lookup_cons (v : Json) (key : String) (path : List String) :
    v.lookup (key :: path) = (v.get? key).bind (·.lookup path) := rfl

theorem Distinct.lookup {v : Json} (hv : v.Distinct) {path : List String} {w : Json}
    (h : v.lookup path = some w) : w.Distinct := by
  induction path generalizing v with
  | nil => cases h; exact hv
  | cons key path ih =>
    rw [lookup_cons] at h
    obtain ⟨u, hu, h⟩ := Option.bind_eq_some_iff.mp h
    exact ih (hv.get? hu) h

theorem within_of_get? {v w : Json} {key : String} (h : v.get? key = some w) : w.Within v := by
  cases v with
  | scalar => cases h
  | array => cases h
  | object m => exact .value (Entries.mem_of_get? h) .self

theorem within_of_lookup {v w : Json} {path : List String} (h : v.lookup path = some w) :
    w.Within v := by
  induction path generalizing v with
  | nil =>
    cases h
    exact .self
  | cons key path ih =>
    rw [lookup_cons] at h
    obtain ⟨u, hu, h⟩ := Option.bind_eq_some_iff.mp h
    exact (ih h).trans (within_of_get? hu)

end Json

namespace Equivalence

variable {o : Options}

theorem definitions_eq (o : Options) (v : Json) :
    definitions o v = ((v.lookup o.definitionsPath).bind Json.entries?).getD [] := rfl

theorem distinct_definitions {v : Json} (hv : v.Distinct) :
    (Json.object (definitions o v)).Distinct := by
  rw [definitions_eq]
  cases h : v.lookup o.definitionsPath with
  | none => exact .object List.nodup_nil nofun
  | some w =>
    cases w with
    | scalar => exact .object List.nodup_nil nofun
    | array => exact .object List.nodup_nil nofun
    | object m => exact hv.lookup h

theorem nodup_definitions {v : Json} (hv : v.Distinct) :
    (Entries.keys (definitions o v)).Nodup := (distinct_definitions hv).nodup

theorem distinct_of_mem_definitions {v : Json} (hv : v.Distinct) :
    ∀ p ∈ definitions o v, p.2.Distinct := (distinct_definitions hv).values

theorem within_of_mem_definitions {v : Json} {p : String × Json}
    (h : p ∈ definitions o v) : p.2.Within v := by
  rw [definitions_eq] at h
  cases hv : v.lookup o.definitionsPath with
  | none =>
    rw [hv] at h
    cases h
  | some w =>
    rw [hv, Option.bind_some] at h
    cases w with
    | scalar => cases h
    | array => cases h
    | object m =>
      have hvalue : p.2.Within (.object m) := .value h .self
      exact hvalue.trans (Json.within_of_lookup hv)

theorem get?_preparedDefinitions (v : Json) (name : String) :
    Entries.get? (preparedDefinitions o v) name =
      (Entries.get? (definitions o v) name).map (normalForm (definitions o v) o [name]) :=
  Entries.get?_map_keyed (fun name => normalForm (definitions o v) o [name]) _ _

theorem definitionsDifference_eq_none_iff (path : String) (a b : Entries Json) :
    definitionsDifference path a b = none ↔
      ∀ p ∈ a, ∃ w, Entries.get? b p.1 = some w ∧ Alike p.2 w := by
  rw [definitionsDifference, List.findSome?_eq_none_iff]
  refine forall₂_congr fun p _ => ?_
  obtain ⟨k, v⟩ := p
  cases h : Entries.get? b k with
  | none => simp [h]
  | some w => simp [h, difference_eq_none_iff]

/-- What the comparison of two documents establishes. -/
theorem divergence?_eq_none_iff (o : Options) (a b : Json) :
    divergence? o a b = none ↔ Alike (preparedPaths o a) (preparedPaths o b) ∧
      ∀ p ∈ definitions o a, ∃ w, Entries.get? (definitions o b) p.1 = some w ∧
        Alike (normalForm (definitions o a) o [p.1] p.2)
          (normalForm (definitions o b) o [p.1] w) := by
  rw [divergence?, Option.or_eq_none_iff, difference_eq_none_iff,
    definitionsDifference_eq_none_iff, preparedDefinitions]
  refine and_congr_right fun _ => ?_
  rw [List.forall_mem_map]
  refine forall₂_congr fun p _ => ?_
  rw [get?_preparedDefinitions]
  cases Entries.get? (definitions o b) p.1 with
  | none => simp
  | some w => simp

theorem distinct_preparedPaths {v : Json} (hv : v.Distinct) : (preparedPaths o v).Distinct := by
  rw [preparedPaths]
  cases h : v.get? "paths" with
  | none => exact .scalar _
  | some paths => exact distinct_form (distinct_of_mem_definitions hv) (hv.get? h) false []

theorem divergence?_self {v : Json} (hv : v.Distinct) : divergence? o v v = none := by
  refine (divergence?_eq_none_iff o v v).mpr ⟨Alike.refl (distinct_preparedPaths hv), ?_⟩
  intro p hp
  refine ⟨p.2, Entries.get?_of_mem (nodup_definitions hv) hp, Alike.refl ?_⟩
  exact distinct_form (distinct_of_mem_definitions hv) (distinct_of_mem_definitions hv p hp) false _

/-! ## Texts -/

theorem read_eq_ok {source : String} {v : Yaml.Value} (h : Yaml.Value.read? source = some v) :
    Equivalence.read source = .ok (Json.ofValue v) := by
  simp only [Equivalence.read, h]

end Equivalence

theorem findDivergence_eq {o : Options} {original transformed : String} {v w : Yaml.Value}
    (hv : Yaml.Value.read? original = some v) (hw : Yaml.Value.read? transformed = some w) :
    findDivergence o original transformed =
      .ok (Equivalence.divergence? o (Json.ofValue v) (Json.ofValue w)) := by
  rw [findDivergence, Equivalence.read_eq_ok hv, Equivalence.read_eq_ok hw]
  rfl

theorem checkEquivalence_eq_ok_iff {o : Options} {original transformed : String} :
    checkEquivalence o original transformed = .ok () ↔
      findDivergence o original transformed = .ok none := by
  rw [checkEquivalence]
  cases findDivergence o original transformed with
  | error e => exact ⟨nofun, nofun⟩
  | ok d =>
    cases d with
    | none => exact ⟨fun _ => rfl, fun _ => rfl⟩
    | some d => exact ⟨nofun, nofun⟩

theorem transform_eq_ok_iff {o : Options} {source : String} {doc : Node} {h : Hoisted}
    (hsource : Node.parse? source = some doc) :
    transform o source = .ok h ↔
      ∃ doc', extract o doc = (doc', .ok h.report.extracted) ∧ h.document = doc'.render o.format := by
  obtain ⟨document, ⟨names⟩⟩ := h
  simp only [transform, hsource]
  cases extract o doc with
  | mk doc₁ outcome =>
    cases outcome with
    | error e => exact iff_of_false nofun fun ⟨_, he, _⟩ => nomatch he
    | ok names₁ =>
      constructor
      · intro he
        cases he
        exact ⟨doc₁, rfl, rfl⟩
      · rintro ⟨doc', he, hdocument⟩
        cases he
        rw [hdocument]

theorem hoist_eq_ok_iff {o : Options} {source : String} {h : Hoisted} :
    hoist o source = .ok h ↔
      transform o source = .ok h ∧ findDivergence o source h.document = .ok none := by
  rw [hoist]
  cases transform o source with
  | error e => exact ⟨nofun, fun h => nomatch h.1⟩
  | ok hoisted =>
    change (checkEquivalence o source hoisted.document >>= fun _ => pure hoisted) = .ok h ↔ _
    cases hcheck : checkEquivalence o source hoisted.document with
    | error e =>
      refine iff_of_false nofun ?_
      rintro ⟨he, hnone⟩
      cases he
      rw [checkEquivalence_eq_ok_iff.mpr hnone] at hcheck
      cases hcheck
    | ok =>
      constructor
      · intro he
        cases he
        exact ⟨rfl, checkEquivalence_eq_ok_iff.mp hcheck⟩
      · rintro ⟨he, -⟩
        cases he
        rfl

theorem parse?_of_read? {source : String} {v : Yaml.Value} (h : Yaml.Value.read? source = some v) :
    Node.parse? source = some (Node.ofValue v) := by
  rw [Node.parse?, h]
  rfl

/-- Hoisting succeeds if the extracted document reads back and does not diverge. -/
theorem hoist_of_extract {o : Options} {source : String} {v : Yaml.Value} {doc' : Node}
    {names : List String} (hsource : Yaml.Value.read? source = some v)
    (hextract : extract o (Node.ofValue v) = (doc', .ok names))
    (hread : Yaml.Value.read? (doc'.render o.format) = some doc'.toValue)
    (hnone : Equivalence.divergence? o (Json.ofValue v) (Json.ofValue doc'.toValue) = none) :
    findDivergence o source (doc'.render o.format) = .ok none ∧
      hoist o source = .ok ⟨doc'.render o.format, ⟨names⟩⟩ := by
  have hfind : findDivergence o source (doc'.render o.format) = .ok none := by
    rw [findDivergence_eq hsource hread, hnone]
  have htransform : transform o source = .ok ⟨doc'.render o.format, ⟨names⟩⟩ :=
    (transform_eq_ok_iff (parse?_of_read? hsource)).mpr ⟨doc', hextract, rfl⟩
  exact ⟨hfind, hoist_eq_ok_iff.mpr ⟨htransform, hfind⟩⟩

end InlineSchema
