import InlineSchema.Proofs.Path

/-! # What is left without documentation

Whether a key is a keyword or the name of a property is up to the path that leads to it. Without its
documentation a value has the same places as before, except for those behind a description or an
example that is a keyword, and what stands there is the same but for what is missing below.
-/
namespace InlineSchema.Equivalence

/-- Does a step lead to a table of properties, from a value that is one or is none? -/
def tableAfter (inTable : Bool) : Step → Bool
  | .key key => !inTable && key == "properties"
  | .index _ => false

/-- Does a path lead to a table of properties? -/
def tableAt (inTable : Bool) (path : List Step) : Bool := path.foldl tableAfter inTable

/-- The step takes documentation out of a mapping, if it is no table of properties. -/
def Hidden (inTable : Bool) (step : Step) : Prop :=
  inTable = false ∧ ∃ key ∈ documentationKeys, step = .key key

/-- Some step of the path takes documentation out of a mapping that is no table of properties. -/
def Documented (inTable : Bool) (path : List Step) : Prop :=
  ∃ before step after, path = before ++ step :: after ∧ Hidden (tableAt inTable before) step

theorem not_documented_nil (inTable : Bool) : ¬Documented inTable [] := by
  rintro ⟨before, step, after, he, -⟩
  exact List.append_ne_nil_of_right_ne_nil before (List.cons_ne_nil step after) he.symm

theorem documented_cons_iff {inTable : Bool} {step : Step} {path : List Step} :
    Documented inTable (step :: path) ↔
      Hidden inTable step ∨ Documented (tableAfter inTable step) path := by
  constructor
  · rintro ⟨before, taken, after, he, h⟩
    cases before with
    | nil =>
      cases he
      exact .inl h
    | cons first before =>
      cases he
      exact .inr ⟨before, taken, after, rfl, h⟩
  · rintro (h | ⟨before, taken, after, rfl, h⟩)
    · exact ⟨[], step, path, rfl, h⟩
    · exact ⟨step :: before, taken, after, rfl, h⟩

/-! ## One step -/

theorem hidden_key_iff {inTable : Bool} {key : String} :
    Hidden inTable (.key key) ↔ (inTable || !documentationKeys.contains key) = false := by
  cases inTable <;> simp [Hidden]

theorem child?_strip_of_hidden {inTable : Bool} {step : Step} (h : Hidden inTable step) (v : Json) :
    (strip inTable v).child? step = none := by
  obtain ⟨-, key, -, rfl⟩ := id h
  cases v with
  | scalar => rfl
  | array => rfl
  | object m =>
    rw [strip, Json.child?, get?_stripEntries, hidden_key_iff.mp h]
    rfl

theorem child?_strip {inTable : Bool} {step : Step} (h : ¬Hidden inTable step) (v : Json) :
    (strip inTable v).child? step = (v.child? step).map (strip (tableAfter inTable step)) := by
  cases v with
  | scalar => cases step <;> rfl
  | array xs =>
    cases step with
    | key => rfl
    | index i =>
      rw [strip, stripItems_eq_map]
      exact List.getElem?_map
  | object m =>
    cases step with
    | index => rfl
    | key key =>
      have hkept : (inTable || !documentationKeys.contains key) = true := by
        rw [← Bool.not_eq_false, ← hidden_key_iff]
        exact h
      rw [strip, Json.child?, get?_stripEntries, if_pos hkept]
      rfl

/-! ## Paths -/

theorem follow_strip_of_documented {inTable : Bool} {path : List Step}
    (h : Documented inTable path) (v : Json) : (strip inTable v).follow path = none := by
  induction path generalizing inTable v with
  | nil => exact absurd h (not_documented_nil inTable)
  | cons step path ih =>
    rw [Json.follow_cons]
    by_cases hstep : Hidden inTable step
    · rw [child?_strip_of_hidden hstep, Option.bind_none]
    · have hpath := (documented_cons_iff.mp h).resolve_left hstep
      rw [child?_strip hstep, Option.bind_map, Option.bind_eq_none_iff]
      exact fun u _ => ih hpath u

theorem follow_strip {inTable : Bool} {path : List Step} (h : ¬Documented inTable path) (v : Json) :
    (strip inTable v).follow path = (v.follow path).map (strip (tableAt inTable path)) := by
  induction path generalizing inTable v with
  | nil => rfl
  | cons step path ih =>
    rw [documented_cons_iff, not_or] at h
    rw [Json.follow_cons, Json.follow_cons, child?_strip h.1, Option.bind_map, Option.map_bind]
    exact congrArg _ (funext fun u => ih h.2 u)

/-- The same scalar, an array of the same length, or an object with the keys of the other, in their
order, that are no documentation. -/
inductive Trimmed (inTable : Bool) : Json → Json → Prop
  | scalar (s : Scalar) : Trimmed inTable (.scalar s) (.scalar s)
  | array {xs ys : List Json} (h : ys.length = xs.length) : Trimmed inTable (.array xs) (.array ys)
  | object {m m' : Entries Json} (h : Entries.keys m' =
      (Entries.keys m).filter fun key => inTable || !documentationKeys.contains key) :
      Trimmed inTable (.object m) (.object m')

theorem trimmed_strip (inTable : Bool) (v : Json) : Trimmed inTable v (strip inTable v) := by
  cases v with
  | scalar s => exact .scalar s
  | array xs =>
    rw [strip, stripItems_eq_map]
    exact .array (List.length_map _)
  | object m =>
    rw [strip, stripEntries_eq_map]
    refine .object ?_
    rw [Entries.keys_map fun p => strip (!inTable && p.1 == "properties") p.2, Entries.keys,
      Entries.keys, List.filter_map]
    rfl

/-! ## Stripping twice -/

theorem kept_kept {α : Type} (inTable : Bool) (m : Entries α) :
    kept inTable (kept inTable m) = kept inTable m := by
  rw [kept, kept, List.filter_filter]
  exact List.filter_congr fun p _ => Bool.and_self _

theorem strip_strip (inTable : Bool) (v : Json) :
    strip inTable (strip inTable v) = strip inTable v := by
  induction v using Json.induct generalizing inTable with
  | scalar s => rfl
  | array xs ih =>
    rw [strip, strip, stripItems_eq_map, stripItems_eq_map, List.map_map]
    exact congrArg _ (List.map_congr_left fun x hx => ih x hx false)
  | object m ih =>
    rw [strip, strip, stripEntries_eq_map, stripEntries_eq_map, kept_map inTable
      fun p => strip (!inTable && p.1 == "properties") p.2, kept_kept, List.map_map]
    refine congrArg _ (List.map_congr_left fun p hp => ?_)
    exact congrArg _ (ih p (List.mem_filter.mp hp).1 _)

/-- Exactly the documentation is left out: a path leads somewhere if it did before and no step on it
takes documentation out of a mapping that is no table of properties. What it leads to is the same
scalar, or an array as long as before, or an object with its keys in the same order. Nothing is left
for a second time. -/
theorem strip_exact (inTable : Bool) (v : Json) :
    (∀ path, ((strip inTable v).follow path).isSome = true ↔
        (v.follow path).isSome = true ∧ ¬Documented inTable path) ∧
      (∀ path u w, v.follow path = some u → (strip inTable v).follow path = some w →
        Trimmed (tableAt inTable path) u w) ∧
      strip inTable (strip inTable v) = strip inTable v := by
  refine ⟨fun path => ?_, fun path u w hu hw => ?_, strip_strip inTable v⟩
  · by_cases h : Documented inTable path
    · simp [follow_strip_of_documented h, h]
    · simp [follow_strip h, h]
  · by_cases h : Documented inTable path
    · rw [follow_strip_of_documented h] at hw
      cases hw
    · rw [follow_strip h, hu, Option.map_some] at hw
      cases hw
      exact trimmed_strip _ u

/-- A property called `description` stays and so does one called `properties`, of which the description
is left out. -/
theorem strip_exact_propertyNames :
    let text := Json.scalar (.string "t")
    let inner := Json.object [("type", text), ("description", text)]
    let v := Json.object [("properties", .object [("description", text), ("properties", inner)])]
    let path := [Step.key "properties", .key "properties"]
    ((strip false v).follow [.key "properties", .key "description"]).isSome = true ∧
      (strip false v).follow (path ++ [.key "description"]) = none ∧
        Trimmed false inner (.object [("type", text)]) := by
  intro text inner v path
  obtain ⟨hexists, htrimmed, -⟩ := strip_exact false v
  refine ⟨(hexists _).mpr ⟨rfl, ?_⟩, ?_, htrimmed path _ _ rfl rfl⟩
  · rw [documented_cons_iff, documented_cons_iff, hidden_key_iff, hidden_key_iff]
    rintro (h | h | h)
    · cases h
    · cases h
    · exact not_documented_nil _ h
  · refine Option.not_isSome_iff_eq_none.mp fun hsome => ((hexists _).mp hsome).2 ?_
    exact ⟨path, .key "description", [], rfl, rfl, "description", List.mem_cons_self, rfl⟩

end InlineSchema.Equivalence
