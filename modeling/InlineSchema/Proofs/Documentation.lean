import InlineSchema.Proofs.Divergence

/-! # Documentation does not count

A document and the same document with other descriptions and examples have the same forms, so
neither diverges from the other. Documentation beside a reference to a definition that is no mapping
is apart: there it takes the place of the definition before it is left out.
-/
namespace InlineSchema.Equivalence

variable {table table' : Entries Json} {o : Options} {T : Set String}

/-- The value is no mapping, or a reference alone to a definition that is such a value. -/
inductive NoMapping (table : Entries Json) (o : Options) : Json → Prop
  | scalar (s : Scalar) : NoMapping table o (.scalar s)
  | array (xs : List Json) : NoMapping table o (.array xs)
  | reference {m : Entries Json} {name : String} {body : Json}
      (hname : expansion? table o [] m = some (name, body)) (halone : Entries.erase Node.refKey m = [])
      (hbody : NoMapping table o body) : NoMapping table o (.object m)

/-- The second value is the first with documentation added, removed or changed. In a table of
properties the keys are names, and nothing has changed there. Where the table is given by a reference,
the definition is in `T`. -/
inductive Redocumented (table : Entries Json) (o : Options) (T : Set String) :
    Bool → Json → Json → Prop
  | scalar (inTable : Bool) (s : Scalar) : Redocumented table o T inTable (.scalar s) (.scalar s)
  | array (inTable : Bool) {xs ys : List Json} (hl : xs.length = ys.length)
      (h : ∀ p ∈ xs.zip ys, Redocumented table o T false p.1 p.2) :
      Redocumented table o T inTable (.array xs) (.array ys)
  | object {inTable : Bool} {m m' : Entries Json}
      (hk : Entries.keys (kept inTable m) = Entries.keys (kept inTable m'))
      (h : ∀ p ∈ (kept inTable m).zip (kept inTable m'),
        Redocumented table o T (!inTable && p.1.1 == "properties") p.1.2 p.2.2)
      (htable : inTable = true → ∀ name body, expansion? table o [] m = some (name, body) → name ∈ T)
      (halone : ∀ name body, expansion? table o [] m = some (name, body) → NoMapping table o body →
        (Entries.erase Node.refKey m = [] ↔ Entries.erase Node.refKey m' = [])) :
      Redocumented table o T inTable (.object m) (.object m')

/-! ## Documentation beside a reference -/

theorem kept_erase {α : Type} (inTable : Bool) (key : String) (m : Entries α) :
    kept inTable (Entries.erase key m) = Entries.erase key (kept inTable m) := by
  rw [kept, kept, Entries.erase, Entries.erase, List.filter_comm]

theorem stripEntries_erase (inTable : Bool) (key : String) (m : Entries Json) :
    stripEntries inTable (Entries.erase key m) = Entries.erase key (stripEntries inTable m) := by
  rw [stripEntries_eq_map, stripEntries_eq_map, kept_erase,
    erase_map key fun p => strip (!inTable && p.1 == "properties") p.2]

theorem contains_stripEntries {inTable : Bool} {key : String}
    (hkey : (inTable || !documentationKeys.contains key) = true) (m : Entries Json) :
    Entries.contains (stripEntries inTable m) key = Entries.contains m key := by
  rw [Entries.contains, Entries.contains, get?_stripEntries, if_pos hkey, Option.isSome_map]

/-- Documentation can be left out of a definition that is a mapping before or after it is put under
what stands beside the reference. -/
theorem strip_underSiblings_object (inTable : Bool) (siblings body : Entries Json) :
    strip inTable (underSiblings siblings (.object body)) =
      underSiblings (stripEntries inTable siblings) (strip inTable (.object body)) := by
  rw [underSiblings, strip, strip, underSiblings, stripEntries_eq_map, kept, List.filter_append,
    List.map_append, ← kept, ← stripEntries_eq_map, stripEntries_eq_map inTable body, List.filter_map,
    kept, List.filter_filter, List.filter_filter]
  refine congrArg (fun l => Json.object (_ ++ l)) (congrArg _ (List.filter_congr fun p _ => ?_))
  cases hkey : inTable || !documentationKeys.contains p.1 with
  | false => rw [Bool.false_and, Bool.and_false]
  | true =>
    rw [Bool.true_and, Bool.and_true]
    change (!Entries.contains siblings p.1) = !Entries.contains (stripEntries inTable siblings) p.1
    rw [contains_stripEntries hkey]

theorem strip_ne_object {inTable : Bool} {v : Json} (hv : ∀ m, v ≠ .object m) (m : Entries Json) :
    strip inTable v ≠ .object m := by
  cases v with
  | scalar => exact nofun
  | array => exact nofun
  | object m' => exact absurd rfl (hv m')

/-- What stands beside a reference, and its definition, count as far as they are no documentation,
unless the definition is no mapping and only documentation stands there. -/
theorem strip_underSiblings_congr {inTable : Bool} {siblings siblings' : Entries Json} {v v' : Json}
    (hs : stripEntries inTable siblings' = stripEntries inTable siblings)
    (hv : strip inTable v' = strip inTable v)
    (hnil : (∀ m, v ≠ .object m) → (siblings = [] ↔ siblings' = [])) :
    strip inTable (underSiblings siblings' v') = strip inTable (underSiblings siblings v) := by
  by_cases hobject : ∃ m, v = .object m
  · obtain ⟨m, rfl⟩ := hobject
    obtain ⟨m', rfl⟩ : ∃ m', v' = .object m' := by
      by_contra hno
      exact strip_ne_object (fun m' he => hno ⟨m', he⟩) _ hv
    rw [strip_underSiblings_object, strip_underSiblings_object, hs, hv]
  · have hv₁ : ∀ m, v ≠ .object m := fun m he => hobject ⟨m, he⟩
    have hv₂ : ∀ m, v' ≠ .object m := by
      rintro m rfl
      exact strip_ne_object hv₁ _ hv.symm
    rw [underSiblings_of_ne_object hv₁, underSiblings_of_ne_object hv₂]
    simp only [List.isEmpty_iff, ← hnil hv₁]
    split
    · exact hv
    · rw [strip, strip, hs]

/-! ## References to definitions that are no mappings -/

/-- Only a value that comes down to no mapping resolves to none. -/
theorem noMapping_of_resolve (visited : List String) (v : Json)
    (hv : ∀ m, resolve table o visited v ≠ .object m) : NoMapping table o v := by
  induction visited using unvisited_induct table generalizing v with
  | step visited ihk =>
    cases v with
    | scalar s => exact .scalar s
    | array xs => exact .array xs
    | object m =>
      obtain ⟨name, body, hexp, halone, he⟩ := resolve_ne_object hv
      rw [he] at hv
      exact .reference (expansion?_nil_of_some hexp) halone
        (ihk _ (unvisited_expansion_lt hexp) body hv)

/-! ## Two documents -/

structure RedocumentedTable (table : Entries Json) (o : Options) (T : Set String)
    (table' : Entries Json) : Prop where
  keys : Entries.keys table = Entries.keys table'
  body : ∀ name body body', Entries.get? table name = some body →
    Entries.get? table' name = some body' → Redocumented table o T false body body'
  inTable : ∀ name ∈ T, ∀ body body', Entries.get? table name = some body →
    Entries.get? table' name = some body' → Redocumented table o T true body body'

theorem Redocumented.text? {inTable : Bool} {v v' : Json} (h : Redocumented table o T inTable v v') :
    v'.text? = v.text? := by
  cases h <;> rfl

theorem Redocumented.reference {inTable : Bool} {m m' : Entries Json}
    (h : Redocumented table o T inTable (.object m) (.object m')) :
    (Entries.get? m' Node.refKey).bind Json.text? = (Entries.get? m Node.refKey).bind Json.text? := by
  cases h with
  | object hk h =>
    have hkey : (inTable || !documentationKeys.contains Node.refKey) = true := by
      cases inTable <;> rfl
    rw [← get?_kept hkey m, ← get?_kept hkey m']
    cases hv : Entries.get? (kept inTable m) Node.refKey with
    | none => rw [Entries.get?_eq_none_of_keys hk hv]
    | some v =>
      obtain ⟨v', hv', hzip⟩ := Entries.exists_mem_zip_of_get? hk hv
      rw [hv', Option.bind_some, Option.bind_some, (h _ hzip).text?]

/-- In tables of the same definitions the same reference leads to the same definition. -/
theorem expansion?_of_keys (hk : Entries.keys table = Entries.keys table') {m m' : Entries Json}
    (href : (Entries.get? m' Node.refKey).bind Json.text? =
      (Entries.get? m Node.refKey).bind Json.text?) {visited : List String} {name : String}
    {body : Json} (h : expansion? table o visited m = some (name, body)) :
    ∃ body', expansion? table' o visited m' = some (name, body') := by
  obtain ⟨target, htarget, hname, hv, hbody⟩ := expansion?_eq_some_iff.mp h
  obtain ⟨body', hbody', -⟩ := Entries.exists_mem_zip_of_get? hk hbody
  exact ⟨body', expansion?_eq_some_iff.mpr ⟨target, href.trans htarget, hname, hv, hbody'⟩⟩

/-! ## Forms -/

theorem Redocumented.strip_eq {inTable : Bool} {v v' : Json}
    (h : Redocumented table o T inTable v v') : strip inTable v' = strip inTable v := by
  induction h with
  | scalar => rfl
  | array inTable hl h ih =>
    rw [strip, strip, stripItems_eq_map, stripItems_eq_map, Entries.map_congr_of_zip hl ih]
  | @object inTable m m' hk h _ _ ih =>
    rw [strip, strip, stripEntries_eq_map, stripEntries_eq_map]
    refine congrArg _ (Entries.map_congr_of_zip (Entries.length_eq_of_keys hk) fun p hp => ?_)
    have hkey := Entries.fst_eq_of_mem_zip hk hp
    rw [← hkey, ih p hp]

/-- Entries that are resolved, without their documentation. -/
theorem Redocumented.stripEntries_eq {inTable : Bool} {m m' : Entries Json} {visited : List String}
    (hk : Entries.keys (kept inTable m) = Entries.keys (kept inTable m'))
    (h : ∀ p ∈ (kept inTable m).zip (kept inTable m'),
      strip (!inTable && p.1.1 == "properties") (resolve table' o visited p.2.2) =
        strip (!inTable && p.1.1 == "properties") (resolve table o visited p.1.2)) :
    stripEntries inTable (resolveEntries table' o visited m') =
      stripEntries inTable (resolveEntries table o visited m) := by
  rw [stripEntries_eq_map, stripEntries_eq_map, resolveEntries_eq_map, resolveEntries_eq_map,
    kept_map inTable fun p => resolve table o visited p.2,
    kept_map inTable fun p => resolve table' o visited p.2, List.map_map, List.map_map]
  refine Entries.map_congr_of_zip (Entries.length_eq_of_keys hk) fun p hp => ?_
  have hkey := Entries.fst_eq_of_mem_zip hk hp
  rw [Function.comp_apply, Function.comp_apply, ← hkey, h p hp]

/-- Two values that differ in their documentation resolve to two such values. -/
theorem strip_resolve_eq (htable : RedocumentedTable table o T table') (visited : List String)
    {inTable : Bool} {v v' : Json} (h : Redocumented table o T inTable v v') :
    strip inTable (resolve table' o visited v') = strip inTable (resolve table o visited v) := by
  induction visited using unvisited_induct table generalizing inTable v v' with
  | step visited ihk =>
    induction h with
    | scalar inTable s => rw [resolve, resolve]
    | array inTable hl _ ih =>
      rw [resolve, resolve, strip, strip, resolveItems_eq_map, resolveItems_eq_map,
        stripItems_eq_map, stripItems_eq_map, List.map_map, List.map_map]
      exact congrArg Json.array (Entries.map_congr_of_zip hl ih)
    | @object inTable m m' hk h hopen halone ih =>
      have hedit := Redocumented.object hk h hopen halone
      cases hexp : expansion? table o visited m with
      | none =>
        have hexp' : expansion? table' o visited m' = none := by
          rw [Option.eq_none_iff_forall_ne_some]
          rintro ⟨name, body'⟩ he
          obtain ⟨body, hbody⟩ := expansion?_of_keys htable.keys.symm hedit.reference.symm he
          rw [hexp] at hbody
          cases hbody
        rw [resolve_object_of_none hexp, resolve_object_of_none hexp', hasReference, hasReference,
          hedit.reference]
        split
        · exact hedit.strip_eq
        · rw [strip, strip, Redocumented.stripEntries_eq hk ih]
      | some found =>
        obtain ⟨name, body⟩ := found
        obtain ⟨body', hexp'⟩ := expansion?_of_keys htable.keys hedit.reference hexp
        have hless := unvisited_expansion_lt hexp
        have hname := expansion?_nil_of_some hexp
        have hbody : Redocumented table o T inTable body body' := by
          have hget := get?_of_expansion hexp
          have hget' := get?_of_expansion hexp'
          cases inTable with
          | false => exact htable.body name body body' hget hget'
          | true => exact htable.inTable name (hopen rfl name body hname) body body' hget hget'
        rw [resolve_object_of_some hexp, resolve_object_of_some hexp']
        refine strip_underSiblings_congr ?_ (ihk _ hless hbody) fun hno => ?_
        · rw [stripEntries_erase, stripEntries_erase,
            Redocumented.stripEntries_eq hk fun p hp => ihk _ hless (h p hp)]
        · have hiff := halone name body hname (noMapping_of_resolve _ body hno)
          rwa [erase_resolveEntries_eq_nil_iff, erase_resolveEntries_eq_nil_iff]

/-- A document and the same document with other documentation. -/
structure RedocumentedDocument (o : Options) (T : Set String) (v v' : Json) : Prop where
  table : RedocumentedTable (definitions o v) o T (definitions o v')
  paths : (v.get? "paths" = none ∧ v'.get? "paths" = none) ∨
    ∃ p p', v.get? "paths" = some p ∧ v'.get? "paths" = some p' ∧
      Redocumented (definitions o v) o T false p p'

theorem RedocumentedTable.normalForm_eq (h : RedocumentedTable table o T table') {v v' : Json}
    (hv : Redocumented table o T false v v') (visited : List String) :
    normalForm table' o visited v' = normalForm table o visited v :=
  congrArg collapse (strip_resolve_eq h visited hv)

theorem RedocumentedDocument.preparedPaths_eq {v v' : Json} (h : RedocumentedDocument o T v v') :
    preparedPaths o v' = preparedPaths o v := by
  rw [preparedPaths, preparedPaths]
  rcases h.paths with ⟨hv, hv'⟩ | ⟨p, p', hv, hv', hp⟩
  · rw [hv, hv']
  · rw [hv, hv']
    exact h.table.normalForm_eq hp []

theorem RedocumentedDocument.preparedDefinitions_eq {v v' : Json} (hv : v.Distinct)
    (hv' : v'.Distinct) (h : RedocumentedDocument o T v v') :
    preparedDefinitions o v' = preparedDefinitions o v := by
  rw [preparedDefinitions, preparedDefinitions]
  refine Entries.map_congr_of_zip (Entries.length_eq_of_keys h.table.keys) fun p hp => ?_
  obtain ⟨⟨name, body⟩, name', body'⟩ := p
  obtain rfl : name = name' := Entries.fst_eq_of_mem_zip h.table.keys hp
  obtain ⟨hmem, hmem'⟩ := List.of_mem_zip hp
  have hbody := h.table.body name body body' (Entries.get?_of_mem (nodup_definitions hv) hmem)
    (Entries.get?_of_mem (nodup_definitions hv') hmem')
  exact congrArg _ (h.table.normalForm_eq hbody [name])

theorem divergence?_eq_none_of_prepared {v v' : Json} (hv : v.Distinct)
    (hpaths : preparedPaths o v' = preparedPaths o v)
    (hdefinitions : preparedDefinitions o v' = preparedDefinitions o v) :
    divergence? o v v' = none ∧ divergence? o v' v = none := by
  have hself := divergence?_self (o := o) hv
  rw [divergence?] at hself
  exact ⟨by rw [divergence?, hpaths, hdefinitions, hself],
    by rw [divergence?, hpaths, hdefinitions, hself]⟩

end Equivalence

open InlineSchema.Equivalence

/-- Documentation never affects the verdict, except beside a reference alone to a definition that is
no mapping: texts whose values differ in nothing else do not diverge, whichever is the original. -/
theorem findDivergence_redocumented (o : Options) (T : Set String) (source source' : String)
    (v v' : Yaml.Value) (hv : Yaml.Value.read? source = some v)
    (hv' : Yaml.Value.read? source' = some v')
    (h : RedocumentedDocument o T (Json.ofValue v) (Json.ofValue v')) :
    findDivergence o source source' = .ok none ∧ findDivergence o source' source = .ok none := by
  have hdistinct := Json.distinct_ofValue v
  have hnone := divergence?_eq_none_of_prepared hdistinct h.preparedPaths_eq
    (h.preparedDefinitions_eq hdistinct (Json.distinct_ofValue v'))
  rw [findDivergence_eq hv hv', findDivergence_eq hv' hv, hnone.1, hnone.2]
  exact ⟨rfl, rfl⟩

/-- Documentation beside a reference, and in the definition. -/
theorem findDivergence_described :
    let o : Options := ⟨["d"], .yaml⟩
    let source := "paths:\n p:\n  $ref: '#/d/A'\nd:\n A:\n  type: string\n"
    let source' :=
      "paths:\n p:\n  $ref: '#/d/A'\n  description: x\nd:\n A:\n  type: string\n  example: 1\n"
    findDivergence o source source' = .ok none ∧ findDivergence o source' source = .ok none := by
  intro o source source'
  let v : Yaml.Value := .mapping [(.string "paths", .mapping [(.string "p",
    .mapping [(.string "$ref", .string "#/d/A")])]), (.string "d", .mapping [(.string "A",
      .mapping [(.string "type", .string "string")])])]
  let v' : Yaml.Value := .mapping [(.string "paths", .mapping [(.string "p",
    .mapping [(.string "$ref", .string "#/d/A"), (.string "description", .string "x")])]),
      (.string "d", .mapping [(.string "A", .mapping [(.string "type", .string "string"),
        (.string "example", .scalar (.number (.integer 1)))])])]
  let table := [("A", Json.object [("type", .scalar (.string "string"))])]
  have hvalue (key s : String) (inTable : Bool) (p : (String × Json) × (String × Json))
      (hp : p ∈ [(key, Json.scalar (.string s))].zip [(key, .scalar (.string s))]) :
      Redocumented table o ∅ inTable p.1.2 p.2.2 := by
    rw [List.mem_singleton.mp hp]
    exact .scalar _ _
  have hbody : Redocumented table o ∅ false (.object [("type", .scalar (.string "string"))])
      (.object [("type", .scalar (.string "string")), ("example", .scalar (.number (.integer 1)))]) :=
    .object rfl (fun p hp => hvalue "type" "string" _ p hp) nofun nofun
  have href : Redocumented table o ∅ false (reference "#/d/A")
      (.object [(Node.refKey, .scalar (.string "#/d/A")),
        ("description", .scalar (.string "x"))]) := by
    refine .object rfl (fun p hp => hvalue Node.refKey "#/d/A" _ p hp) nofun ?_
    intro name body hname hno
    cases hname
    cases hno with
    | reference hname => cases hname
  refine findDivergence_redocumented o ∅ source source' v v' (by decide +kernel) (by decide +kernel)
    ⟨⟨rfl, ?_, nofun⟩, .inr ⟨_, _, rfl, rfl, ?_⟩⟩
  · intro name b b' hb hb'
    have hmem : (name, b) ∈ table := Entries.mem_of_get? hb
    cases List.mem_singleton.mp hmem
    cases hb'
    exact hbody
  · refine .object rfl (fun p hp => ?_) nofun nofun
    rw [List.mem_singleton.mp hp]
    exact href

/-- A description beside a reference takes the place of the definition, if that is a boolean. -/
theorem findDivergence_described_boolean :
    findDivergence ⟨["d"], .yaml⟩ "paths:\n $ref: '#/d/B'\nd:\n B: true\n"
        "paths:\n $ref: '#/d/B'\n description: x\nd:\n B: true\n" =
      .ok (some (.mismatch "/paths" "true" "object with 0 key(s)")) := by
  let v : Yaml.Value := .mapping [(.string "paths", .mapping [(.string "$ref", .string "#/d/B")]),
    (.string "d", .mapping [(.string "B", .scalar (.bool true))])]
  let v' : Yaml.Value := .mapping [(.string "paths", .mapping [(.string "$ref", .string "#/d/B"),
    (.string "description", .string "x")]), (.string "d", .mapping [(.string "B",
      .scalar (.bool true))])]
  have hpaths : preparedPaths ⟨["d"], .yaml⟩ (Json.ofValue v) = .scalar (.bool true) :=
    (form_reference rfl rfl rfl false).trans (form_scalar false _ _)
  have hpaths' : preparedPaths ⟨["d"], .yaml⟩ (Json.ofValue v') = .object [] := by
    let m := [("$ref", Json.scalar (.string "#/d/B")), ("description", .scalar (.string "x"))]
    let t := [("B", Json.scalar (.bool true))]
    have hB : expansion? t ⟨["d"], .yaml⟩ [] m = some ("B", .scalar (.bool true)) := rfl
    change collapse (strip false (resolve t ⟨["d"], .yaml⟩ [] (.object m))) = _
    rw [resolve_object_of_some hB, resolveEntries_eq_map, resolve]
    simp only [m, List.map_cons, List.map_nil, resolve]
    rfl
  rw [findDivergence_eq (v := v) (w := v') (by decide +kernel) (by decide +kernel), divergence?,
    hpaths, hpaths']
  rfl

end InlineSchema
