import InlineSchema.Proofs.Difference
import InlineSchema.Proofs.View

/-! # Forms and what is seen

A form is what is seen of a value down to the references that it leaves closed. Two values with forms
that are alike come down to values with forms that are alike again; where one form ends in a closed
reference so does the other, and then both go on in the definition of that name. So what is seen of
the one is seen of the other, along paths of any length.
-/
namespace InlineSchema.Equivalence

variable {table : Entries Json} {o : Options}

/-! ## The form of any mapping -/

/-- If every definition is being expanded already, nothing is. -/
theorem resolve_of_visited {visited : List String}
    (h : ∀ name, Entries.get? table name ≠ none → name ∈ visited) (v : Json) :
    resolve table o visited v = v := by
  induction v using Json.induct with
  | scalar s => rw [resolve]
  | array xs ih =>
    rw [resolve, resolveItems_eq_map, List.map_congr_left ih, List.map_id']
  | object m ih =>
    have hnone : expansion? table o visited m = none := by
      rw [Option.eq_none_iff_forall_ne_some]
      rintro ⟨name, body⟩ he
      obtain ⟨-, hname, hbody⟩ := expansion?_eq_some_iff_pointed.mp he
      exact hname (h name (by rw [hbody]; exact Option.some_ne_none body))
    have hentries : m.map (fun p => (p.1, resolve table o visited p.2)) = m := by
      refine (List.map_congr_left fun p hp => ?_).trans (List.map_id m)
      rw [ih p hp]
      rfl
    rw [resolve_object_of_none hnone, resolveEntries_eq_map, hentries, ite_self]

/-- The definitions that count as being expanded in the values of a mapping that is not expanded
itself: beside a reference nothing is expanded. -/
def closedIn (table : Entries Json) (visited : List String) (m : Entries Json) : List String :=
  if hasReference m then Entries.keys table else visited

theorem form_object_of_none {visited : List String} {m : Entries Json}
    (h : expansion? table o visited m = none) (b : Bool) :
    form table o b visited (.object m) = closed ((kept b m).map fun p =>
      (p.1, form table o (!b && p.1 == "properties") (closedIn table visited m) p.2)) := by
  cases href : hasReference m with
  | false => rw [form_object href, closedIn, href, if_neg Bool.false_ne_true]
  | true =>
    have hall : ∀ name, Entries.get? table name ≠ none → name ∈ Entries.keys table := fun name hname =>
      Entries.get?_isSome_iff.mp (Option.isSome_iff_ne_none.mpr hname)
    rw [form, resolve_object_of_none h, href, if_pos rfl, strip, stripEntries_eq_map,
      collapse_object, List.map_map, closedIn, href, if_pos rfl]
    refine congrArg closed (List.map_congr_left fun p _ => ?_)
    rw [form, resolve_of_visited hall]
    rfl

/-! ## Documents in which references stand alone -/

/-- In the value every reference that points into the definitions stands alone, is no table of
properties, and is written as a text; the names are known. If the value is a table of properties, it
is no such reference. -/
structure Readable (o : Options) (table : Entries Json) (known : String → Prop) (b : Bool)
    (v : Json) : Prop where
  distinct : v.Distinct
  bare : ∀ m, (Json.object m).Within v → pointed? o m ≠ none →
    ∃ target, Json.object m = reference target
  beside : ∀ m m', (Json.object m).Within v → ("properties", .object m') ∈ m → pointed? o m' = none
  text : ∀ m y, (Json.object m).Within v → Entries.get? m Node.refKey = some y → y.text? = none →
    ∀ c target, ComesDown table o false y c (.scalar (.string target)) →
      o.definitionName? target = none
  known : ∀ m name, (Json.object m).Within v → pointed? o m = some name → known name
  table : b = true → ∀ m, v = .object m → pointed? o m = none

variable {known : String → Prop}

theorem Readable.item {b : Bool} {xs : List Json} {x : Json} (h : Readable o table known b (.array xs))
    (hx : x ∈ xs) : Readable o table known false x where
  distinct := by
    cases h.distinct with
    | array h => exact h x hx
  bare m hm := h.bare m (hm.trans (.item hx .self))
  beside m m' hm := h.beside m m' (hm.trans (.item hx .self))
  text m y hm := h.text m y (hm.trans (.item hx .self))
  known m name hm := h.known m name (hm.trans (.item hx .self))
  table := nofun

theorem Readable.value {b : Bool} {m : Entries Json} {key : String} {v : Json}
    (h : Readable o table known b (.object m)) (hv : (key, v) ∈ m) :
    Readable o table known (!b && key == "properties") v where
  distinct := by
    cases h.distinct with
    | object _ h => exact h _ hv
  bare m hm := h.bare m (hm.trans (.value hv .self))
  beside m m' hm := h.beside m m' (hm.trans (.value hv .self))
  text m y hm := h.text m y (hm.trans (.value hv .self))
  known m name hm := h.known m name (hm.trans (.value hv .self))
  table hb m' hm' := by
    rw [Bool.and_eq_true, beq_iff_eq] at hb
    rw [hb.2, hm'] at hv
    exact h.beside m m' .self hv

theorem Readable.get?_kept {b : Bool} {m : Entries Json} {key : String} {v : Json}
    (h : Readable o table known b (.object m)) (hv : Entries.get? (kept b m) key = some v) :
    Readable o table known (!b && key == "properties") v :=
  h.value (List.mem_filter.mp (Entries.mem_of_get? hv)).1

/-- The only kept value, which is in a composition. -/
theorem Readable.branches {b : Bool} {m : Entries Json} {key : String} {u : Json}
    (h : Readable o table known b (.object m)) (hm : kept b m = [(key, u)])
    (hkey : Node.compositionKeys.contains key = true) : Readable o table known false u := by
  have hu : Entries.get? (kept b m) key = some u := by
    rw [hm, Entries.get?_cons, if_pos rfl]
  have h' := h.get?_kept hu
  rwa [beq_false_of_ne (compositionKeys_ne hkey).2, Bool.and_false] at h'

/-- The definition of a reference takes its place. -/
theorem Readable.reference {b : Bool} {m : Entries Json} {visited : List String} {name : String}
    {body : Json} (h : Readable o table known b (.object m))
    (hm : expansion? table o visited m = some (name, body)) :
    b = false ∧ ∃ target, Json.object m = Equivalence.reference target ∧
      o.definitionName? target = some name := by
  obtain ⟨hpointed, -⟩ := expansion?_eq_some_iff_pointed.mp hm
  refine ⟨?_, ?_⟩
  · cases b with
    | false => rfl
    | true =>
      rw [h.table rfl m rfl] at hpointed
      cases hpointed
  · obtain ⟨target, htarget⟩ := h.bare m .self (by rw [hpointed]; exact Option.some_ne_none name)
    cases htarget
    exact ⟨target, rfl, hpointed⟩

theorem Readable.comesDown (ht : ∀ p ∈ table, Readable o table known false p.2) {b c : Bool}
    {v w : Json} (h : ComesDown table o b v c w) (hv : Readable o table known b v) :
    Readable o table known c w := by
  induction h with
  | refl => exact hv
  | definition hm _ ih =>
    obtain ⟨rfl, -⟩ := hv.reference hm
    exact ih (ht _ (Entries.mem_of_get? (get?_of_expansion hm)))
  | branch hm hkey _ _ ihu ih => exact ih ((ihu (hv.branches hm hkey)).item List.mem_cons_self)

/-! ## Where a form comes from -/

/-- The form of the value is made of the forms of the values that it holds. -/
inductive Formed (table : Entries Json) (o : Options) : Bool → List String → Json → Prop
  | scalar (b : Bool) (visited : List String) (s : Scalar) : Formed table o b visited (.scalar s)
  | array (b : Bool) (visited : List String) (xs : List Json) : Formed table o b visited (.array xs)
  | object {b : Bool} {visited visited' : List String} {m : Entries Json}
      (h : form table o b visited (.object m) = .object ((kept b m).map fun p =>
        (p.1, form table o (!b && p.1 == "properties") visited' p.2))) :
      Formed table o b visited (.object m)

theorem Formed.of_scalar {b : Bool} {visited : List String} {v : Json} {s : Scalar}
    (h : Formed table o b visited v) (hs : form table o b visited v = .scalar s) : v = .scalar s := by
  cases h with
  | scalar => rwa [form_scalar] at hs
  | array =>
    rw [form_array] at hs
    cases hs
  | object h =>
    rw [h] at hs
    cases hs

theorem Formed.of_array {b : Bool} {visited : List String} {v : Json} {ys : List Json}
    (h : Formed table o b visited v) (hys : form table o b visited v = .array ys) :
    ∃ xs, v = .array xs ∧ ys = xs.map (form table o false visited) := by
  cases h with
  | scalar =>
    rw [form_scalar] at hys
    cases hys
  | array =>
    rw [form_array] at hys
    exact ⟨_, rfl, (Json.array.inj hys).symm⟩
  | object h =>
    rw [h] at hys
    cases hys

theorem Formed.of_object {b : Bool} {visited : List String} {v : Json} {e : Entries Json}
    (h : Formed table o b visited v) (he : form table o b visited v = .object e) :
    ∃ m visited', v = .object m ∧ e = (kept b m).map fun p =>
      (p.1, form table o (!b && p.1 == "properties") visited' p.2) := by
  cases h with
  | scalar =>
    rw [form_scalar] at he
    cases he
  | array =>
    rw [form_array] at he
    cases he
  | object h =>
    rw [h] at he
    exact ⟨_, _, rfl, (Json.object.inj he).symm⟩

/-- The form of a composition. -/
theorem form_of_kept {b : Bool} {m : Entries Json} {key : String} {u : Json}
    (hm : kept b m = [(key, u)]) (hkey : Node.compositionKeys.contains key = true)
    (visited : List String) : form table o b visited (.object m) =
      closed [(key, form table o false visited u)] := by
  have href : hasReference m = false := by
    rw [hasReference, get?_refKey_of_kept hm hkey]
    rfl
  rw [form_object href, hm, List.map_singleton, beq_false_of_ne (compositionKeys_ne hkey).2,
    Bool.and_false]

def IsBranch (table : Entries Json) (o : Options) (b : Bool) (visited : List String)
    (m : Entries Json) (y : Json) : Prop :=
  ∃ key u, kept b m = [(key, u)] ∧ Node.compositionKeys.contains key = true ∧
    form table o false visited u = .array [y]

/-- A mapping that is not expanded and is no composition of one branch. -/
theorem Formed.of_not_isBranch {b : Bool} {visited : List String} {m : Entries Json}
    (hm : expansion? table o visited m = none) (h : ∀ y, ¬IsBranch table o b visited m y) :
    Formed table o b visited (.object m) := by
  refine .object ((form_object_of_none hm b).trans (closed_of_none ?_))
  refine Option.eq_none_iff_forall_ne_some.mpr fun y hy => h y ?_
  obtain ⟨key, hmap, hkey⟩ := onlyBranch?_eq_some_iff.mp hy
  obtain ⟨⟨k, u⟩, hkept, he⟩ := List.map_eq_singleton_iff.mp hmap
  obtain ⟨rfl, hu⟩ := Prod.mk.inj he
  refine ⟨k, u, hkept, hkey, ?_⟩
  have href : hasReference m = false := by
    rw [hasReference, get?_refKey_of_kept hkept hkey]
    rfl
  rwa [beq_false_of_ne (compositionKeys_ne hkey).2, Bool.and_false, closedIn, href,
    if_neg Bool.false_ne_true] at hu

/-- Every form is the form of a value that the value comes down to, and is made of the forms of the
values that this one holds. -/
theorem exists_formed (ht : ∀ p ∈ table, Readable o table known false p.2) :
    ∀ (b : Bool) (visited : List String) (v : Json), Readable o table known b v →
      ∃ c visited' w, ComesDown table o b v c w ∧ Formed table o c visited' w ∧
        form table o c visited' w = form table o b visited v ∧
        (unvisited table visited' < unvisited table visited ∨
          unvisited table visited' = unvisited table visited ∧ sizeOf w ≤ sizeOf v)
  | b, visited, .scalar s, _ =>
    ⟨b, visited, _, .refl b _, .scalar b visited s, rfl, .inr ⟨rfl, le_rfl⟩⟩
  | b, visited, .array xs, _ =>
    ⟨b, visited, _, .refl b _, .array b visited xs, rfl, .inr ⟨rfl, le_rfl⟩⟩
  | b, visited, .object m, hv => by
    cases he : expansion? table o visited m with
    | some found =>
      obtain ⟨name, body⟩ := found
      obtain ⟨-, hname, hbody⟩ := expansion?_eq_some_iff_pointed.mp he
      obtain ⟨rfl, target, htarget, hdefinition⟩ := hv.reference he
      have hless := unvisited_expansion_lt he
      obtain ⟨c, visited', w, hw, hformed, hform, hsize⟩ :=
        exists_formed ht false (name :: visited) body (ht _ (Entries.mem_of_get? hbody))
      have hexp := expansion?_nil_of_some he
      refine ⟨c, visited', w, .definition hexp hw, hformed, ?_, .inl (by omega)⟩
      rw [hform, htarget, form_reference hdefinition (by simpa using hname) hbody]
    | none =>
      by_cases hbranch : ∃ y, IsBranch table o b visited m y
      · obtain ⟨y, key, u, hm, hkey, hy⟩ := hbranch
        have hu := hv.branches hm hkey
        have hmem : (key, u) ∈ kept b m := hm ▸ List.mem_cons_self
        have hless : sizeOf u < sizeOf (Json.object m) :=
          Json.sizeOf_lt_of_mem (List.mem_filter.mp hmem).1
        obtain ⟨d, visited', w, hw, hformed, hform, hsize⟩ := exists_formed ht false visited u hu
        obtain ⟨xs, rfl, hxs⟩ := hformed.of_array (hform.trans hy)
        obtain ⟨x, rfl, hx⟩ := List.map_eq_singleton_iff.mp hxs.symm
        have hless' : sizeOf x < sizeOf (Json.array [x]) :=
          Json.sizeOf_lt_of_mem_array List.mem_cons_self
        obtain ⟨c, visited'', w', hw', hformed', hform', hsize'⟩ := exists_formed ht false visited' x
          ((hu.comesDown ht hw).item List.mem_cons_self)
        refine ⟨c, visited'', w', .branch hm hkey hw hw', hformed', ?_, by omega⟩
        rw [hform', hx, form_of_kept hm hkey, hy]
        exact (closed_of_onlyBranch (onlyBranch?_eq_some_iff.mpr ⟨key, rfl, hkey⟩)).symm
      · exact ⟨b, visited, _, .refl b _, .of_not_isBranch he (not_exists.mp hbranch), rfl,
          .inr ⟨rfl, le_rfl⟩⟩
termination_by _ visited v => (unvisited table visited, sizeOf v)
decreasing_by
  · exact Prod.Lex.right _ hless
  · rcases hsize with hsize | ⟨hsize, hle⟩
    · exact Prod.Lex.left _ _ hsize
    · rw [hsize]
      exact Prod.Lex.right _ (by omega)
  · exact Prod.Lex.left _ _ hless

/-! ## Texts of references -/

/-- If the form of the value of the reference key is a text, the mapping refers to what the text
names. -/
theorem Readable.pointed?_of_form (ht : ∀ p ∈ table, Readable o table known false p.2) {b : Bool}
    {m : Entries Json} {y : Json} {visited : List String} {target name : String}
    (h : Readable o table known b (.object m)) (hy : Entries.get? (kept b m) Node.refKey = some y)
    (hform : form table o false visited y = .scalar (.string target))
    (hname : o.definitionName? target = some name) : pointed? o m = some name := by
  have hkept : (b || !documentationKeys.contains Node.refKey) = true := by
    cases b <;> rfl
  have hread : Readable o table known false y := by
    have h' := h.get?_kept hy
    rwa [show (Node.refKey == "properties") = false from rfl, Bool.and_false] at h'
  rw [Equivalence.get?_kept hkept] at hy
  cases htext : y.text? with
  | some t =>
    rw [Json.text?_eq_some htext, form_scalar] at hform
    cases hform
    rw [pointed?, hy, Option.bind_some, htext, Option.bind_some, hname]
  | none =>
    obtain ⟨c, visited', w, hw, hformed, he, -⟩ := exists_formed ht false visited y hread
    obtain rfl := hformed.of_scalar (he.trans hform)
    rw [h.text m y .self hy htext c target hw] at hname
    cases hname

/-- A value with a form like that of an object comes down to an object with the same keys. -/
theorem Readable.exists_object (ht : ∀ p ∈ table, Readable o table known false p.2) {b : Bool}
    {v : Json} {visited : List String} {e : Entries Json} {f : String → Json → Json}
    (hv : Readable o table known b v)
    (h : Alike (.object (e.map fun p => (p.1, f p.1 p.2))) (form table o b visited v)) :
    ∃ c m visited', ComesDown table o b v c (.object m) ∧
      (∀ key, key ∈ Entries.keys e ↔ key ∈ Entries.keys (kept c m)) ∧
      ∀ key x y, Entries.get? e key = some x → Entries.get? (kept c m) key = some y →
        Alike (f key x) (form table o (!c && key == "properties") visited' y) := by
  obtain ⟨c, visited', w, hw, hformed, he, -⟩ := exists_formed ht b visited v hv
  rw [← he] at h
  cases hobject : form table o c visited' w with
  | scalar =>
    rw [hobject] at h
    cases h
  | array =>
    rw [hobject] at h
    cases h
  | object e' =>
    obtain ⟨m, inner, rfl, rfl⟩ := hformed.of_object hobject
    rw [hobject] at h
    cases h with
    | object hk hvalues =>
      rw [Entries.keys_map fun p : String × Json => f p.1 p.2,
        Entries.keys_map fun p : String × Json => form table o (!c && p.1 == "properties") inner p.2]
        at hk
      refine ⟨c, m, inner, hw, hk, fun key x y hx hy => hvalues key _ _ ?_ ?_⟩
      · exact List.mem_map_of_mem (f := fun p => (p.1, f p.1 p.2)) (Entries.mem_of_get? hx)
      · rw [Entries.get?_map_keyed fun k => form table o (!c && k == "properties") inner, hy,
          Option.map_some]

/-- Where a form is a closed reference, the value comes down to the definition. -/
theorem Readable.comesDown_of_form (ht : ∀ p ∈ table, Readable o table known false p.2) {b : Bool}
    {v : Json} {visited : List String} {target name : String} (hv : Readable o table known b v)
    (hform : Alike (Equivalence.reference target) (form table o b visited v))
    (hname : o.definitionName? target = some name) :
    known name ∧ ∀ body, Entries.get? table name = some body → ComesDown table o b v false body := by
  obtain ⟨c, m, visited', hw, hkeys, hvalues⟩ := hv.exists_object ht
    (e := [(Node.refKey, .scalar (.string target))]) (f := fun _ x => x) hform
  have hread := hv.comesDown ht hw
  obtain ⟨y, hy⟩ := Option.isSome_iff_exists.mp
    (Entries.get?_isSome_iff.mpr ((hkeys Node.refKey).mp List.mem_cons_self))
  have hy' := hvalues Node.refKey _ y (Entries.get?_cons .. ▸ if_pos rfl) hy
  rw [show (Node.refKey == "properties") = false from rfl, Bool.and_false] at hy'
  have hpointed := hread.pointed?_of_form ht hy hy'.eq_string hname
  have hschema : c = false := by
    cases c with
    | false => rfl
    | true =>
      rw [hread.table rfl m rfl] at hpointed
      cases hpointed
  refine ⟨hread.known m name .self hpointed, fun body hbody => ?_⟩
  have hexp : expansion? table o [] m = some (name, body) :=
    expansion?_eq_some_iff_pointed.mpr ⟨hpointed, List.not_mem_nil, hbody⟩
  rw [hschema] at hw
  exact hw.trans (.definition hexp (.refl false body))

end InlineSchema.Equivalence
