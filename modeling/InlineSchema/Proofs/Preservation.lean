import InlineSchema.Proofs.Moved
import InlineSchema.Proofs.NormalForm
import InlineSchema.Proofs.References

/-! # Moving objects keeps the compared form

A value and the same value with objects moved have the same form. Each new reference is expanded
where it stands, because nothing but the new definition around it can have opened it before. The
original definitions are opened, and left closed where they recur, at the same places in both.
-/
namespace InlineSchema

namespace Json

def RefersTo (v : Json) (target : String) : Prop :=
  ∃ m, Within (.object m) v ∧ Entries.get? m Node.refKey = some (.scalar (.string target))

/-- A reference stands alone in its object, and is no table of properties. -/
def BareReferences (v : Json) : Prop :=
  ∀ m, Within (.object m) v →
    (Equivalence.hasReference m = true → ∃ target, object m = Equivalence.reference target) ∧
    ∀ m', ("properties", object m') ∈ m → Equivalence.hasReference m' = false

theorem RefersTo.within {v w : Json} {target : String} (h : RefersTo w target) (hw : Within w v) :
    RefersTo v target := by
  obtain ⟨m, hm, ht⟩ := h
  exact ⟨m, hm.trans hw, ht⟩

theorem BareReferences.within {v w : Json} (h : BareReferences v) (hw : Within w v) :
    BareReferences w := Everywhere.within h hw

/-! ## References in an object -/

theorem not_refersTo_scalar (s : Scalar) (target : String) : ¬RefersTo (.scalar s) target := by
  rintro ⟨m, hm, -⟩
  cases hm

theorem refersTo_object_iff (m : Entries Json) (target : String) :
    RefersTo (.object m) target ↔
      Entries.get? m Node.refKey = some (.scalar (.string target)) ∨ ∃ p ∈ m, RefersTo p.2 target := by
  constructor
  · rintro ⟨m', hm', ht⟩
    cases hm' with
    | self => exact .inl ht
    | value hp hw => exact .inr ⟨_, hp, m', hw, ht⟩
  · rintro (h | ⟨p, hp, h⟩)
    · exact ⟨m, .self, h⟩
    · exact h.within (.value hp .self)

theorem bareReferences_scalar (s : Scalar) : BareReferences (.scalar s) := everywhere_scalar s

theorem bareReferences_array_iff (xs : List Json) :
    BareReferences (.array xs) ↔ ∀ x ∈ xs, BareReferences x := everywhere_array_iff xs

theorem bareReferences_object_iff (m : Entries Json) :
    BareReferences (.object m) ↔
      ((Equivalence.hasReference m = true → ∃ target, object m = Equivalence.reference target) ∧
        ∀ m', ("properties", object m') ∈ m → Equivalence.hasReference m' = false) ∧
      ∀ p ∈ m, BareReferences p.2 := everywhere_object_iff m

end Json

namespace Equivalence
open Extraction

variable {o : Options} {R : Registry} {original transformed : Entries Json}
  {own : String → Set String}

/-- A value in which every reference stands alone and leads to no definition of `R`. -/
structure Source (o : Options) (R : Registry) (v : Json) : Prop where
  bare : v.BareReferences
  closed : ∀ target, v.RefersTo target → ∀ name, o.definitionName? target = some name →
    R.get? name = none

theorem Source.within {v w : Json} (h : Source o R v) (hw : w.Within v) : Source o R w :=
  ⟨h.bare.within hw, fun target ht => h.closed target (ht.within hw)⟩

/-- The definitions of two documents, where the second come from the first by moving objects into
definitions of `R`: those moved out of the definition `d` have their names in `own d`. -/
structure Transformed (o : Options) (R : Registry) (original transformed : Entries Json)
    (own : String → Set String) : Prop where
  body : ∀ d v, Entries.get? original d = some v → Source o R v ∧ ∃ n n', v = Json.ofNode n ∧
    Entries.get? transformed d = some (Json.ofNode n') ∧ Moved o R (own d) false .schema n n'
  minted : ∀ name body, R.get? name = some body →
    Entries.get? transformed name = some (Json.ofNode body)
  other : ∀ name, Entries.get? original name = none → R.get? name = none →
    Entries.get? transformed name = none
  new : ∀ name, R.get? name ≠ none → Entries.get? original name = none
  nonempty : R.get? "" = none
  own_minted : ∀ d, ∀ name ∈ own d, R.get? name ≠ none
  disjoint : ∀ d d', d ≠ d' → Disjoint (own d) (own d')

/-- The definitions being expanded in the two documents, where objects with these names may still
be met: the same original ones, and new ones that are not met again. -/
structure Aligned (original : Entries Json) (own : String → Set String) (names : Set String)
    (visited visited' : List String) : Prop where
  same : ∀ d, Entries.get? original d ≠ none → (d ∈ visited' ↔ d ∈ visited)
  apart : ∀ name ∈ visited', name ∉ names
  unopened : ∀ d, Entries.get? original d ≠ none → d ∉ visited → ∀ name ∈ own d,
    name ∉ visited' ∧ name ∉ names

theorem Aligned.open_minted {names : Set String} {visited visited' : List String} {name : String}
    (ht : Transformed o R original transformed own)
    (h : Aligned original own names visited visited') (hname : name ∈ names)
    (hR : R.get? name ≠ none) :
    Aligned original own (names \ {name}) visited (name :: visited') where
  same d hd := by
    have hne : d ≠ name := by
      rintro rfl
      exact hd (ht.new d hR)
    rw [List.mem_cons, ← h.same d hd]
    exact or_iff_right hne
  apart x hx := by
    rcases List.mem_cons.mp hx with rfl | hx
    · exact fun hc => hc.2 rfl
    · exact fun hc => h.apart x hx hc.1
  unopened d hd hv x hx := by
    obtain ⟨hx', hxn⟩ := h.unopened d hd hv x hx
    refine ⟨?_, fun hc => hxn hc.1⟩
    rintro hc
    rcases List.mem_cons.mp hc with rfl | hc
    · exact hxn hname
    · exact hx' hc

theorem Aligned.open_original {names : Set String} {visited visited' : List String} {d : String}
    (ht : Transformed o R original transformed own)
    (h : Aligned original own names visited visited') (hd : Entries.get? original d ≠ none)
    (hv : d ∉ visited) : Aligned original own (own d) (d :: visited) (d :: visited') where
  same e he := by rw [List.mem_cons, List.mem_cons, h.same e he]
  apart x hx := by
    rcases List.mem_cons.mp hx with rfl | hx
    · exact fun hc => ht.own_minted _ _ hc |> fun hR => hd (ht.new _ hR)
    · exact fun hc => (h.unopened d hd hv x hc).1 hx
  unopened e he hev x hx := by
    obtain ⟨hne, hev⟩ := not_or.mp (mt List.mem_cons.mpr hev)
    refine ⟨?_, Set.disjoint_left.mp (ht.disjoint e d hne) hx⟩
    intro hc
    rcases List.mem_cons.mp hc with rfl | hc
    · exact hd (ht.new _ (ht.own_minted e _ hx))
    · exact (h.unopened e he hev x hx).1 hc

/-! ## One value -/

def inTable (g : ReadAs) : Bool := g == .table

theorem inTable_of_ne {g : ReadAs} (hg : g ≠ .table) : inTable g = false := by
  cases g with
  | schema => rfl
  | table => exact absurd rfl hg
  | either => rfl

theorem inTable_under {g : ReadAs} (hg : g ≠ .either) (key : String) :
    inTable (g.under key) = (!inTable g && key == "properties") := by
  cases g with
  | schema =>
    rw [ReadAs.under]
    cases key == "properties" <;> rfl
  | table => rfl
  | either => exact absurd rfl hg

theorem text?_of_moved {names : Set String} {entry : Bool} {g : ReadAs} {n n' : Node}
    (h : Moved o R names entry g n n') : (Json.ofNode n').text? = (Json.ofNode n).text? := by
  cases h with
  | scalar => rfl
  | sequence => rfl
  | mapping => rfl
  | minted _ _ _ _ _ hn' => rcases hn' with rfl | ⟨d, rfl⟩ <;> rfl

theorem hasReference_ofNode (m : Entries Node) :
    hasReference (m.map fun p => (p.1, Json.ofNode p.2)) =
      (((Entries.get? m Node.refKey).map Json.ofNode).bind Json.text?).isSome := by
  rw [hasReference, Entries.get?_map]

theorem hasReference_of_moved {names : Set String} {g : ReadAs} {m m' : Entries Node}
    (hk : Entries.keys m = Entries.keys m')
    (h : ∀ p ∈ m.zip m', Moved o R names true (g.under p.1.1) p.1.2 p.2.2) :
    hasReference (m'.map fun p => (p.1, Json.ofNode p.2)) =
      hasReference (m.map fun p => (p.1, Json.ofNode p.2)) := by
  rw [hasReference_ofNode, hasReference_ofNode]
  cases hv : Entries.get? m Node.refKey with
  | none => rw [Entries.get?_eq_none_of_keys hk hv]
  | some v =>
    obtain ⟨v', hv', hz⟩ := Entries.exists_mem_zip_of_get? hk hv
    rw [hv', Option.map_some, Option.map_some, Option.bind_some, Option.bind_some,
      text?_of_moved (h _ hz)]

/-- The only entry of a reference does not change. -/
theorem reference_of_moved {names : Set String} {g : ReadAs} {m m' : Entries Node} {target : String}
    (hk : Entries.keys m = Entries.keys m')
    (h : ∀ p ∈ m.zip m', Moved o R names true (g.under p.1.1) p.1.2 p.2.2)
    (hm : Json.ofNode (.mapping m) = reference target) :
    Json.ofNode (.mapping m') = reference target := by
  rw [Json.ofNode_mapping] at hm ⊢
  obtain ⟨p, rfl, hp⟩ := List.map_eq_singleton_iff.mp (Json.object.inj hm)
  obtain ⟨p', rfl, hp'⟩ := List.map_eq_singleton_iff.mp hk.symm
  have hv : Moved o R names true _ p.2 p'.2 := h _ List.mem_cons_self
  have htext : Json.ofNode p.2 = .scalar (.string target) := congrArg Prod.snd hp
  have htext' : (Json.ofNode p'.2).text? = some target := by
    rw [text?_of_moved hv, htext]
    rfl
  have hkey : p'.1 = Node.refKey := hp'.trans (congrArg Prod.fst hp)
  rw [List.map_singleton, Json.text?_eq_some htext', hkey]
  rfl

/-- A description beside a reference does not matter. -/
theorem form_documented (table : Entries Json) (visited : List String) (d target : String) :
    form table o false visited (Json.ofNode (documented d (Node.reference target))) =
      form table o false visited (reference target) := by
  have hof : Json.ofNode (documented d (Node.reference target)) = .object
      [("description", .scalar (.string d)), ("allOf", .array [reference target])] := rfl
  have hkept : kept false [("description", Json.scalar (.string d)),
      ("allOf", .array [reference target])] = [("allOf", .array [reference target])] := rfl
  rw [hof, form_object rfl, hkept, List.map_singleton, form_array]
  rfl

/-- A reference of the source leads to the same in both documents. It is expanded in both, and then
it matters what `expanded` says of the bodies, or in none. -/
theorem form_reference_of_source (ht : Transformed o R original transformed own)
    {names : Set String} {visited visited' : List String} {target : String}
    (ha : Aligned original own names visited visited') (hs : Source o R (reference target))
    (expanded : ∀ d v v', Entries.get? original d = some v → Entries.get? transformed d = some v' →
      d ∉ visited → form transformed o false (d :: visited') v' =
        form original o false (d :: visited) v) :
    form transformed o false visited' (reference target) =
      form original o false visited (reference target) := by
  cases hname : o.definitionName? target with
  | none =>
    rw [form_reference_of_none (by simp [hname]), form_reference_of_none (by simp [hname])]
  | some d =>
    cases hd : Entries.get? original d with
    | none =>
      have hR : R.get? d = none := hs.closed target ⟨_, .self, rfl⟩ d hname
      have hd' := ht.other d hd hR
      rw [form_reference_of_none, form_reference_of_none]
      · rintro e he -
        rw [Option.some.inj (hname.symm.trans he)] at hd
        exact hd
      · rintro e he -
        rw [Option.some.inj (hname.symm.trans he)] at hd'
        exact hd'
    | some v =>
      obtain ⟨-, n, n', -, hv', -⟩ := ht.body d v hd
      have hiff := ha.same d (by rw [hd]; exact Option.some_ne_none v)
      by_cases hv : d ∈ visited
      · have hvisited := hiff.mpr hv
        rw [form_reference_of_none, form_reference_of_none]
        · intro e he hc
          rw [← Option.some.inj (hname.symm.trans he), List.contains_iff_mem.mpr hv] at hc
          cases hc
        · intro e he hc
          rw [← Option.some.inj (hname.symm.trans he), List.contains_iff_mem.mpr hvisited] at hc
          cases hc
      · have hvisited := mt hiff.mp hv
        rw [form_reference hname (by simpa using hvisited) hv',
          form_reference hname (by simpa using hv) hd]
        exact expanded d v _ hd hv' hv

theorem form_moved (ht : Transformed o R original transformed own) (visited : List String)
    {names : Set String} {entry : Bool} {g : ReadAs} {n n' : Node}
    (h : Moved o R names entry g n n') (hg : g ≠ .either) (visited' : List String)
    (ha : Aligned original own names visited visited') (hs : Source o R (Json.ofNode n))
    (htable : g = .table → ∀ m, Json.ofNode n = .object m → hasReference m = false) :
    form transformed o (inTable g) visited' (Json.ofNode n') =
      form original o (inTable g) visited (Json.ofNode n) := by
  induction visited using unvisited_induct original generalizing names entry g n n' visited' with
  | step visited ihk =>
    induction h generalizing visited' with
    | scalar s => rw [Json.ofNode, form_scalar, form_scalar]
    | @sequence names entry g xs xs' hl _ ih =>
      rw [Json.ofNode_sequence, Json.ofNode_sequence, form_array, form_array, List.map_map,
        List.map_map]
      refine congrArg Json.array (Entries.map_congr_of_zip hl fun p hp => ?_)
      have hitem := ih p hp
      rw [ReadAs.inside_of_ne hg] at hitem
      have hmem := List.mem_map_of_mem (f := Json.ofNode) (List.of_mem_zip hp).1
      rw [Json.ofNode_sequence] at hs
      exact hitem (by decide) visited' ha (hs.within (.item hmem .self)) (fun h => by cases h)
    | @mapping names entry g m m' hk h ih =>
      cases href : hasReference (m.map fun p => (p.1, Json.ofNode p.2)) with
      | true =>
        obtain ⟨target, htarget⟩ := (hs.bare _ (Json.ofNode_mapping m ▸ .self)).1 href
        rw [← Json.ofNode_mapping] at htarget
        have hschema : g = .schema := by
          cases g with
          | schema => rfl
          | table =>
            rw [htable rfl _ (Json.ofNode_mapping m)] at href
            cases href
          | either => exact absurd rfl hg
        subst hschema
        rw [reference_of_moved hk h htarget, htarget]
        refine form_reference_of_source ht ha (htarget ▸ hs) fun d v v' hd hd' hdv => ?_
        obtain ⟨hsv, b, b', rfl, hb', hmoved⟩ := ht.body d v hd
        obtain rfl := Option.some.inj (hb'.symm.trans hd')
        have hless : unvisited original (d :: visited) < unvisited original visited :=
          unvisited_cons_lt (by simpa using hdv) hd
        have hopen := ha.open_original ht (by rw [hd]; exact Option.some_ne_none _) hdv
        exact ihk d hless hmoved (by decide) (d :: visited') hopen hsv (fun h => by cases h)
      | false =>
        have href' := (hasReference_of_moved hk h).trans href
        rw [Json.ofNode_mapping, Json.ofNode_mapping, form_object href', form_object href,
          kept_map (f := fun p => Json.ofNode p.2), kept_map (f := fun p => Json.ofNode p.2),
          List.map_map, List.map_map]
        refine congrArg closed (map_kept_congr hk (fun p hp => ?_) _)
        have hkey := Entries.fst_eq_of_mem_zip hk hp
        have hmem := List.mem_map_of_mem (f := fun p => (p.1, Json.ofNode p.2))
          (List.of_mem_zip hp).1
        rw [Json.ofNode_mapping] at hs
        have hvalue := ih p hp (ReadAs.under_ne_either hg _) visited' ha
          (hs.within (.value hmem .self)) fun htab m' hm' => ?_
        · rw [inTable_under hg] at hvalue
          simp only [Function.comp_apply, ← hkey, hvalue]
        · rw [ReadAs.eq_of_under_eq_table htab, hm'] at hmem
          exact (hs.bare _ .self).2 m' hmem
    | @minted names g name m body n' hgt hname hR href h hn' ih =>
      have hschema : g = .schema := by
        cases g with
        | schema => rfl
        | table => exact absurd rfl hgt
        | either => exact absurd rfl hg
      subst hschema
      have hminted : R.get? name ≠ none := by
        rw [hR]
        exact Option.some_ne_none body
      have hne : name ≠ "" := by
        rintro rfl
        exact hminted ht.nonempty
      have hbody := ih (by decide) (name :: visited') (ha.open_minted ht hname hminted) hs
        fun h => by cases h
      have hnot : visited'.contains name = false := by
        simpa using fun hc => ha.apart name hc hname
      have hreference : form transformed o false visited' (reference (o.refTo name)) =
          form original o false visited (Json.ofNode (.mapping m)) :=
        (form_reference (o.definitionName?_refTo hne) hnot (ht.minted name body hR) false).trans hbody
      rcases hn' with rfl | ⟨d, rfl⟩
      · exact hreference
      · exact (form_documented transformed visited' d (o.refTo name)).trans hreference

end Equivalence
end InlineSchema
