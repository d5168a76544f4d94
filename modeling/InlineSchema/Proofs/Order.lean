import InlineSchema.Proofs.Likeness

/-! # The order of entries

Equivalence is reflexive and transitive, and the order of entries does not matter to it. It does
matter inside a mapping that is itself a key, since keys are compared by their text, which shows
the entries in their order.
-/
namespace InlineSchema

namespace Entries

variable {α : Type}

theorem get?_perm {m m' : Entries α} (h : m.Perm m') (hm : (keys m).Nodup) (key : String) :
    get? m key = get? m' key := by
  have hkeys : (keys m).Perm (keys m') := h.map Prod.fst
  cases hv : get? m key with
  | none =>
    rw [get?_eq_none_iff, hkeys.mem_iff] at hv
    exact (get?_eq_none_iff.mpr hv).symm
  | some v => exact (get?_of_mem (hkeys.nodup_iff.mp hm) (h.mem_iff.mp (mem_of_get? hv))).symm

end Entries

open Yaml (Value)

namespace Yaml.Value

/-- The texts by which the comparison knows the keys of a mapping. -/
def comparedKeys (es : List (Value × Value)) : List String :=
  es.map fun p => Json.keyOf (Json.ofValue p.1)

/-- No mapping has two keys of one text. -/
inductive DistinctTexts : Value → Prop
  | scalar (s : Scalar) : DistinctTexts (.scalar s)
  | sequence {xs : List Value} (h : ∀ x ∈ xs, DistinctTexts x) : DistinctTexts (.sequence xs)
  | mapping {es : List (Value × Value)} (hk : (comparedKeys es).Nodup)
      (h : ∀ p ∈ es, DistinctTexts p.2) : DistinctTexts (.mapping es)
  | tagged (t : String) {v : Value} (h : DistinctTexts v) : DistinctTexts (.tagged t v)

/-- The values differ only in the order of the entries of mappings, at any depth. An entry moves
together with its key, which keeps its text. -/
inductive Reordered : Value → Value → Prop
  | scalar (s : Scalar) : Reordered (.scalar s) (.scalar s)
  | sequence {xs ys : List Value} (hl : xs.length = ys.length)
      (h : ∀ p ∈ xs.zip ys, Reordered p.1 p.2) : Reordered (.sequence xs) (.sequence ys)
  | mapping {es fs moved : List (Value × Value)} (hp : moved.Perm fs)
      (hk : comparedKeys es = comparedKeys moved)
      (h : ∀ p ∈ es.zip moved, Reordered p.1.2 p.2.2) : Reordered (.mapping es) (.mapping fs)
  | tagged (t : String) {v w : Value} (h : Reordered v w) : Reordered (.tagged t v) (.tagged t w)

theorem Reordered.refl (v : Value) : v.Reordered v := by
  induction v using Value.induct with
  | scalar s => exact .scalar s
  | sequence xs ih =>
    refine .sequence rfl fun p hp => ?_
    rw [← Entries.eq_of_mem_zip_self hp]
    exact ih _ (List.of_mem_zip hp).1
  | mapping es ih =>
    refine .mapping (List.Perm.refl es) rfl fun p hp => ?_
    rw [← Entries.eq_of_mem_zip_self hp]
    exact ih _ (List.of_mem_zip hp).1
  | tagged t v ih => exact .tagged t ih

theorem Reordered.swap {k l v v' w w' : Value} (hv : v.Reordered v') (hw : w.Reordered w') :
    (Value.mapping [(k, v), (l, w)]).Reordered (.mapping [(l, w'), (k, v')]) := by
  refine .mapping (List.Perm.swap (l, w') (k, v') []) rfl ?_
  exact List.forall_mem_cons.mpr ⟨hv, List.forall_mem_singleton.mpr hw⟩

theorem Reordered.singleton {k v w : Value} (h : v.Reordered w) :
    (Value.mapping [(k, v)]).Reordered (.mapping [(k, w)]) :=
  .mapping (List.Perm.refl [(k, w)]) rfl (List.forall_mem_singleton.mpr h)

end Yaml.Value

namespace Json

def comparedEntries (es : List (Value × Value)) : Entries Json :=
  es.map fun p => (keyOf (ofValue p.1), ofValue p.2)

theorem keys_comparedEntries (es : List (Value × Value)) :
    Entries.keys (comparedEntries es) = Value.comparedKeys es := by
  rw [comparedEntries, Entries.keys, List.map_map]
  rfl

theorem ofValue_mapping {es : List (Value × Value)} (hk : (Value.comparedKeys es).Nodup) :
    ofValue (.mapping es) = .object (comparedEntries es) := by
  rw [ofValue, ofEntries_eq_map]
  rw [← keys_comparedEntries] at hk
  exact congrArg object (Entries.ofList_of_nodup hk)

end Json

namespace Equivalence

theorem Alike.perm {a b c : Entries Json} (h : Alike (.object a) (.object b)) (hp : b.Perm c)
    (hb : (Entries.keys b).Nodup) : Alike (.object a) (.object c) := by
  cases h with
  | object hk h =>
    refine .object (fun k => (hk k).trans (hp.map Prod.fst).mem_iff) fun k v w hv hw => ?_
    rw [← Entries.get?_perm hp hb] at hw
    exact h k v w hv hw

/-- Values in another order are alike. -/
theorem alike_of_reordered {v w : Value} (h : v.Reordered w) (hv : v.DistinctTexts) :
    Alike (Json.ofValue v) (Json.ofValue w) := by
  induction h with
  | scalar s => exact .scalar (same_self _)
  | sequence hl _ ih =>
    cases hv with
    | sequence hv =>
      rw [Json.ofValue, Json.ofValue, Json.ofItems_eq_map, Json.ofItems_eq_map]
      exact .array_map hl fun p hp => ih p hp (hv _ (List.of_mem_zip hp).1)
  | @mapping es fs moved hp hk _ ih =>
    cases hv with
    | mapping hes hv =>
      have hmoved : (Value.comparedKeys moved).Nodup := hk ▸ hes
      have hfs : (Value.comparedKeys fs).Nodup := (hp.map _).nodup_iff.mp hmoved
      have halike :
          Alike (.object (Json.comparedEntries es)) (.object (Json.comparedEntries moved)) := by
        rw [← Json.keys_comparedEntries] at hes hk
        rw [← Json.keys_comparedEntries moved] at hk
        refine .object_of_zip hes hk fun p hp => ?_
        rw [Json.comparedEntries, Json.comparedEntries, List.zip_map] at hp
        obtain ⟨q, hq, rfl⟩ := List.mem_map.mp hp
        exact ih q hq (hv _ (List.of_mem_zip hq).1)
      rw [Json.ofValue_mapping hes, Json.ofValue_mapping hfs]
      rw [← Json.keys_comparedEntries] at hmoved
      exact halike.perm (hp.map _) hmoved
  | tagged t _ ih =>
    cases hv with
    | tagged _ hv => exact ih hv

end Equivalence

theorem findDivergence_eq_none_iff {o : Options} {a b : String} :
    findDivergence o a b = .ok none ↔ ∃ v w, Value.read? a = some v ∧ Value.read? b = some w ∧
      Equivalence.divergence? o (Json.ofValue v) (Json.ofValue w) = none := by
  constructor
  · intro h
    cases hv : Value.read? a with
    | none =>
      simp only [findDivergence, Equivalence.read, hv] at h
      cases h
    | some v =>
      cases hw : Value.read? b with
      | none =>
        simp only [findDivergence, Equivalence.read, hv, hw] at h
        cases h
      | some w =>
        rw [findDivergence_eq hv hw] at h
        exact ⟨v, w, rfl, rfl, Except.ok.inj h⟩
  · rintro ⟨v, w, hv, hw, h⟩
    rw [findDivergence_eq hv hw, h]

/-- Equivalence is a preorder, and the order of entries does not matter to it. References may lead
in circles or nowhere, and may have other keys beside them. -/
theorem findDivergence_preorder (o : Options) :
    (∀ a v, Value.read? a = some v → findDivergence o a a = .ok none) ∧
    (∀ a b c, findDivergence o a b = .ok none → findDivergence o b c = .ok none →
      findDivergence o a c = .ok none) ∧
    ∀ a b v w, Value.read? a = some v → Value.read? b = some w → v.Reordered w → v.DistinctTexts →
      findDivergence o a b = .ok none ∧ findDivergence o b a = .ok none := by
  refine ⟨fun a v hv => ?_, fun a b c hab hbc => ?_, fun a b v w hv hw hvw hdistinct => ?_⟩
  · rw [findDivergence_eq hv hv, Equivalence.divergence?_self (Json.distinct_ofValue v)]
  · obtain ⟨u, v, hu, hv, huv⟩ := findDivergence_eq_none_iff.mp hab
    obtain ⟨v', w, hv', hw, hvw⟩ := findDivergence_eq_none_iff.mp hbc
    cases hv.symm.trans hv'
    exact findDivergence_eq_none_iff.mpr ⟨u, w, hu, hw, Equivalence.divergence?_trans huv hvw⟩
  · have hv' := Json.distinct_ofValue v
    have hw' := Json.distinct_ofValue w
    have halike := Equivalence.alike_of_reordered hvw hdistinct
    rw [findDivergence_eq hv hw, findDivergence_eq hw hv,
      Equivalence.divergence?_of_alike halike hv' hw',
      Equivalence.divergence?_of_alike (halike.symm hv' hw') hw' hv']
    exact ⟨rfl, rfl⟩

def circularValue : Value :=
  .mapping [(.string "paths", .mapping [(.string "p", .mapping [(.string "$ref", .string "#/d/A"),
      (.string "r", .null)])]),
    (.string "d", .mapping [(.string "A", .mapping [(.string "$ref", .string "#/d/A"),
      (.string "q", .mapping [(.string "$ref", .string "#/d/B")])])])]

def circularValueReordered : Value :=
  .mapping [(.string "d", .mapping [(.string "A", .mapping [
      (.string "q", .mapping [(.string "$ref", .string "#/d/B")]),
      (.string "$ref", .string "#/d/A")])]),
    (.string "paths", .mapping [(.string "p", .mapping [(.string "r", .null),
      (.string "$ref", .string "#/d/A")])])]

theorem circularValue_reordered : circularValue.Reordered circularValueReordered :=
  .swap (.singleton (.swap (.refl _) (.refl _))) (.singleton (.swap (.refl _) (.refl _)))

theorem distinctTexts_circularValue : circularValue.DistinctTexts := by
  refine .mapping (by decide) (List.forall_mem_cons.mpr ⟨?_, List.forall_mem_singleton.mpr ?_⟩)
  · refine .mapping (by decide) (List.forall_mem_singleton.mpr (.mapping (by decide) ?_))
    exact List.forall_mem_cons.mpr ⟨.scalar _, List.forall_mem_singleton.mpr (.scalar _)⟩
  · refine .mapping (by decide) (List.forall_mem_singleton.mpr (.mapping (by decide) ?_))
    refine List.forall_mem_cons.mpr ⟨.scalar _, List.forall_mem_singleton.mpr ?_⟩
    exact .mapping (by decide) (List.forall_mem_singleton.mpr (.scalar _))

theorem findDivergence_circularValue :
    let o : Options := ⟨["d"], .yaml⟩
    let a := "paths:\n p:\n  $ref: '#/d/A'\n  r:\nd:\n A:\n  $ref: '#/d/A'\n  q:\n   $ref: '#/d/B'\n"
    let b := "d:\n A:\n  q:\n   $ref: '#/d/B'\n  $ref: '#/d/A'\npaths:\n p:\n  r:\n  $ref: '#/d/A'\n"
    (Value.read? a = some circularValue ∧ Value.read? b = some circularValueReordered ∧
      circularValue.Reordered circularValueReordered ∧ circularValue.DistinctTexts) ∧
    findDivergence o a a = .ok none ∧ findDivergence o a b = .ok none ∧
      findDivergence o b a = .ok none ∧ findDivergence o b b = .ok none := by
  intro o a b
  have ha : Value.read? a = some circularValue := by decide +kernel
  have hb : Value.read? b = some circularValueReordered := by decide +kernel
  obtain ⟨hself, htrans, horder⟩ := findDivergence_preorder o
  obtain ⟨hab, hba⟩ := horder a b _ _ ha hb circularValue_reordered distinctTexts_circularValue
  exact ⟨⟨ha, hb, circularValue_reordered, distinctTexts_circularValue⟩, hself a _ ha, hab, hba,
    htrans b a b hba hab⟩

def mappingKeyValue (key : List (Value × Value)) : Value :=
  .mapping [(.string "paths", .mapping [(.mapping key, .string "c")])]

/-- The order of entries matters inside a key. -/
theorem findDivergence_mappingKeyValue :
    let a : Value × Value := (.string "a", .scalar (.number (.integer 1)))
    let b : Value × Value := (.string "b", .scalar (.number (.integer 2)))
    let original := "paths:\n ? \x7ba: 1, b: 2\x7d\n : c\n"
    let transformed := "paths:\n ? \x7bb: 2, a: 1\x7d\n : c\n"
    Value.read? original = some (mappingKeyValue [a, b]) ∧
      Value.read? transformed = some (mappingKeyValue [b, a]) ∧
      (mappingKeyValue [a, b]).DistinctTexts ∧
      (mappingKeyValue [a, b]).same (mappingKeyValue [b, a]) = true ∧
      findDivergence .default original transformed =
        .ok (some (.missing "/paths/\x7b\"a\":1,\"b\":2\x7d" .original)) := by
  intro a b original transformed
  have hv : Value.read? original = some (mappingKeyValue [a, b]) := by decide +kernel
  have hw : Value.read? transformed = some (mappingKeyValue [b, a]) := by decide +kernel
  refine ⟨hv, hw, ?_, by decide +kernel, ?_⟩
  · refine .mapping (by decide) (List.forall_mem_singleton.mpr ?_)
    exact .mapping (List.nodup_singleton _) (List.forall_mem_singleton.mpr (.scalar _))
  · rw [findDivergence_eq hv hw]
    cbv

end InlineSchema
