import InlineSchema.Proofs.Document
import InlineSchema.Proofs.References

/-! # Restoring a document

After an extraction every moved object can be put back: the registry holds all of it, in the
order in which it stood in the document, with its documentation and all that no comparison reads.
-/
namespace InlineSchema

namespace Extraction
open Registry

variable {o : Options} {R : Registry}

/-- `n` is the reference to a definition, or that with a description beside it. -/
def StandsFor (o : Options) (name : String) (n : Node) : Prop :=
  n = Node.reference (o.refTo name) ∨
    ∃ d, n = .mapping [("description", d), ("allOf", .sequence [Node.reference (o.refTo name)])]

/-- Replacing what stands for a definition of `R` by the body of the definition, in `n` and again
in the bodies, gives `x`. -/
inductive Restores (o : Options) (R : Registry) : Node → Node → Prop
  | scalar (s : Scalar) : Restores o R (.scalar s) (.scalar s)
  | sequence {xs ys : List Node} (hl : xs.length = ys.length)
      (h : ∀ p ∈ xs.zip ys, Restores o R p.1 p.2) : Restores o R (.sequence xs) (.sequence ys)
  | mapping {m m' : Entries Node} (hm : ∀ name, StandsFor o name (.mapping m) → R.get? name = none)
      (hk : Entries.keys m = Entries.keys m') (h : ∀ p ∈ m.zip m', Restores o R p.1.2 p.2.2) :
      Restores o R (.mapping m) (.mapping m')
  | definition {name : String} {n body x : Node} (hn : StandsFor o name n)
      (hb : R.get? name = some body) (h : Restores o R body x) : Restores o R n x

/-! ## Only one tree is restored -/

theorem StandsFor.isMapping {name : String} {n : Node} (h : StandsFor o name n) :
    n.isMapping = true := by
  rcases h with rfl | ⟨d, rfl⟩ <;> rfl

theorem StandsFor.within {name : String} {n : Node} (h : StandsFor o name n) :
    Node.Within (Node.reference (o.refTo name)) n := by
  rcases h with rfl | ⟨d, rfl⟩
  · exact .self
  · exact .value (List.mem_cons_of_mem _ List.mem_cons_self) (.item List.mem_cons_self .self)

theorem reference_injective {a b : String}
    (h : Node.reference (o.refTo a) = Node.reference (o.refTo b)) : a = b := by
  simp only [Node.reference, Node.string, Node.mapping.injEq, List.cons.injEq, Prod.mk.injEq,
    Node.scalar.injEq, Scalar.string.injEq, and_true, true_and] at h
  exact o.refTo_injective h

theorem StandsFor.name_unique {a b : String} {n : Node} (ha : StandsFor o a n)
    (hb : StandsFor o b n) : a = b := by
  rcases ha with rfl | ⟨d, rfl⟩
  · rcases hb with hb | ⟨d, hb⟩
    · exact reference_injective hb
    · simp [Node.reference] at hb
  · rcases hb with hb | ⟨d', hb⟩
    · simp [Node.reference] at hb
    · simp only [Node.mapping.injEq, List.cons.injEq, Prod.mk.injEq, Node.sequence.injEq, and_true,
        true_and] at hb
      exact reference_injective hb.2

theorem Restores.unique {n x y : Node} (hx : Restores o R n x) (hy : Restores o R n y) : x = y := by
  induction hx generalizing y with
  | scalar s =>
    cases hy with
    | scalar => rfl
    | definition hn => cases hn.isMapping
  | @sequence xs ys hl _ ih =>
    cases hy with
    | @sequence _ zs hl' h' =>
      have he : zs = ys := Entries.eq_of_zip (hl.symm.trans hl') fun p hp => by
        obtain ⟨w, hw, hw'⟩ := Entries.exists_mem_zip_zip hl hp
        exact (ih _ hw (h' (w, p.2) hw')).symm
      rw [he]
    | definition hn => cases hn.isMapping
  | @mapping m m₁ hm hk _ ih =>
    cases hy with
    | @mapping _ m₂ _ hk' h' =>
      have he : m₂ = m₁ := Entries.eq_of_zip_values (hk.symm.trans hk') fun p hp => by
        obtain ⟨w, hw, hw'⟩ := Entries.exists_mem_zip_zip (Entries.length_eq_of_keys hk) hp
        exact (ih _ hw (h' (w, p.2) hw')).symm
      rw [he]
    | definition hn hb =>
      rw [hm _ hn] at hb
      cases hb
  | definition hn hb _ ih =>
    cases hy with
    | scalar => cases hn.isMapping
    | sequence => cases hn.isMapping
    | mapping hm =>
      rw [hm _ hn] at hb
      cases hb
    | definition hn' hb' h' =>
      rw [hn.name_unique hn', hb'] at hb
      cases hb
      exact ih h'

/-! ## A tree without such references is its own -/

/-- No text under a reference key of the tree is the reference to a definition of `R`. -/
def Unreferenced (o : Options) (R : Registry) (n : Node) : Prop :=
  ∀ name ∈ R.names, ¬n.RefersTo (o.refTo name)

theorem Restores.refl {n : Node} (hn : Unreferenced o R n) : Restores o R n n := by
  induction n using Node.induct with
  | scalar s => exact .scalar s
  | sequence xs ih =>
    refine .sequence rfl fun p hp => ?_
    rw [← Entries.eq_of_mem_zip_self hp]
    have hmem := (List.of_mem_zip hp).1
    exact ih _ hmem fun name hname h => hn name hname (h.within (.item hmem .self))
  | mapping m ih =>
    refine .mapping (fun name hs => ?_) rfl fun p hp => ?_
    · by_contra hR
      have hname := mem_names.mpr (Option.isSome_iff_ne_none.mpr hR)
      exact hn name hname ⟨_, hs.within, List.mem_cons_self⟩
    · rw [← Entries.eq_of_mem_zip_self hp]
      have hmem := (List.of_mem_zip hp).1
      exact ih _ hmem fun name hname h => hn name hname (h.within (.value hmem .self))

/-! ## Moving keeps what is restored -/

theorem Moved.scalar_iff {names : Set String} {entry : Bool} {g : ReadAs} {n n' : Node}
    (h : Moved o R names entry g n n') (s : Scalar) : n = .scalar s ↔ n' = .scalar s := by
  cases h with
  | scalar => exact Iff.rfl
  | sequence => simp
  | mapping => simp
  | minted _ _ _ _ _ hn' => rcases hn' with rfl | ⟨d, rfl⟩ <;> simp [Node.reference, documented]

theorem eq_pair_of_keys {m : Entries Node} {k₁ k₂ : String} (hk : Entries.keys m = [k₁, k₂]) :
    ∃ v w, m = [(k₁, v), (k₂, w)] := by
  cases m with
  | nil => cases hk
  | cons p m =>
    obtain ⟨rfl, hm⟩ := List.cons.inj hk
    obtain ⟨w, rfl⟩ := Entries.eq_singleton_of_keys hm
    exact ⟨p.2, w, rfl⟩

theorem Moved.reference_iff {names : Set String} {g : ReadAs} {n n' : Node}
    (h : Moved o R names false g n n') (target : String) :
    n = Node.reference target ↔ n' = Node.reference target := by
  cases h with
  | scalar => exact Iff.rfl
  | sequence => simp [Node.reference]
  | mapping hk h =>
    constructor
    · rintro he
      cases he
      obtain ⟨v, rfl⟩ := Entries.eq_singleton_of_keys hk.symm
      have hv : Moved o R names true _ (Node.string target) v := h _ List.mem_cons_self
      rw [(hv.scalar_iff _).mp rfl]
      rfl
    · rintro he
      cases he
      obtain ⟨v, rfl⟩ := Entries.eq_singleton_of_keys hk
      have hv : Moved o R names true _ v (Node.string target) := h _ List.mem_cons_self
      rw [(hv.scalar_iff _).mpr rfl]
      rfl

theorem Moved.sequence_reference_iff {names : Set String} {entry : Bool} {g : ReadAs}
    {n n' : Node} (h : Moved o R names entry g n n') (target : String) :
    n = .sequence [Node.reference target] ↔ n' = .sequence [Node.reference target] := by
  cases h with
  | scalar => exact Iff.rfl
  | sequence hl h =>
    constructor
    · rintro he
      cases he
      obtain ⟨x, rfl⟩ := List.length_eq_one_iff.mp hl.symm
      have hx : Moved o R names false _ (Node.reference target) x := h _ List.mem_cons_self
      rw [(hx.reference_iff _).mp rfl]
    · rintro he
      cases he
      obtain ⟨x, rfl⟩ := List.length_eq_one_iff.mp hl
      have hx : Moved o R names false _ x (Node.reference target) := h _ List.mem_cons_self
      rw [(hx.reference_iff _).mpr rfl]
  | mapping => simp
  | minted _ _ _ _ _ hn' => rcases hn' with rfl | ⟨d, rfl⟩ <;> simp [Node.reference, documented]

/-- No mapping comes to stand for a definition, or ceases to, when its values change. -/
theorem standsFor_iff_of_moved {names : Set String} {g : ReadAs} {m m' : Entries Node}
    (hk : Entries.keys m = Entries.keys m')
    (h : ∀ p ∈ m.zip m', Moved o R names true (g.under p.1.1) p.1.2 p.2.2) (name : String) :
    StandsFor o name (.mapping m) ↔ StandsFor o name (.mapping m') := by
  have href : Node.mapping m = Node.reference (o.refTo name) ↔
      Node.mapping m' = Node.reference (o.refTo name) :=
    Moved.reference_iff (.mapping hk h) _
  refine or_congr href ⟨?_, ?_⟩
  · rintro ⟨d, he⟩
    cases he
    obtain ⟨d', v, rfl⟩ := eq_pair_of_keys hk.symm
    have hv : Moved o R names true _ (.sequence [Node.reference (o.refTo name)]) v :=
      h _ (List.mem_cons_of_mem _ List.mem_cons_self)
    exact ⟨d', by rw [(hv.sequence_reference_iff _).mp rfl]⟩
  · rintro ⟨d, he⟩
    cases he
    obtain ⟨d', v, rfl⟩ := eq_pair_of_keys hk
    have hv : Moved o R names true _ v (.sequence [Node.reference (o.refTo name)]) :=
      h _ (List.mem_cons_of_mem _ List.mem_cons_self)
    exact ⟨d', by rw [(hv.sequence_reference_iff _).mpr rfl]⟩

theorem Restores.moved {names : Set String} {entry : Bool} {g : ReadAs} {n n' : Node}
    (h : Moved o R names entry g n n') {x : Node} (hx : Restores o R n x) : Restores o R n' x := by
  induction h generalizing x with
  | scalar s => exact hx
  | sequence hl _ ih =>
    cases hx with
    | sequence hl' h' =>
      refine .sequence (hl.symm.trans hl') fun p hp => ?_
      obtain ⟨w, hw, hw'⟩ := Entries.exists_mem_zip_zip hl hp
      exact ih _ hw (h' _ hw')
    | definition hn => cases hn.isMapping
  | mapping hk h ih =>
    cases hx with
    | mapping hm hk' h' =>
      refine .mapping (fun name hs => hm name ((standsFor_iff_of_moved hk h name).mpr hs))
        (hk.symm.trans hk') fun p hp => ?_
      obtain ⟨w, hw, hw'⟩ := Entries.exists_mem_zip_zip (Entries.length_eq_of_keys hk) hp
      exact ih _ hw (h' _ hw')
    | definition hn hb hx => exact .definition ((standsFor_iff_of_moved hk h _).mp hn) hb hx
  | minted _ _ hR _ _ hn' ih =>
    refine .definition ?_ hR (ih hx)
    exact hn'.imp_right fun ⟨d, h⟩ => ⟨Node.string d, h⟩

/-! ## The whole extraction -/

theorem Restores.run {n x : Node} {g : ReadAs} {f : Node → StateM Registry Node}
    (hf : Moving o g f) {r : Registry} (hR : Grows ((f n).run r).2 R) (hx : Restores o R n x) :
    Restores o R ((f n).run r).1 x :=
  hx.moved ((hf n r).2 R Set.univ (Set.subset_univ _) hR.keeps)

/-- From the document that an extraction leaves and the registry that it fills, the document that
it found comes back, and no other. -/
theorem restores_run_iff (o : Options) (doc doc' : Node) (R : Registry)
    (hrun : (run o doc).run .empty = (doc', R)) (hdoc : Unreferenced o R doc) :
    (∀ x, Restores o R doc' x ↔ x = doc) ∧ (R.isEmpty = true → doc' = doc) := by
  have hback : Restores o R doc' doc := by
    rw [run_run] at hrun
    have hgrows := (moving_paths (o := o) ((schemas o doc).run .empty).1
      ((schemas o doc).run .empty).2).1
    have hR : ((paths o ((schemas o doc).run .empty).1).run ((schemas o doc).run .empty).2).2 = R :=
      congrArg Prod.snd hrun
    have hdoc' : ((paths o ((schemas o doc).run .empty).1).run
        ((schemas o doc).run .empty).2).1 = doc' := congrArg Prod.fst hrun
    rw [hR] at hgrows
    rw [← hdoc']
    refine Restores.run moving_paths (hR ▸ Grows.refl _) ?_
    exact Restores.run moving_schemas hgrows (.refl hdoc)
  refine ⟨fun x => ⟨fun hx => hx.unique hback, fun hx => hx ▸ hback⟩, fun hempty => ?_⟩
  -- Without definitions the document that is left restores itself.
  have hself : Restores o R doc' doc' := .refl fun name hname => by
    rw [names_of_isEmpty hempty] at hname
    cases hname
  exact hself.unique hback

def petDocument : Node :=
  .mapping [("components", .mapping [("schemas", .mapping [("Pet", .mapping [("properties",
    .mapping [("tag", .mapping [("description", .string "a tag"),
      ("properties", .emptyMapping)])])])])])]

theorem restores_petDocument :
    let x := (run .default petDocument).run .empty
    x.2.names = ["PetTag"] ∧ ∀ y, Restores .default x.2 x.1 y ↔ y = petDocument := by
  intro x
  have hnames : x.2.names = ["PetTag"] := by decide
  have hdoc : Unreferenced .default x.2 petDocument := fun name _ => by
    simp [petDocument, Node.refersTo_mapping_iff, Node.not_refersTo_scalar, Node.refKey,
      Node.string, Node.emptyMapping]
  exact ⟨hnames, (restores_run_iff .default petDocument _ _ rfl hdoc).1⟩

end Extraction
end InlineSchema
