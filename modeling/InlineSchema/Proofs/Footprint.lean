import InlineSchema.Proofs.Path
import InlineSchema.Proofs.Settled

/-! # The footprint of a walk

Two trees are compared at each path by what stands at its end: a scalar, a sequence of some length,
or a mapping with these keys in this order. A walk changes nothing but at the objects that it moves
and inside them, and those stand in properties, items and further properties that it reaches through
other such places and through the branches of compositions.
-/
namespace InlineSchema

/-- What a node is without the values that it holds. -/
inductive Shape where
  | scalar (value : Scalar)
  | sequence (length : Nat)
  | mapping (keys : List String)
deriving DecidableEq

namespace Node

def shape : Node → Shape
  | .scalar s => .scalar s
  | .sequence xs => .sequence xs.length
  | .mapping m => .mapping (Entries.keys m)

def shapeAt (n : Node) (path : List Step) : Option Shape := (n.follow path).map shape

@[simp] theorem shapeAt_nil (n : Node) : n.shapeAt [] = some n.shape := rfl

theorem shapeAt_cons (n : Node) (step : Step) (path : List Step) :
    n.shapeAt (step :: path) = (n.child? step).bind (·.shapeAt path) := by
  simp only [shapeAt, follow, List.foldlM_cons]
  exact Option.map_bind ..

@[simp] theorem shapeAt_mapping_key (m : Entries Node) (key : String) (path : List Step) :
    (mapping m).shapeAt (.key key :: path) = (Entries.get? m key).bind (·.shapeAt path) :=
  shapeAt_cons ..

@[simp] theorem shapeAt_mapping_index (m : Entries Node) (i : Nat) (path : List Step) :
    (mapping m).shapeAt (.index i :: path) = none := shapeAt_cons ..

@[simp] theorem shapeAt_sequence_index (xs : List Node) (i : Nat) (path : List Step) :
    (sequence xs).shapeAt (.index i :: path) = xs[i]?.bind (·.shapeAt path) := shapeAt_cons ..

@[simp] theorem shapeAt_sequence_key (xs : List Node) (key : String) (path : List Step) :
    (sequence xs).shapeAt (.key key :: path) = none := shapeAt_cons ..

end Node

namespace Extraction

/-! ## Changes within some paths -/

/-- At every path outside `S` the trees have the same. -/
def ChangesWithin (S : List Step → Prop) (n n' : Node) : Prop :=
  ∀ path, ¬S path → n'.shapeAt path = n.shapeAt path

variable {S S' : List Step → Prop} {n n' n₁ : Node}

theorem ChangesWithin.refl (S : List Step → Prop) (n : Node) : ChangesWithin S n n := fun _ _ => rfl

theorem ChangesWithin.trans (h : ChangesWithin S n n₁) (h' : ChangesWithin S n₁ n') :
    ChangesWithin S n n' := fun path hpath => (h' path hpath).trans (h path hpath)

theorem ChangesWithin.mono (h : ChangesWithin S n n') (hS : ∀ path, S path → S' path) :
    ChangesWithin S' n n' := fun path hpath => h path fun hs => hpath (hS path hs)

theorem changesWithin_mapping {m m' : Entries Node} (hk : Entries.keys m' = Entries.keys m)
    (h : ∀ k v v', Entries.get? m k = some v → Entries.get? m' k = some v' →
      ChangesWithin (fun path => S (.key k :: path)) v v') :
    ChangesWithin S (.mapping m) (.mapping m') := by
  intro path hpath
  cases path with
  | nil => simp [Node.shape, hk]
  | cons step path =>
    cases step with
    | index => simp
    | key k =>
      rw [Node.shapeAt_mapping_key, Node.shapeAt_mapping_key]
      cases hv : Entries.get? m k with
      | none => rw [Entries.get?_eq_none_of_keys hk.symm hv]
      | some v =>
        obtain ⟨v', hv', -⟩ := Entries.exists_mem_zip_of_get? hk.symm hv
        rw [hv']
        exact h k v v' hv hv' path hpath

theorem changesWithin_modify {m : Entries Node} {key : String} {v v' : Node}
    (hv : Entries.get? m key = some v) (h : ChangesWithin (fun path => S (.key key :: path)) v v') :
    ChangesWithin S (.mapping m) (.mapping (Entries.modify key (fun _ => v') m)) := by
  refine changesWithin_mapping (Entries.keys_modify ..) fun k w w' hw hw' => ?_
  by_cases hk : k = key
  · subst hk
    rw [Entries.get?_modify_self, hv] at hw'
    cases hw'
    cases hv.symm.trans hw
    exact h
  · rw [Entries.get?_modify_of_ne m _ hk, hw] at hw'
    cases hw'
    exact .refl _ _

theorem changesWithin_sequence {xs xs' : List Node} (hl : xs'.length = xs.length)
    (h : ∀ i x x', xs[i]? = some x → xs'[i]? = some x' →
      ChangesWithin (fun path => S (.index i :: path)) x x') :
    ChangesWithin S (.sequence xs) (.sequence xs') := by
  intro path hpath
  cases path with
  | nil => simp [Node.shape, hl]
  | cons step path =>
    cases step with
    | key => simp
    | index i =>
      rw [Node.shapeAt_sequence_index, Node.shapeAt_sequence_index]
      by_cases hi : i < xs.length
      · have hx := List.getElem?_eq_getElem hi
        have hx' := List.getElem?_eq_getElem (hl.symm ▸ hi)
        rw [hx, hx']
        exact h i _ _ hx hx' path hpath
      · have hx := List.getElem?_eq_none (Nat.le_of_not_lt hi)
        have hx' : xs'[i]? = none := List.getElem?_eq_none (by omega)
        rw [hx, hx']

/-! ## The objects that a walk moves -/

/-- The schemas that the value of a site holds, each with the path to it. -/
inductive Site.OpensAt : Site → Node → List Step → Node → Prop
  | branch {key : String} {xs : List Node} {i : Nat} {x : Node} (h : xs[i]? = some x) :
      OpensAt (.branches key) (.sequence xs) [.index i] x
  | property {ps : Entries Node} {k : String} {v : Node} (h : Entries.get? ps k = some v) :
      OpensAt .properties (.mapping ps) [.key k] v
  | items (v : Node) : OpensAt .items v [] v
  | furtherProperties (v : Node) : OpensAt .furtherProperties v [] v

/-- The path leads to an object without a name that a walk of the schema moves, or into one. -/
inductive Footprint : Node → List Step → Prop
  | moved {s : Site} {n v x : Node} {steps : List Step} (hs : s ∈ Site.all)
      (hv : n.get? s.key = some v) (hx : s.OpensAt v steps x) (hmoves : s.moves = true)
      (hi : x.isInlineObject = true) (rest : List Step) :
      Footprint n (.key s.key :: (steps ++ rest))
  | inside {s : Site} {n v x : Node} {steps path : List Step} (hs : s ∈ Site.all)
      (hv : n.get? s.key = some v) (hx : s.OpensAt v steps x) (h : Footprint x path) :
      Footprint n (.key s.key :: (steps ++ path))

def Site.Footprint (s : Site) (v : Node) (path : List Step) : Prop :=
  ∃ steps x rest, s.OpensAt v steps x ∧ path = steps ++ rest ∧
    (s.moves = true ∧ x.isInlineObject = true ∨ Extraction.Footprint x rest)

theorem Site.Footprint.footprint {s : Site} {v : Node} {path : List Step} (h : s.Footprint v path)
    (hs : s ∈ Site.all) (hv : n.get? s.key = some v) :
    Extraction.Footprint n (.key s.key :: path) := by
  obtain ⟨steps, x, rest, hx, rfl, ⟨hmoves, hi⟩ | h⟩ := h
  · exact .moved hs hv hx hmoves hi rest
  · exact .inside hs hv hx h

def PlaceFootprint (v : Node) (path : List Step) : Prop :=
  v.isInlineObject = true ∨ Footprint v path

theorem PlaceFootprint.site {s : Site} {v x : Node} {steps path : List Step}
    (h : PlaceFootprint x path) (hx : s.OpensAt v steps x) (hmoves : s.moves = true) :
    s.Footprint v (steps ++ path) :=
  ⟨steps, x, path, hx, rfl, h.imp_left fun hi => ⟨hmoves, hi⟩⟩

def Part.Framed : Part → Prop
  | .node _ n n' => ChangesWithin (Footprint n) n n'
  | .sites _ ss m m' => (ss.map Site.key).Nodup →
      ChangesWithin (fun path => ∃ s ∈ ss, ∃ v rest, Entries.get? m s.key = some v ∧
        path = .key s.key :: rest ∧ s.Footprint v rest) (.mapping m) (.mapping m')
  | .site _ s v v' => ChangesWithin (s.Footprint v) v v'
  | .place _ v v' | .property _ v v' => ChangesWithin (PlaceFootprint v) v v'
  | .mint .. => True
  | .branches _ _ _ xs xs' => xs'.length = xs.length ∧ ∀ (i : Nat) x x',
      xs[i]? = some x → xs'[i]? = some x' → ChangesWithin (Footprint x) x x'
  | .properties _ ps ps' => Entries.keys ps' = Entries.keys ps ∧ ∀ k v v',
      Entries.get? ps k = some v → Entries.get? ps' k = some v' →
        ChangesWithin (PlaceFootprint v) v v'

variable {o : Options}

theorem Walked.framed {part : Part} {r r' : Registry} (h : Walked o part r r') : part.Framed := by
  induction h with
  | leaf | noBranches | noProperties => exact .refl _ _
  | done => exact fun _ => .refl _ _
  | mapping _ ih =>
    refine (ih Site.nodup_keys).mono ?_
    rintro _ ⟨s, hs, v, rest, hv, rfl, h⟩
    exact h.footprint hs hv
  | absent _ _ ih =>
    intro hnodup
    refine (ih (List.nodup_cons.mp hnodup).2).mono ?_
    rintro _ ⟨s, hs, h⟩
    exact ⟨s, List.mem_cons_of_mem _ hs, h⟩
  | @present base s ss m m' v v' r r₁ r' hv _ _ ihv ih =>
    intro hnodup
    obtain ⟨hnot, hnodup⟩ := List.nodup_cons.mp hnodup
    refine .trans (changesWithin_modify hv (ihv.mono ?_)) ((ih hnodup).mono ?_)
    · exact fun rest h => ⟨s, List.mem_cons_self, v, rest, hv, rfl, h⟩
    · rintro _ ⟨t, ht, w, rest, hw, rfl, h⟩
      have hne : t.key ≠ s.key := fun he => hnot (he ▸ List.mem_map_of_mem ht)
      rw [Entries.get?_modify_of_ne _ _ hne] at hw
      exact ⟨t, List.mem_cons_of_mem _ ht, w, rest, hw, rfl, h⟩
  | branches _ ih =>
    obtain ⟨hl, h⟩ := ih
    refine changesWithin_sequence hl fun i x x' hx hx' => (h i x x' hx hx').mono ?_
    intro path hpath
    exact ⟨[.index i], x, path, .branch hx, rfl, .inr hpath⟩
  | properties _ ih =>
    obtain ⟨hk, h⟩ := ih
    refine changesWithin_mapping hk fun k v v' hv hv' => (h k v v' hv hv').mono ?_
    intro path hpath
    exact hpath.site (.property hv) rfl
  | items _ ih => exact ih.mono fun path hpath => hpath.site (.items _) rfl
  | furtherProperties _ ih => exact ih.mono fun path hpath => hpath.site (.furtherProperties _) rfl
  | hoisted hi | object hi => exact fun path hpath => absurd (.inl hi) hpath
  | kept _ _ ih | other _ _ _ ih => exact ih.mono fun _ => .inr
  | mint => trivial
  | lastBranch => exact ⟨rfl, nofun⟩
  | branch _ _ ihx ih =>
    obtain ⟨hl, h⟩ := ih
    refine ⟨congrArg (· + 1) hl, fun i x x' hx hx' => ?_⟩
    cases i with
    | zero => cases hx; cases hx'; exact ihx
    | succ i => exact h i x x' hx hx'
  | lastProperty => exact ⟨rfl, nofun⟩
  | property _ _ ihv ih =>
    obtain ⟨hk, h⟩ := ih
    refine ⟨congrArg (List.cons _) hk, fun k v v' hv hv' => ?_⟩
    rw [Entries.get?_cons] at hv hv'
    split at hv
    next he => rw [if_pos he] at hv'; cases hv; cases hv'; exact ihv
    next he => rw [if_neg he] at hv'; exact h k v v' hv hv'
  | @array base name m x r r' _ ha hx _ _ =>
    obtain ⟨x', hx', hi⟩ := Node.items_of_isInlineObjectArray ha
    cases hx.symm.trans hx'
    refine changesWithin_modify hx fun path hpath => absurd ?_ hpath
    have hsite : (Node.mapping m).get? Site.items.key = some x := hx
    exact .inr (.moved (s := .items) (by decide) hsite (.items x) rfl hi path)

end Extraction
end InlineSchema
