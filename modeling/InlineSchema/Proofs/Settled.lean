import InlineSchema.Proofs.Moved

/-! # Schemas with nothing to move

A schema is settled if no object without a name stands in it where a walk would move it from. A walk
takes no new name exactly if what it finds is settled.
-/
namespace InlineSchema.Extraction
open Registry

variable {o : Options}

def Site.moves : Site → Bool
  | .branches _ => false
  | _ => true

/-- The schemas that the value of a site holds. -/
inductive Site.Opens : Site → Node → Node → Prop
  | branch {key : String} {xs : List Node} {x : Node} (h : x ∈ xs) :
      Opens (.branches key) (.sequence xs) x
  | property {ps : Entries Node} {p : String × Node} (h : p ∈ ps) :
      Opens .properties (.mapping ps) p.2
  | items (v : Node) : Opens .items v v
  | furtherProperties (v : Node) : Opens .furtherProperties v v

def Site.Holds (s : Site) (n x : Node) : Prop :=
  s ∈ Site.all ∧ ∃ v, n.get? s.key = some v ∧ s.Opens v x

/-- No site in the schema, at whatever depth, holds an object that would be moved from there. -/
inductive Settled : Node → Prop
  | intro {n : Node}
      (kept : ∀ (s : Site) x, s.Holds n x → s.moves = true → x.isInlineObject = false)
      (inside : ∀ (s : Site) x, s.Holds n x → Settled x) : Settled n

def Site.Settled (s : Site) (v : Node) : Prop :=
  ∀ x, s.Opens v x → (s.moves = true → x.isInlineObject = false) ∧ Extraction.Settled x

theorem settled_iff {n : Node} :
    Settled n ↔ ∀ s ∈ Site.all, ∀ v, n.get? s.key = some v → s.Settled v := by
  constructor
  · intro h s hs v hv x hx
    have hholds : s.Holds n x := ⟨hs, v, hv, hx⟩
    cases h with
    | intro kept inside => exact ⟨kept s x hholds, inside s x hholds⟩
  · intro h
    constructor
    · intro s x hx
      obtain ⟨hs, v, hv, hx⟩ := hx
      exact (h s hs v hv x hx).1
    · intro s x hx
      obtain ⟨hs, v, hv, hx⟩ := hx
      exact (h s hs v hv x hx).2

/-- A settled array of objects does not exist: its items are such an object. -/
theorem Settled.isInlineObjectArray {n : Node} (h : Settled n) : n.isInlineObjectArray = false := by
  cases ha : n.isInlineObjectArray with
  | false => rfl
  | true =>
    cases n with
    | scalar | sequence => cases ha
    | mapping m =>
      obtain ⟨x, hx, hi⟩ := Node.items_of_isInlineObjectArray ha
      have hsite := settled_iff.mp h .items (by decide) x hx x (.items x)
      rw [hsite.1 rfl] at hi
      cases hi

/-! ## References have nothing to move -/

theorem settled_of_get?_eq_none {n : Node} (h : ∀ s ∈ Site.all, n.get? s.key = none) :
    Settled n := by
  rw [settled_iff]
  intro s hs v hv
  rw [h s hs] at hv
  cases hv

theorem settled_of_not_isMapping {n : Node} (h : n.isMapping = false) : Settled n := by
  refine settled_of_get?_eq_none fun s _ => ?_
  cases n with
  | scalar | sequence => rfl
  | mapping => cases h

theorem settled_reference (target : String) : Settled (Node.reference target) :=
  settled_of_get?_eq_none (by simp [Site.all, Node.compositionKeys, Site.key, Node.reference,
    Node.get?_mapping, Entries.get?_cons, Node.refKey])

theorem forall_site {P : Site → Prop} :
    (∀ s ∈ Site.all, P s) ↔ P (.branches "allOf") ∧ P (.branches "anyOf") ∧ P (.branches "oneOf") ∧
      P .properties ∧ P .items ∧ P .furtherProperties := by
  simp [Site.all, Node.compositionKeys]

theorem settled_documented (d target : String) :
    Settled (documented d (Node.reference target)) := by
  refine settled_iff.mpr (forall_site.mpr ⟨?_, nofun, nofun, nofun, nofun, nofun⟩)
  intro v hv x hx
  cases hv
  cases hx with
  | branch h =>
    rw [List.mem_singleton.mp h]
    exact ⟨nofun, settled_reference target⟩

/-- What takes the place of an object is no object, and settled. -/
theorem settled_keepDescription (v : Node) (target : String) :
    (keepDescription v (Node.reference target)).isInlineObject = false ∧
      Settled (keepDescription v (Node.reference target)) := by
  rw [keepDescription]
  split
  · exact ⟨rfl, settled_documented _ target⟩
  · exact ⟨rfl, settled_reference target⟩

/-! ## The kind of a schema stays -/

/-- The trees have the same keys, and agree on every key that is none of these sites. -/
structure AgreeOutside (ss : List Site) (n n' : Node) : Prop where
  isMapping : n'.isMapping = n.isMapping
  present : ∀ key, (n'.get? key).isSome = (n.get? key).isSome
  other : ∀ key, key ∉ ss.map Site.key → n'.get? key = n.get? key

theorem AgreeOutside.refl (ss : List Site) (n : Node) : AgreeOutside ss n n :=
  ⟨rfl, fun _ => rfl, fun _ _ => rfl⟩

theorem agreeOutside_modify (s : Site) (m : Entries Node) (v : Node) :
    AgreeOutside [s] (.mapping m) (.mapping (Entries.modify s.key (fun _ => v) m)) where
  isMapping := rfl
  present key := by
    rw [Node.get?_mapping, Node.get?_mapping]
    by_cases hk : key = s.key
    · rw [hk, Entries.get?_modify_self, Option.isSome_map]
    · rw [Entries.get?_modify_of_ne _ _ hk]
  other key hkey := by
    have hne : key ≠ s.key := fun he => hkey (he ▸ List.mem_singleton_self _)
    exact Entries.get?_modify_of_ne m _ hne

theorem AgreeOutside.mono {ss ss' : List Site} {n n' : Node} (h : AgreeOutside ss n n')
    (hss : ss ⊆ ss') : AgreeOutside ss' n n' where
  isMapping := h.isMapping
  present := h.present
  other key hkey := h.other key fun hmem => hkey (List.map_subset _ hss hmem)

theorem AgreeOutside.trans {ss : List Site} {a b c : Node} (h : AgreeOutside ss a b)
    (h' : AgreeOutside ss b c) : AgreeOutside ss a c where
  isMapping := h'.isMapping.trans h.isMapping
  present key := (h'.present key).trans (h.present key)
  other key hkey := (h'.other key hkey).trans (h.other key hkey)

theorem AgreeOutside.isReference {ss : List Site} {n n' : Node} (h : AgreeOutside ss n n') :
    n'.isReference = n.isReference := h.present Node.refKey

theorem AgreeOutside.isInlineObject {n n' : Node} (h : AgreeOutside Site.all n n') :
    n'.isInlineObject = n.isInlineObject := by
  rw [Node.isInlineObject, Node.isInlineObject, h.isMapping, h.isReference, h.present,
    h.other "type" (by decide)]

theorem AgreeOutside.isComposition {ss : List Site} {n n' : Node} (h : AgreeOutside ss n n') :
    n'.isComposition = n.isComposition := by
  simp only [Node.isComposition, h.isMapping, h.isReference, h.present]

def Part.AgreeOutside : Part → Prop
  | .node _ n n' => Extraction.AgreeOutside Site.all n n'
  | .sites _ ss m m' => Extraction.AgreeOutside ss (.mapping m) (.mapping m')
  | _ => True

theorem Walked.agreeOutside {part : Part} {r r' : Registry} (h : Walked o part r r') :
    part.AgreeOutside := by
  induction h with
  | leaf | done => exact .refl _ _
  | mapping _ ih => exact ih
  | absent _ _ ih => exact ih.mono (List.subset_cons_self _ _)
  | @present _ s ss m _ _ v' _ _ _ _ _ _ _ ih =>
    have hsub : [s] ⊆ s :: ss := by simp
    have hhead := (agreeOutside_modify s m v').mono hsub
    exact hhead.trans (ih.mono (List.subset_cons_self _ _))
  | _ => trivial

/-! ## A walk moves nothing where there is nothing to move -/

def Part.Settled : Part → Prop
  | .node _ n _ => Extraction.Settled n
  | .sites _ ss m _ => ∀ s ∈ ss, ∀ v, Entries.get? m s.key = some v → s.Settled v
  | .site _ s v _ => s.Settled v
  | .place _ v _ | .property _ v _ => v.isInlineObject = false ∧ Extraction.Settled v
  | .mint .. => False
  | .branches _ _ _ xs _ => ∀ x ∈ xs, Extraction.Settled x
  | .properties _ ps _ => ∀ p ∈ ps, p.2.isInlineObject = false ∧ Extraction.Settled p.2

def Part.Once : Part → Prop
  | .sites _ ss _ _ => (ss.map Site.key).Nodup
  | _ => True

theorem fresh_trans_eq_empty {r r₁ r' : Registry} (h : Grows r r₁) (h' : Grows r₁ r') :
    fresh r r' = ∅ ↔ fresh r r₁ = ∅ ∧ fresh r₁ r' = ∅ := by
  constructor
  · intro he
    exact ⟨Set.subset_eq_empty (fresh_left h') he, Set.subset_eq_empty (fresh_right h) he⟩
  · rintro ⟨hl, hr⟩
    refine Set.eq_empty_iff_forall_notMem.mpr fun name hn => ?_
    rcases mem_fresh_trans hn with hn | hn
    · exact Set.eq_empty_iff_forall_notMem.mp hl name hn
    · exact Set.eq_empty_iff_forall_notMem.mp hr name hn

theorem site_settled_branches {key : String} {xs : List Node} :
    (Site.branches key).Settled (.sequence xs) ↔ ∀ x ∈ xs, Settled x := by
  constructor
  · exact fun h x hx => (h x (.branch hx)).2
  · intro h x hx
    cases hx with
    | branch hx => exact ⟨nofun, h x hx⟩

theorem site_settled_properties {ps : Entries Node} :
    Site.properties.Settled (.mapping ps) ↔
      ∀ p ∈ ps, p.2.isInlineObject = false ∧ Settled p.2 := by
  constructor
  · intro h p hp
    obtain ⟨hi, hs⟩ := h p.2 (.property hp)
    exact ⟨hi rfl, hs⟩
  · intro h x hx
    cases hx with
    | property hp => exact ⟨fun _ => (h _ hp).1, (h _ hp).2⟩

theorem site_settled_items {v : Node} :
    Site.items.Settled v ↔ v.isInlineObject = false ∧ Settled v := by
  constructor
  · intro h
    exact ⟨(h v (.items v)).1 rfl, (h v (.items v)).2⟩
  · intro h x hx
    cases hx
    exact ⟨fun _ => h.1, h.2⟩

theorem site_settled_furtherProperties {v : Node} :
    Site.furtherProperties.Settled v ↔ v.isInlineObject = false ∧ Settled v := by
  constructor
  · intro h
    exact ⟨(h v (.furtherProperties v)).1 rfl, (h v (.furtherProperties v)).2⟩
  · intro h x hx
    cases hx
    exact ⟨fun _ => h.1, h.2⟩

theorem sites_settled_cons {s : Site} {ss : List Site} {m m' : Entries Node} {base : String} :
    (Part.sites base (s :: ss) m m').Settled ↔
      (∀ v, Entries.get? m s.key = some v → s.Settled v) ∧ (Part.sites base ss m m').Settled :=
  List.forall_mem_cons

theorem sites_settled_modify {s : Site} {ss : List Site} {m m' : Entries Node} {base : String}
    {v : Node} (hs : s.key ∉ ss.map Site.key) :
    (Part.sites base ss (Entries.modify s.key (fun _ => v) m) m').Settled ↔
      (Part.sites base ss m m').Settled := by
  have hget : ∀ t ∈ ss, Entries.get? (Entries.modify s.key (fun _ => v) m) t.key =
      Entries.get? m t.key := by
    intro t ht
    have hne : t.key ≠ s.key := fun he => hs (he ▸ List.mem_map_of_mem ht)
    exact Entries.get?_modify_of_ne m _ hne
  constructor
  · intro h t ht w hw
    exact h t ht w ((hget t ht).trans hw)
  · intro h t ht w hw
    exact h t ht w ((hget t ht).symm.trans hw)

/-- A walk takes no name exactly if what it finds is settled. -/
theorem Walked.fresh_eq_empty_iff {part : Part} {r r' : Registry} (h : Walked o part r r') :
    part.Once → (fresh r r' = ∅ ↔ part.Settled) := by
  induction h with
  | leaf hn => exact fun _ => iff_of_true (fresh_refl _) (settled_of_not_isMapping hn)
  | @mapping _ m _ _ _ _ ih =>
    exact fun _ => (ih Site.nodup_keys).trans (settled_iff (n := .mapping m)).symm
  | done => exact fun _ => iff_of_true (fresh_refl _) nofun
  | absent hs _ ih =>
    intro honce
    rw [ih (List.nodup_cons.mp honce).2, sites_settled_cons]
    refine (and_iff_right fun v hv => ?_).symm
    rw [hs] at hv
    cases hv
  | present hs hw hws ihv ih =>
    intro honce
    obtain ⟨hnot, honce⟩ := List.nodup_cons.mp honce
    rw [fresh_trans_eq_empty hw.grows hws.grows, ihv trivial, ih honce, sites_settled_modify hnot,
      sites_settled_cons]
    refine and_congr_left fun _ => ?_
    constructor
    · intro hsettled v hv
      rw [hs] at hv
      cases hv
      exact hsettled
    · exact fun hsettled => hsettled _ hs
  | branches _ ih => exact fun _ => (ih trivial).trans site_settled_branches.symm
  | noBranches hv =>
    refine fun _ => iff_of_true (fresh_refl _) fun x hx => ?_
    cases hx
    exact absurd rfl (hv _)
  | properties _ ih => exact fun _ => (ih trivial).trans site_settled_properties.symm
  | noProperties hv =>
    refine fun _ => iff_of_true (fresh_refl _) fun x hx => ?_
    cases hx
    exact absurd rfl (hv _)
  | items _ ih => exact fun _ => (ih trivial).trans site_settled_items.symm
  | furtherProperties _ ih => exact fun _ => (ih trivial).trans site_settled_furtherProperties.symm
  | hoisted hi _ ih | object hi _ ih =>
    intro _
    rw [ih trivial]
    refine iff_of_false id fun hsettled => ?_
    have hkept := hsettled.1
    rw [hi] at hkept
    cases hkept
  | kept hi _ ih | other hi _ _ ih => exact fun _ => (ih trivial).trans (and_iff_right hi).symm
  | mint _ _ =>
    refine fun _ => iff_of_false (fun he => ?_) id
    exact Set.eq_empty_iff_forall_notMem.mp he _ (mem_fresh_mint _)
  | lastBranch | lastProperty => exact fun _ => iff_of_true (fresh_refl _) nofun
  | branch hx hxs ihx ih | property hx hxs ihx ih =>
    intro _
    rw [fresh_trans_eq_empty hx.grows hxs.grows, ihx trivial, ih trivial]
    simp only [Part.Settled, List.forall_mem_cons]
  | array _ ha _ _ ih =>
    intro _
    rw [ih trivial]
    refine iff_of_false id fun hsettled => ?_
    rw [hsettled.2.isInlineObjectArray] at ha
    cases ha

end InlineSchema.Extraction
