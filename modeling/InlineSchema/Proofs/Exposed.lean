import InlineSchema.Proofs.Settled

/-! # What a walk leaves to a second one

Of a property that is an array of objects a walk sees the items alone. Everywhere else it leaves
settled schemas, in the tree and in the registry.
-/
namespace InlineSchema.Extraction
open Registry

variable {o : Options}

def SettledBesideItems (a : Node) : Prop :=
  ∀ s ∈ Site.all, s ≠ .items → ∀ v, a.get? s.key = some v → s.Settled v

/-- Wherever a property is an array of objects, a walk of its items sees all that is to be moved. -/
inductive Exposed : Node → Prop
  | intro {n : Node}
      (arrays : ∀ a, Site.properties.Holds n a → a.isInlineObject = false →
        a.isInlineObjectArray = true → SettledBesideItems a)
      (inside : ∀ (s : Site) x, s.Holds n x → Exposed x) : Exposed n

/-- The same of the value of a property. -/
def ExposedProperty (a : Node) : Prop :=
  (a.isInlineObject = false → a.isInlineObjectArray = true → SettledBesideItems a) ∧ Exposed a

def Site.Exposed (s : Site) (v : Node) : Prop :=
  ∀ x, s.Opens v x → if s = .properties then ExposedProperty x else Extraction.Exposed x

theorem exposed_iff {n : Node} :
    Exposed n ↔ ∀ s ∈ Site.all, ∀ v, n.get? s.key = some v → s.Exposed v := by
  constructor
  · intro h s hs v hv x hx
    have hholds : s.Holds n x := ⟨hs, v, hv, hx⟩
    cases h with
    | intro arrays inside =>
      split
      next he =>
        subst he
        exact ⟨arrays x hholds, inside _ x hholds⟩
      next => exact inside s x hholds
  · intro h
    constructor
    · intro a ha
      obtain ⟨hs, v, hv, ha⟩ := ha
      have hproperty := h _ hs v hv a ha
      rw [if_pos rfl] at hproperty
      exact hproperty.1
    · intro s x hx
      obtain ⟨hs, v, hv, hx⟩ := hx
      have hsite := h s hs v hv x hx
      split at hsite
      next => exact hsite.2
      next => exact hsite

theorem Settled.exposed {n : Node} (h : Settled n) : Exposed n := by
  induction h with
  | intro kept inside ih =>
    constructor
    · intro a ha hi harray
      have hsettled := inside _ a ha
      rw [hsettled.isInlineObjectArray] at harray
      cases harray
    · exact ih

theorem Site.Settled.exposed {s : Site} {v : Node} (h : s.Settled v) : s.Exposed v := by
  intro x hx
  obtain ⟨-, hsettled⟩ := h x hx
  split
  next =>
    refine ⟨fun _ harray => ?_, hsettled.exposed⟩
    rw [hsettled.isInlineObjectArray] at harray
    cases harray
  next => exact hsettled.exposed

/-! ## The bodies in the registry -/

def SettledBodies (r : Registry) : Prop := ∀ name body, r.get? name = some body → Settled body

theorem settledBodies_empty : SettledBodies .empty := by
  intro name body h
  cases h

theorem settledBodies_reserve (r : Registry) (base : String) :
    SettledBodies (r.reserve base).2 ↔ SettledBodies r := by
  constructor
  · exact fun h name body hb => h name body (grows_reserve r base name body hb)
  · intro h name body hb
    rw [get?_reserve] at hb
    split at hb
    next =>
      cases hb
      exact settled_of_get?_eq_none fun _ _ => rfl
    next => exact h name body hb

/-- The body that is stored takes the place of the empty one, which is settled. -/
theorem settledBodies_define {r r' : Registry} {base : String}
    (h : Grows (r.reserve base).2 r') (body : Node) :
    SettledBodies (r'.define (r.reserve base).1 body) ↔ SettledBodies r' ∧ Settled body := by
  have hempty : r'.get? (r.reserve base).1 = some Node.emptyMapping := by
    apply h
    rw [get?_reserve, if_pos rfl]
  constructor
  · intro hs
    constructor
    · intro name b hb
      by_cases hname : name = (r.reserve base).1
      · rw [hname, hempty] at hb
        cases hb
        exact settled_of_get?_eq_none fun _ _ => rfl
      · refine hs name b ?_
        rw [get?_define, if_neg hname]
        exact hb
    · refine hs (r.reserve base).1 body ?_
      rw [get?_define, if_pos rfl]
  · rintro ⟨hs, hbody⟩ name b hb
    rw [get?_define] at hb
    split at hb
    next =>
      cases hb
      exact hbody
    next => exact hs name b hb

def Part.Exposed : Part → Prop
  | .node _ n _ => Extraction.Exposed n
  | .sites _ ss m _ => ∀ s ∈ ss, ∀ v, Entries.get? m s.key = some v → s.Exposed v
  | .site _ s v _ => s.Exposed v
  | .place _ v _ | .mint _ v _ => Extraction.Exposed v
  | .branches _ _ _ xs _ => ∀ x ∈ xs, Extraction.Exposed x
  | .properties _ ps _ => ∀ p ∈ ps, ExposedProperty p.2
  | .property _ v _ => ExposedProperty v

def Part.Left : Part → Prop
  | .node _ _ n' => Extraction.Settled n'
  | .sites _ ss _ m' => ∀ s ∈ ss, ∀ v, Entries.get? m' s.key = some v → s.Settled v
  | .site _ s _ v' => s.Settled v'
  | .place _ _ v' | .property _ _ v' => v'.isInlineObject = false ∧ Extraction.Settled v'
  | .mint .. => True
  | .branches _ _ _ _ xs' => ∀ x ∈ xs', Extraction.Settled x
  | .properties _ _ ps' => ∀ p ∈ ps', p.2.isInlineObject = false ∧ Extraction.Settled p.2

theorem site_exposed_branches {key : String} {xs : List Node} :
    (Site.branches key).Exposed (.sequence xs) ↔ ∀ x ∈ xs, Exposed x := by
  constructor
  · exact fun h x hx => h x (.branch hx)
  · intro h x hx
    cases hx with
    | branch hx => exact h x hx

theorem site_exposed_properties {ps : Entries Node} :
    Site.properties.Exposed (.mapping ps) ↔ ∀ p ∈ ps, ExposedProperty p.2 := by
  constructor
  · exact fun h p hp => h p.2 (.property hp)
  · intro h x hx
    cases hx with
    | property hp => exact h _ hp

/-- A node with properties alone is exposed if these are. -/
theorem exposed_properties {ps : Entries Node} (h : ∀ p ∈ ps, ExposedProperty p.2) :
    Exposed (.mapping [("properties", .mapping ps)]) := by
  refine exposed_iff.mpr fun s hs v hv => ?_
  by_cases he : s = .properties
  · subst he
    cases hv
    exact site_exposed_properties.mpr h
  · have hkey : s.key ≠ "properties" := by
      revert s
      simp [Site.all, Node.compositionKeys, Site.key]
    simp [Node.get?_mapping, Entries.get?_cons, hkey] at hv

theorem site_exposed_items {v : Node} : Site.items.Exposed v ↔ Exposed v := by
  constructor
  · exact fun h => h v (.items v)
  · intro h x hx
    cases hx
    exact h

theorem site_exposed_furtherProperties {v : Node} :
    Site.furtherProperties.Exposed v ↔ Exposed v := by
  constructor
  · exact fun h => h v (.furtherProperties v)
  · intro h x hx
    cases hx
    exact h

/-- An array of objects is exposed if its items are and there is nothing to move beside them. -/
theorem settledBesideItems_of_none {a : Node}
    (h : ∀ s ∈ Site.all, s ≠ .items → a.get? s.key = none) : SettledBesideItems a := by
  intro s hs hne v hv
  rw [h s hs hne] at hv
  cases hv

theorem exposedProperty_array {m : Entries Node} {x : Node}
    (hi : (Node.mapping m).isInlineObject = false)
    (ha : (Node.mapping m).isInlineObjectArray = true) (hx : Entries.get? m "items" = some x) :
    ExposedProperty (.mapping m) ↔ SettledBesideItems (.mapping m) ∧ Exposed x := by
  constructor
  · rintro ⟨hbeside, hexposed⟩
    exact ⟨hbeside hi ha, exposed_iff.mp hexposed .items (by decide) x hx x (.items x)⟩
  · rintro ⟨hbeside, hexposed⟩
    refine ⟨fun _ _ => hbeside, exposed_iff.mpr fun s hs v hv => ?_⟩
    by_cases he : s = .items
    · subst he
      obtain rfl := Option.some.inj (hx.symm.trans hv)
      exact site_exposed_items.mpr hexposed
    · exact (hbeside s hs he v hv).exposed

/-- With a reference for its items the array itself is as settled as it was beside them. -/
theorem settled_modify_items {m : Entries Node} {x : Node} (hx : Entries.get? m "items" = some x)
    (target : String) :
    Settled (.mapping (Entries.modify "items" (fun _ => Node.reference target) m)) ↔
      SettledBesideItems (.mapping m) := by
  have hother : ∀ s ∈ Site.all, s ≠ .items → s.key ≠ "items" := by decide
  rw [settled_iff]
  constructor
  · intro h s hs he v hv
    refine h s hs v ?_
    rw [Node.get?_mapping, Entries.get?_modify_of_ne _ _ (hother s hs he)]
    exact hv
  · intro h s hs v hv
    rw [Node.get?_mapping] at hv
    by_cases he : s = .items
    · subst he
      have hv' := hv
      rw [Site.key, Entries.get?_modify_self, hx] at hv'
      cases hv'
      exact site_settled_items.mpr ⟨rfl, settled_reference target⟩
    · rw [Entries.get?_modify_of_ne _ _ (hother s hs he)] at hv
      exact h s hs he v hv

/-- Two parts of a walk, one after the other. -/
theorem settledBodies_trans {r r₁ r' : Registry} {left₁ left₂ found₁ found₂ : Prop}
    (h₁ : SettledBodies r₁ ∧ left₁ ↔ SettledBodies r ∧ found₁)
    (h₂ : SettledBodies r' ∧ left₂ ↔ SettledBodies r₁ ∧ found₂) :
    SettledBodies r' ∧ left₁ ∧ left₂ ↔ SettledBodies r ∧ found₁ ∧ found₂ :=
  calc SettledBodies r' ∧ left₁ ∧ left₂
      ↔ left₁ ∧ SettledBodies r' ∧ left₂ := and_left_comm
    _ ↔ left₁ ∧ SettledBodies r₁ ∧ found₂ := and_congr_right fun _ => h₂
    _ ↔ (SettledBodies r₁ ∧ left₁) ∧ found₂ := by rw [and_left_comm, and_assoc]
    _ ↔ (SettledBodies r ∧ found₁) ∧ found₂ := and_congr_left fun _ => h₁
    _ ↔ SettledBodies r ∧ found₁ ∧ found₂ := and_assoc

/-- After a walk all is settled, in the tree and in the registry, exactly if it was in the registry
before and what the walk found hides nothing from it. -/
theorem Walked.settled_iff {part : Part} {r r' : Registry} (h : Walked o part r r') :
    part.Once → (SettledBodies r' ∧ part.Left ↔ SettledBodies r ∧ part.Exposed) := by
  induction h with
  | leaf hn =>
    intro _
    have hsettled := settled_of_not_isMapping hn
    exact and_congr_right fun _ => iff_of_true hsettled hsettled.exposed
  | @mapping _ m m' _ _ _ ih =>
    intro _
    have hiff := ih Site.nodup_keys
    have hleft := Extraction.settled_iff (n := .mapping m')
    have hexposed := exposed_iff (n := .mapping m)
    exact (and_congr_right fun _ => hleft).trans (hiff.trans (and_congr_right fun _ => hexposed.symm))
  | done => exact fun _ => and_congr_right fun _ => iff_of_true nofun nofun
  | @absent _ s _ m m' _ _ hs hw ih =>
    intro honce
    obtain ⟨hnot, honce⟩ := List.nodup_cons.mp honce
    have hs' : Entries.get? m' s.key = none := (hw.agreeOutside.other s.key hnot).trans hs
    simp only [Part.Left, Part.Exposed, List.forall_mem_cons, hs, hs', reduceCtorEq,
      IsEmpty.forall_iff, implies_true, true_and]
    exact ih honce
  | @present base s ss m m' v v' r r₁ r' hs hv hw ihv ih =>
    intro honce
    obtain ⟨hnot, honce⟩ := List.nodup_cons.mp honce
    have hs' : Entries.get? m' s.key = some v' := by
      have hlast := hw.agreeOutside.other s.key hnot
      rw [Node.get?_mapping, Node.get?_mapping, Entries.get?_modify_self, hs] at hlast
      exact hlast
    have hrest : (Part.sites base ss (Entries.modify s.key (fun _ => v') m) m').Exposed ↔
        (Part.sites base ss m m').Exposed := by
      refine forall₂_congr fun t ht => ?_
      have hne : t.key ≠ s.key := fun he => hnot (he ▸ List.mem_map_of_mem ht)
      rw [Entries.get?_modify_of_ne m _ hne]
    have htail := ih honce
    rw [hrest] at htail
    have hleft : (Part.sites base (s :: ss) m m').Left ↔
        s.Settled v' ∧ (Part.sites base ss m m').Left := by
      simp only [Part.Left, List.forall_mem_cons, hs', Option.some.injEq, forall_eq']
    have hexposed : (Part.sites base (s :: ss) m m').Exposed ↔
        s.Exposed v ∧ (Part.sites base ss m m').Exposed := by
      simp only [Part.Exposed, List.forall_mem_cons, hs, Option.some.injEq, forall_eq']
    rw [hleft, hexposed]
    exact settledBodies_trans (ihv trivial) htail
  | @branches _ key xs xs' _ _ _ ih =>
    intro _
    have hleft := @site_settled_branches key xs'
    have hexposed := @site_exposed_branches key xs
    exact (and_congr_right fun _ => hleft).trans
      ((ih trivial).trans (and_congr_right fun _ => hexposed.symm))
  | noBranches hv =>
    refine fun _ => and_congr_right fun _ => iff_of_true ?_ ?_ <;>
    · intro x hx
      cases hx
      exact absurd rfl (hv _)
  | @properties _ ps ps' _ _ _ ih =>
    intro _
    have hleft := @site_settled_properties ps'
    have hexposed := @site_exposed_properties ps
    exact (and_congr_right fun _ => hleft).trans
      ((ih trivial).trans (and_congr_right fun _ => hexposed.symm))
  | noProperties hv =>
    refine fun _ => and_congr_right fun _ => iff_of_true ?_ ?_ <;>
    · intro x hx
      cases hx
      exact absurd rfl (hv _)
  | @items _ v v' _ _ _ ih =>
    intro _
    exact (and_congr_right fun _ => site_settled_items).trans
      ((ih trivial).trans (and_congr_right fun _ => site_exposed_items.symm))
  | furtherProperties _ ih =>
    intro _
    exact (and_congr_right fun _ => site_settled_furtherProperties).trans
      ((ih trivial).trans (and_congr_right fun _ => site_exposed_furtherProperties.symm))
  | @hoisted _ name _ _ _ _ _ ih =>
    intro _
    have hleft := settled_reference (o.refTo name)
    exact (and_congr_right fun _ => iff_of_true ⟨rfl, hleft⟩ trivial).trans (ih trivial)
  | kept hi hw ih =>
    intro _
    have hi' := hw.agreeOutside.isInlineObject.trans hi
    exact (and_congr_right fun _ => and_iff_right hi').trans (ih trivial)
  | @mint base v body r r' hw ih =>
    intro _
    have hbody := settledBodies_define hw.grows body
    have hreserve := settledBodies_reserve r base
    calc SettledBodies (r'.define (r.reserve base).1 body) ∧ True
        ↔ SettledBodies r' ∧ Settled body := (and_iff_left trivial).trans hbody
      _ ↔ SettledBodies (r.reserve base).2 ∧ Exposed v := ih trivial
      _ ↔ SettledBodies r ∧ Exposed v := and_congr_left fun _ => hreserve
  | lastBranch | lastProperty => exact fun _ => and_congr_right fun _ => iff_of_true nofun nofun
  | branch _ _ ihx ih | property _ _ ihx ih =>
    intro _
    simp only [Part.Left, Part.Exposed, List.forall_mem_cons]
    exact settledBodies_trans (ihx trivial) (ih trivial)
  | @object base name v r r' hi _ ih =>
    intro _
    have hleft := settled_keepDescription v (o.refTo name)
    have hexposed : ExposedProperty v ↔ Exposed v := by
      refine and_iff_right fun hn => ?_
      rw [hi] at hn
      cases hn
    exact (and_congr_right fun _ => iff_of_true hleft trivial).trans
      ((ih trivial).trans (and_congr_right fun _ => hexposed.symm))
  | @array base name m x r r' hi ha hx _ ih =>
    intro _
    have hitems : [Site.items] ⊆ Site.all := by decide
    have hagree := (agreeOutside_modify .items m (Node.reference (o.refTo name))).mono hitems
    have hi' := hagree.isInlineObject.trans hi
    have hleft := settled_modify_items hx (o.refTo name)
    have hexposed := exposedProperty_array hi ha hx
    calc SettledBodies r' ∧ _ ∧ Settled _
        ↔ SettledBodies r' ∧ SettledBesideItems (.mapping m) :=
          and_congr_right fun _ => (and_iff_right hi').trans hleft
      _ ↔ (SettledBodies r' ∧ True) ∧ SettledBesideItems (.mapping m) := by rw [and_true]
      _ ↔ (SettledBodies r ∧ Exposed x) ∧ SettledBesideItems (.mapping m) :=
          and_congr_left fun _ => ih trivial
      _ ↔ SettledBodies r ∧ ExposedProperty (.mapping m) := by
        rw [hexposed, and_assoc, and_comm (a := Exposed x)]
  | @other _ v _ _ _ hi ha hw ih =>
    intro _
    have hi' := hw.agreeOutside.isInlineObject.trans hi
    have hexposed : ExposedProperty v ↔ Exposed v := by
      refine and_iff_right fun _ hn => ?_
      rw [ha] at hn
      cases hn
    exact (and_congr_right fun _ => and_iff_right hi').trans
      ((ih trivial).trans (and_congr_right fun _ => hexposed.symm))

end InlineSchema.Extraction
