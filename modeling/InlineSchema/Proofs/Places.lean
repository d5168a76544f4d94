import Mathlib
import InlineSchema.Proofs.Footprint

/-! # What a walk leaves at each place

What becomes of a schema depends on the place where it is met and on nothing else. A property keeps
its description beside the reference to the object that it was; every other object that is moved
leaves a bare reference, and so does the composition of a payload. The branches of a composition
stay. The same holds inside the bodies that have been moved.
-/
namespace InlineSchema

theorem Node.follow_key (n : Node) (key : String) (path : List Step) :
    n.follow (.key key :: path) = (n.get? key).bind (·.follow path) := by
  cases n <;> rfl

theorem Node.follow_index (xs : List Node) (i : Nat) (path : List Step) :
    (sequence xs).follow (.index i :: path) = xs[i]?.bind (·.follow path) := rfl

namespace Extraction
open Registry

/-- The kinds of places where an extraction meets a schema. -/
inductive Place where
  | definition
  | branch
  | property
  | items
  | furtherProperties
  | payload
deriving DecidableEq, Repr

def Site.place : Site → Place
  | .branches _ => .branch
  | .properties => .property
  | .items => .items
  | .furtherProperties => .furtherProperties

namespace Place

def moves : Place → Node → Bool
  | .definition, _ | .branch, _ => false
  | .payload, v => v.isInlineObject || v.isComposition
  | _, v => v.isInlineObject

/-- The sites that are visited in a schema that stays: in a property that is an array of objects
only its items. -/
def visits : Place → Node → List Site
  | .property, v => if v.isInlineObjectArray then [.items] else Site.all
  | _, _ => Site.all

/-- What stands where a schema has been moved from, given the reference to it. -/
def mark : Place → Node → String → Node
  | .property, v, target =>
    match v.description? with
    | some d => .mapping [("description", .string d),
        ("allOf", .sequence [.mapping [("$ref", .string target)]])]
    | none => .mapping [("$ref", .string target)]
  | _, _, target => .mapping [("$ref", .string target)]

theorem visits_subset (p : Place) (v : Node) : p.visits v ⊆ Site.all := by
  unfold visits
  split
  · split
    · simp [Site.all]
    · simp
  · simp

theorem mark_property (v : Node) (target : String) :
    Place.property.mark v target = keepDescription v (Node.reference target) := by
  rw [mark, keepDescription]
  cases v.description? <;> rfl

end Place

/-- From a schema at one place, down the path, the extraction comes to a schema at another place. It
goes on in what stays where it is. -/
inductive Comes : Place → Node → List Step → Place → Node → Prop
  | here {p : Place} {v : Node} : Comes p v [] p v
  | inside {p q : Place} {s : Site} {v u x y : Node} {steps path : List Step}
      (hstays : p.moves v = false) (hs : s ∈ p.visits v) (hu : v.get? s.key = some u)
      (hx : s.OpensAt u steps x) (h : Comes s.place x path q y) :
      Comes p v (.key s.key :: (steps ++ path)) q y

mutual

/-- What is left at a place where the schema `x` was met. It is moved, and then its body is in the
registry, with the description that it had and with what is left at the places inside it; or it
stays, with its keys in their order. -/
inductive Left (o : Options) (R : Registry) : Place → Node → Option Node → Prop
  | moved {q : Place} {x body : Node} {name : String} (h : q.moves x = true)
      (hbody : R.get? name = some body)
      (hdescription : body.get? "description" = x.get? "description")
      (hinside : Arranged o R (Comes .definition x) x body) :
      Left o R q x (some (q.mark x (o.refTo name)))
  | kept {q : Place} {x x' : Node} (h : q.moves x = false) (hshape : x'.shape = x.shape) :
      Left o R q x (some x')

/-- At each of these places stands what is left of the schema there, and the tree has changed only
at and below those that were moved. -/
inductive Arranged (o : Options) (R : Registry) :
    (List Step → Place → Node → Prop) → Node → Node → Prop
  | intro {places : List Step → Place → Node → Prop} {n n' : Node}
      (found : ∀ path q x, places path q x → Left o R q x (n'.follow path))
      (others : ChangesWithin (fun path => ∃ start q x, places start q x ∧ q.moves x = true ∧
        start <+: path) n n') : Arranged o R places n n'

end

/-- The object is in the registry under this name, with what is left at the places inside it. -/
def Copied (o : Options) (R : Registry) (name : String) (x : Node) : Prop :=
  ∃ body, R.get? name = some body ∧ body.get? "description" = x.get? "description" ∧
    Arranged o R (Comes .definition x) x body

variable {o : Options} {R : Registry} {places places' : List Step → Place → Node → Prop}
  {n n' v v' : Node} {m m' : Entries Node} {p q : Place} {name : String}

theorem Left.of_copied (h : q.moves v = true) (hv : Copied o R name v) :
    Left o R q v (some (q.mark v (o.refTo name))) := by
  obtain ⟨body, hbody, hdescription, hinside⟩ := hv
  exact .moved h hbody hdescription hinside

/-! ## Places in a tree -/

theorem Arranged.found (h : Arranged o R places n n') {path : List Step} {x : Node}
    (hx : places path q x) : Left o R q x (n'.follow path) := by
  cases h with
  | intro found => exact found path q x hx

theorem Arranged.others (h : Arranged o R places n n') :
    ChangesWithin (fun path => ∃ start q x, places start q x ∧ q.moves x = true ∧ start <+: path)
      n n' := by
  cases h with
  | intro _ others => exact others

theorem Arranged.congr (h : Arranged o R places n n')
    (hplaces : ∀ path q x, places' path q x ↔ places path q x) : Arranged o R places' n n' := by
  have he : places' = places := by
    funext path q x
    exact propext (hplaces path q x)
  rwa [he]

theorem arranged_of_none (h : ∀ path q x, ¬places path q x) (n : Node) : Arranged o R places n n := by
  constructor
  · intro path q x hx
    exact absurd hx (h path q x)
  · exact .refl _ n

/-- A second change that leaves the places of the first as they are. -/
theorem Arranged.trans {n₁ : Node} (h : Arranged o R places n n₁) (h' : Arranged o R places' n₁ n')
    (hsame : ∀ path q x, places path q x → n'.follow path = n₁.follow path) :
    Arranged o R (fun path q x => places path q x ∨ places' path q x) n n' := by
  constructor
  · rintro path q x (hx | hx)
    · rw [hsame path q x hx]
      exact h.found hx
    · exact h'.found hx
  · refine (h.others.mono ?_).trans (h'.others.mono ?_)
    · rintro path ⟨start, q, x, hx, hmoved⟩
      exact ⟨start, q, x, .inl hx, hmoved⟩
    · rintro path ⟨start, q, x, hx, hmoved⟩
      exact ⟨start, q, x, .inr hx, hmoved⟩

/-- The place itself is the only one that is met where the schema is moved. -/
theorem arranged_moved (h : p.moves v = true) (hv : Copied o R name v) :
    Arranged o R (Comes p v) v (p.mark v (o.refTo name)) := by
  constructor
  · intro path q x hx
    cases hx with
    | here => exact .of_copied h hv
    | inside hstays =>
      rw [h] at hstays
      cases hstays
  · intro path hpath
    exact absurd ⟨[], p, v, .here, h, List.nil_prefix⟩ hpath

theorem arranged_mapping (hk : Entries.keys m' = Entries.keys m)
    (hroot : ∀ q x, places [] q x → Left o R q x (some (.mapping m')))
    (hinside : ∀ step path q x, places (step :: path) q x →
      ∃ k v, step = .key k ∧ Entries.get? m k = some v)
    (h : ∀ k v v', Entries.get? m k = some v → Entries.get? m' k = some v' →
      Arranged o R (fun path => places (.key k :: path)) v v') :
    Arranged o R places (.mapping m) (.mapping m') := by
  constructor
  · intro path q x hx
    cases path with
    | nil => exact hroot q x hx
    | cons step path =>
      obtain ⟨k, v, rfl, hv⟩ := hinside step path q x hx
      obtain ⟨v', hv', -⟩ := Entries.exists_mem_zip_of_get? hk.symm hv
      rw [Node.follow_key, Node.get?_mapping, hv', Option.bind_some]
      exact (h k v v' hv hv').found hx
  · apply changesWithin_mapping hk
    intro k v v' hv hv'
    apply (h k v v' hv hv').others.mono
    rintro path ⟨start, q, x, hx, hmoves, hprefix⟩
    exact ⟨.key k :: start, q, x, hx, hmoves, by simpa [List.cons_prefix_cons] using hprefix⟩

/-- All places are below one key. -/
theorem arranged_modify {key : String} (hv : Entries.get? m key = some v)
    (hplaces : ∀ path q x, places path q x → ∃ rest, path = .key key :: rest)
    (h : Arranged o R (fun path => places (.key key :: path)) v v') :
    Arranged o R places (.mapping m) (.mapping (Entries.modify key (fun _ => v') m)) := by
  apply arranged_mapping (Entries.keys_modify ..)
  · intro q x hx
    obtain ⟨rest, hrest⟩ := hplaces _ _ _ hx
    cases hrest
  · intro step path q x hx
    obtain ⟨rest, hrest⟩ := hplaces _ _ _ hx
    cases hrest
    exact ⟨key, v, rfl, hv⟩
  · intro k w w' hw hw'
    by_cases hk : k = key
    · subst hk
      rw [Entries.get?_modify_self, hw] at hw'
      cases hw'
      cases hv.symm.trans hw
      exact h
    · rw [Entries.get?_modify_of_ne m _ hk, hw] at hw'
      cases hw'
      refine arranged_of_none (fun path q x hx => ?_) w
      obtain ⟨rest, hrest⟩ := hplaces _ _ _ hx
      simp [hk] at hrest

theorem arranged_sequence {xs xs' : List Node} (hl : xs'.length = xs.length)
    (hplaces : ∀ path q x, places path q x →
      ∃ i y rest, path = .index i :: rest ∧ xs[i]? = some y)
    (h : ∀ (i : Nat) x x', xs[i]? = some x → xs'[i]? = some x' →
      Arranged o R (fun path => places (.index i :: path)) x x') :
    Arranged o R places (.sequence xs) (.sequence xs') := by
  constructor
  · intro path q x hx
    obtain ⟨i, y, rest, rfl, hy⟩ := hplaces path q x hx
    have hi : i < xs'.length := by
      rw [hl]
      exact (List.getElem?_eq_some_iff.mp hy).1
    have hy' := List.getElem?_eq_getElem hi
    rw [Node.follow_index, hy', Option.bind_some]
    exact (h i y _ hy hy').found hx
  · apply changesWithin_sequence hl
    intro i x x' hx hx'
    apply (h i x x' hx hx').others.mono
    rintro path ⟨start, q, y, hy, hmoves, hprefix⟩
    exact ⟨.index i :: start, q, y, hy, hmoves, by simpa [List.cons_prefix_cons] using hprefix⟩

/-! ## The sites of a schema -/

/-- From the value of a site, down the path, the extraction comes to a schema at a place. -/
def Site.Finds (s : Site) (u : Node) (path : List Step) (q : Place) (y : Node) : Prop :=
  ∃ steps x rest, s.OpensAt u steps x ∧ path = steps ++ rest ∧ Comes s.place x rest q y

theorem Site.eq_of_key {s t : Site} (hs : s ∈ Site.all) (ht : t ∈ Site.all) (h : s.key = t.key) :
    s = t := List.inj_on_of_nodup_map Site.nodup_keys hs ht h

theorem comes_key_iff {s : Site} {u y : Node} {path : List Step} (hstays : p.moves v = false)
    (hs : s ∈ p.visits v) (hu : v.get? s.key = some u) :
    Comes p v (.key s.key :: path) q y ↔ s.Finds u path q y := by
  constructor
  · intro h
    generalize hfull : Step.key s.key :: path = full at h
    cases h with
    | here => cases hfull
    | @inside _ _ t _ w x _ steps rest _ ht hw hx h =>
      obtain ⟨hkey, rfl⟩ := List.cons.inj hfull
      have hst : s = t :=
        Site.eq_of_key (p.visits_subset v hs) (p.visits_subset v ht) (Step.key.inj hkey)
      subst hst
      cases hu.symm.trans hw
      exact ⟨steps, x, rest, hx, rfl, h⟩
  · rintro ⟨steps, x, rest, hx, rfl, h⟩
    exact .inside hstays hs hu hx h

/-- Down the steps that the site opens stands one schema, and what is found there is found from it. -/
theorem finds_append_iff {s : Site} {u x y : Node} {steps path : List Step}
    (hx : s.OpensAt u steps x) : s.Finds u (steps ++ path) q y ↔ Comes s.place x path q y := by
  constructor
  · rintro ⟨steps', z, rest, hz, hpath, h⟩
    cases hx with
    | branch hi =>
      cases hz with
      | branch hj =>
        obtain ⟨⟨⟩, rfl⟩ := List.cons.inj hpath
        cases hi.symm.trans hj
        exact h
    | property hk =>
      cases hz with
      | property hl =>
        obtain ⟨⟨⟩, rfl⟩ := List.cons.inj hpath
        cases hk.symm.trans hl
        exact h
    | items | furtherProperties =>
      cases hz
      rw [List.nil_append, List.nil_append] at hpath
      rwa [hpath]
  · intro h
    exact ⟨steps, x, path, hx, rfl, h⟩

/-- These sites are arranged, and nothing else in the mapping has changed. -/
structure SitesArranged (o : Options) (R : Registry) (ss : List Site) (m m' : Entries Node) :
    Prop where
  keys : Entries.keys m' = Entries.keys m
  other : ∀ key, key ∉ ss.map Site.key → Entries.get? m' key = Entries.get? m key
  site : ∀ s ∈ ss, ∀ v, Entries.get? m s.key = some v →
    ∃ v', Entries.get? m' s.key = some v' ∧ Arranged o R (s.Finds v) v v'

theorem sitesArranged_nil (m : Entries Node) : SitesArranged o R [] m m where
  keys := rfl
  other _ _ := rfl
  site := nofun

variable {s : Site} {ss : List Site}

theorem SitesArranged.absent (h : SitesArranged o R ss m m') (hs : Entries.get? m s.key = none) :
    SitesArranged o R (s :: ss) m m' where
  keys := h.keys
  other key hkey := h.other key fun hmem => hkey (List.mem_cons_of_mem _ hmem)
  site t ht v hv := by
    rcases List.mem_cons.mp ht with rfl | ht
    · rw [hs] at hv
      cases hv
    · exact h.site t ht v hv

theorem SitesArranged.present (hnot : s.key ∉ ss.map Site.key) (hv : Entries.get? m s.key = some v)
    (hs : Arranged o R (s.Finds v) v v')
    (h : SitesArranged o R ss (Entries.modify s.key (fun _ => v') m) m') :
    SitesArranged o R (s :: ss) m m' where
  keys := h.keys.trans (Entries.keys_modify ..)
  other key hkey := by
    rw [List.map_cons, List.mem_cons, not_or] at hkey
    rw [h.other key hkey.2, Entries.get?_modify_of_ne m _ hkey.1]
  site t ht w hw := by
    rcases List.mem_cons.mp ht with rfl | ht
    · cases hv.symm.trans hw
      refine ⟨v', ?_, hs⟩
      rw [h.other _ hnot, Entries.get?_modify_self, hv, Option.map_some]
    · have hne : t.key ≠ s.key := fun he => hnot (he ▸ List.mem_map_of_mem ht)
      apply h.site t ht w
      rw [Entries.get?_modify_of_ne m _ hne, hw]

/-- A schema that stays is arranged if the sites are that are visited in it. -/
theorem SitesArranged.comes (h : SitesArranged o R (p.visits (.mapping m)) m m')
    (hstays : p.moves (.mapping m) = false) :
    Arranged o R (Comes p (.mapping m)) (.mapping m) (.mapping m') := by
  apply arranged_mapping h.keys
  · intro q x hx
    cases hx with
    | here => exact .kept hstays (by simp [Node.shape, h.keys])
  · intro step path q x hx
    cases hx with
    | inside _ _ hu => exact ⟨_, _, rfl, hu⟩
  · intro k v v' hv hv'
    by_cases hk : k ∈ (p.visits (.mapping m)).map Site.key
    · obtain ⟨s, hs, rfl⟩ := List.mem_map.mp hk
      obtain ⟨w', hw', hsite⟩ := h.site s hs v hv
      cases hw'.symm.trans hv'
      exact hsite.congr fun path q x => comes_key_iff hstays hs hv
    · rw [h.other k hk, hv] at hv'
      cases hv'
      refine arranged_of_none (fun path q x hx => ?_) v
      cases hx with
      | inside _ hs => exact hk (List.mem_map_of_mem hs)

/-- What is no mapping has no sites. -/
theorem arranged_leaf (hn : n.isMapping = false) (hstays : p.moves n = false) :
    Arranged o R (Comes p n) n n := by
  constructor
  · intro path q x hx
    cases hx with
    | here => exact .kept hstays rfl
    | inside _ _ hu =>
      cases n with
      | scalar | sequence => cases hu
      | mapping => cases hn
  · exact .refl _ n

/-! ## Walks -/

/-- What a part of a walk leaves at the places that it meets. A node is walked alike at every place
where it stays and has all its sites visited. -/
def Part.Arranged (o : Options) (R : Registry) : Part → Prop
  | .node _ n n' => ∀ p : Place, p.moves n = false → p.visits n = Site.all →
      Extraction.Arranged o R (Comes p n) n n'
  | .sites _ ss m m' => SitesArranged o R ss m m'
  | .site _ s v v' => Extraction.Arranged o R (s.Finds v) v v'
  | .place _ v v' => ∀ p : Place, p = .items ∨ p = .furtherProperties →
      Extraction.Arranged o R (Comes p v) v v'
  | .mint _ v name => Copied o R name v
  | .branches _ _ _ xs xs' => xs'.length = xs.length ∧ ∀ (i : Nat) x x',
      xs[i]? = some x → xs'[i]? = some x' → Extraction.Arranged o R (Comes .branch x) x x'
  | .properties _ ps ps' => Entries.keys ps' = Entries.keys ps ∧ ∀ k v v',
      Entries.get? ps k = some v → Entries.get? ps' k = some v' →
        Extraction.Arranged o R (Comes .property v) v v'
  | .property _ v v' => Extraction.Arranged o R (Comes .property v) v v'

/-- By induction on the course of the walk. The body under a name is put into the registry after the
walk of it, so the registry that is asked for it is a later one, which keeps what the walk has added. -/
theorem Walked.arranged {part : Part} {r r' : Registry} (h : Walked o part r r') :
    Keeps R r r' → part.Once → part.Arranged o R := by
  induction h with
  | leaf hn => exact fun _ _ p hstays _ => arranged_leaf hn hstays
  | mapping _ ih =>
    intro hR _ p hstays hvisits
    have hsites := ih hR Site.nodup_keys
    rw [Part.Arranged, ← hvisits] at hsites
    exact hsites.comes hstays
  | done => exact fun _ _ => sitesArranged_nil _
  | absent hs _ ih =>
    intro hR honce
    exact (ih hR (List.nodup_cons.mp honce).2).absent hs
  | present hs hw hws ihv ih =>
    intro hR honce
    obtain ⟨hnot, honce⟩ := List.nodup_cons.mp honce
    have hsite := ihv (hR.left hws.grows) trivial
    exact .present hnot hs hsite (ih (hR.right hw.grows) honce)
  | branches _ ih =>
    intro hR _
    obtain ⟨hl, hbranches⟩ := ih hR trivial
    apply arranged_sequence hl
    · rintro _ q y ⟨_, x, rest, hopens, rfl, -⟩
      cases hopens with
      | branch hx => exact ⟨_, x, rest, rfl, hx⟩
    · intro i x x' hx hx'
      exact (hbranches i x x' hx hx').congr fun path q y => finds_append_iff (.branch hx)
  | noBranches hv =>
    intro _ _
    refine arranged_of_none ?_ _
    rintro path q x ⟨_, _, _, ⟨_⟩, -⟩
    exact hv _ rfl
  | properties _ ih =>
    intro hR _
    obtain ⟨hk, hproperties⟩ := ih hR trivial
    apply arranged_mapping hk
    · rintro q y ⟨_, x, rest, hopens, hpath, -⟩
      cases hopens with
      | property => cases hpath
    · rintro step path q y ⟨_, x, rest, hopens, hpath, -⟩
      cases hopens with
      | property hx =>
        obtain ⟨rfl, -⟩ := List.cons.inj hpath
        exact ⟨_, x, rfl, hx⟩
    · intro k v v' hv hv'
      exact (hproperties k v v' hv hv').congr fun path q y => finds_append_iff (.property hv)
  | noProperties hv =>
    intro _ _
    refine arranged_of_none ?_ _
    rintro path q x ⟨_, _, _, ⟨_⟩, -⟩
    exact hv _ rfl
  | items _ ih =>
    intro hR _
    exact (ih hR trivial .items (.inl rfl)).congr fun path q y => finds_append_iff (.items _)
  | furtherProperties _ ih =>
    intro hR _
    exact (ih hR trivial .furtherProperties (.inr rfl)).congr fun path q y =>
      finds_append_iff (.furtherProperties _)
  | hoisted hi _ ih =>
    intro hR _
    rintro p (rfl | rfl)
    · exact arranged_moved (p := .items) hi (ih hR trivial)
    · exact arranged_moved (p := .furtherProperties) hi (ih hR trivial)
  | kept hi _ ih =>
    intro hR _
    rintro p (rfl | rfl)
    · exact ih hR trivial .items hi rfl
    · exact ih hR trivial .furtherProperties hi rfl
  | mint hw ih =>
    intro hR _
    have hagree : AgreeOutside Site.all _ _ := hw.agreeOutside
    refine ⟨_, ?_, hagree.other "description" (by decide), ih hR.mint trivial .definition rfl rfl⟩
    rw [hR _ (mem_fresh_mint _), get?_define, if_pos rfl]
  | lastBranch => exact fun _ _ => ⟨rfl, nofun⟩
  | branch hx hxs ihx ih =>
    intro hR _
    obtain ⟨hl, htail⟩ := ih (hR.right hx.grows) trivial
    refine ⟨congrArg (· + 1) hl, fun i x x' hi hi' => ?_⟩
    cases i with
    | zero =>
      cases hi
      cases hi'
      exact ihx (hR.left hxs.grows) trivial .branch rfl rfl
    | succ i => exact htail i x x' hi hi'
  | lastProperty => exact fun _ _ => ⟨rfl, nofun⟩
  | property hv hps ihv ih =>
    intro hR _
    obtain ⟨hk, htail⟩ := ih (hR.right hv.grows) trivial
    refine ⟨congrArg (List.cons _) hk, fun k v v' hget hget' => ?_⟩
    rw [Entries.get?_cons] at hget hget'
    split at hget
    next he =>
      rw [if_pos he] at hget'
      cases hget
      cases hget'
      exact ihv (hR.left hps.grows) trivial
    next he =>
      rw [if_neg he] at hget'
      exact htail k v v' hget hget'
  | object hi _ ih =>
    intro hR _
    rw [Part.Arranged, ← Place.mark_property]
    exact arranged_moved (p := .property) hi (ih hR trivial)
  | @array base name m x r r' hi ha hx _ ih =>
    intro hR _
    obtain ⟨x', hx', hinline⟩ := Node.items_of_isInlineObjectArray ha
    cases hx.symm.trans hx'
    have hitems : Extraction.Arranged o R (Site.items.Finds x) x (Node.reference (o.refTo name)) :=
      (arranged_moved (p := .items) hinline (ih hR trivial)).congr fun _ _ _ =>
        finds_append_iff (.items _)
    have hvisits : Place.property.visits (.mapping m) = [.items] := if_pos ha
    apply SitesArranged.comes (p := .property) _ hi
    rw [hvisits]
    exact .present List.not_mem_nil hx hitems (sitesArranged_nil _)
  | other hi ha _ ih =>
    intro hR _
    exact ih hR trivial .property hi (by simp [Place.visits, ha])

end Extraction
end InlineSchema
