import InlineSchema.Extraction.Walk
import InlineSchema.Proofs.Node
import InlineSchema.Proofs.Registry

/-! # The course of a walk

A walk and each of its parts as a relation between what is found and what is left, with the
registry before and after. The relation says everything that a walk can do, so that a property of
walks is proved by induction on it, without opening the walk again.
-/
namespace InlineSchema.Extraction

theorem Site.nodup_keys : (Site.all.map Site.key).Nodup := by decide

/-- A part of a walk, with what it finds and what it leaves. -/
inductive Part where
  | node (base : String) (n n' : Node)
  | sites (base : String) (ss : List Site) (m m' : Entries Node)
  | site (base : String) (s : Site) (v v' : Node)
  | place (name : String) (v v' : Node)
  | mint (base : String) (v : Node) (name : String)
  | branches (base key : String) (i : Nat) (xs xs' : List Node)
  | properties (base : String) (ps ps' : Entries Node)
  | property (name : String) (v v' : Node)

/-- The parts of a walk that starts with one registry and ends with another. -/
inductive Walked (o : Options) : Part → Registry → Registry → Prop
  | leaf {base : String} {n : Node} {r : Registry} (h : n.isMapping = false) :
      Walked o (.node base n n) r r
  | mapping {base : String} {m m' : Entries Node} {r r' : Registry}
      (h : Walked o (.sites base Site.all m m') r r') :
      Walked o (.node base (.mapping m) (.mapping m')) r r'
  | done {base : String} {m : Entries Node} {r : Registry} : Walked o (.sites base [] m m) r r
  | absent {base : String} {s : Site} {ss : List Site} {m m' : Entries Node} {r r' : Registry}
      (hs : Entries.get? m s.key = none) (h : Walked o (.sites base ss m m') r r') :
      Walked o (.sites base (s :: ss) m m') r r'
  | present {base : String} {s : Site} {ss : List Site} {m m' : Entries Node} {v v' : Node}
      {r r₁ r' : Registry} (hs : Entries.get? m s.key = some v)
      (hv : Walked o (.site base s v v') r r₁)
      (h : Walked o (.sites base ss (Entries.modify s.key (fun _ => v') m) m') r₁ r') :
      Walked o (.sites base (s :: ss) m m') r r'
  | branches {base key : String} {xs xs' : List Node} {r r' : Registry}
      (h : Walked o (.branches base key 0 xs xs') r r') :
      Walked o (.site base (.branches key) (.sequence xs) (.sequence xs')) r r'
  | noBranches {base key : String} {v : Node} {r : Registry} (h : ∀ xs, v ≠ .sequence xs) :
      Walked o (.site base (.branches key) v v) r r
  | properties {base : String} {ps ps' : Entries Node} {r r' : Registry}
      (h : Walked o (.properties base ps ps') r r') :
      Walked o (.site base .properties (.mapping ps) (.mapping ps')) r r'
  | noProperties {base : String} {v : Node} {r : Registry} (h : ∀ ps, v ≠ .mapping ps) :
      Walked o (.site base .properties v v) r r
  | items {base : String} {v v' : Node} {r r' : Registry}
      (h : Walked o (.place (itemName base) v v') r r') : Walked o (.site base .items v v') r r'
  | furtherProperties {base : String} {v v' : Node} {r r' : Registry}
      (h : Walked o (.place (valueName base) v v') r r') :
      Walked o (.site base .furtherProperties v v') r r'
  | hoisted {base name : String} {v : Node} {r r' : Registry} (hi : v.isInlineObject = true)
      (h : Walked o (.mint base v name) r r') :
      Walked o (.place base v (Node.reference (o.refTo name))) r r'
  | kept {name : String} {v v' : Node} {r r' : Registry} (hi : v.isInlineObject = false)
      (h : Walked o (.node name v v') r r') : Walked o (.place name v v') r r'
  | mint {base : String} {v body : Node} {r r' : Registry}
      (h : Walked o (.node (r.reserve base).1 v body) (r.reserve base).2 r') :
      Walked o (.mint base v (r.reserve base).1) r (r'.define (r.reserve base).1 body)
  | lastBranch {base key : String} {i : Nat} {r : Registry} :
      Walked o (.branches base key i [] []) r r
  | branch {base key : String} {i : Nat} {x x' : Node} {xs xs' : List Node} {r r₁ r' : Registry}
      (hx : Walked o (.node (branchName base key i) x x') r r₁)
      (h : Walked o (.branches base key (i + 1) xs xs') r₁ r') :
      Walked o (.branches base key i (x :: xs) (x' :: xs')) r r'
  | lastProperty {base : String} {r : Registry} : Walked o (.properties base [] []) r r
  | property {base k : String} {v v' : Node} {ps ps' : Entries Node} {r r₁ r' : Registry}
      (hv : Walked o (.property (propertyName base k) v v') r r₁)
      (h : Walked o (.properties base ps ps') r₁ r') :
      Walked o (.properties base ((k, v) :: ps) ((k, v') :: ps')) r r'
  | object {base name : String} {v : Node} {r r' : Registry} (hi : v.isInlineObject = true)
      (h : Walked o (.mint base v name) r r') :
      Walked o (.property base v (keepDescription v (Node.reference (o.refTo name)))) r r'
  | array {base name : String} {m : Entries Node} {x : Node} {r r' : Registry}
      (hi : (Node.mapping m).isInlineObject = false)
      (ha : (Node.mapping m).isInlineObjectArray = true)
      (hx : Entries.get? m "items" = some x) (h : Walked o (.mint (itemName base) x name) r r') :
      Walked o (.property base (.mapping m)
        (.mapping (Entries.modify "items" (fun _ => Node.reference (o.refTo name)) m))) r r'
  | other {name : String} {v v' : Node} {r r' : Registry} (hi : v.isInlineObject = false)
      (ha : v.isInlineObjectArray = false) (h : Walked o (.node name v v') r r') :
      Walked o (.property name v v') r r'

/-! ## Every walk takes such a course -/

variable (o : Options)

def Follows (n : Node) : Prop :=
  ∀ (base : String) (r : Registry),
    Walked o (.node base n ((walk o base n).run r).1) r ((walk o base n).run r).2

theorem run_bind {σ α β : Type} (x : StateM σ α) (f : α → StateM σ β) (r : σ) :
    (x >>= f).run r = (f (x.run r).1).run (x.run r).2 := rfl

variable {o}

theorem walked_mint {v : Node} (hv : Follows o v) (base : String) (r : Registry) :
    Walked o (.mint base v (r.reserve base).1) r
      ((mint o base fun name => walk o name v).run r).2 :=
  .mint (hv (r.reserve base).1 (r.reserve base).2)

theorem walked_place {v : Node} (hv : Follows o v) (name : String) (r : Registry) :
    let x := (if v.isInlineObject then mint o name fun name => walk o name v
      else walk o name v).run r
    Walked o (.place name v x.1) r x.2 := by
  intro x
  cases hi : v.isInlineObject with
  | true =>
    simp only [x, hi, ↓reduceIte]
    exact .hoisted hi (walked_mint hv name r)
  | false =>
    simp only [x, hi, Bool.false_eq_true, ↓reduceIte]
    exact .kept hi (hv name r)

theorem walked_branches {xs : List Node} (hx : ∀ x ∈ xs, Follows o x) (base key : String) (i : Nat)
    (r : Registry) :
    Walked o (.branches base key i xs ((walkBranches o base key i xs).run r).1) r
      ((walkBranches o base key i xs).run r).2 := by
  induction xs generalizing i r with
  | nil => exact .lastBranch
  | cons x xs ih =>
    have hhead := hx x List.mem_cons_self (branchName base key i) r
    have htail := ih (fun y hy => hx y (List.mem_cons_of_mem _ hy)) (i + 1)
      ((walk o (branchName base key i) x).run r).2
    exact .branch hhead htail

/-- Every node that is no larger than `v`, which covers all that stands inside `v`. -/
def FollowsWithin (o : Options) (v : Node) : Prop := ∀ n, sizeOf n ≤ sizeOf v → Follows o n

theorem FollowsWithin.self {v : Node} (hv : FollowsWithin o v) : Follows o v := hv v le_rfl

theorem FollowsWithin.of_lt {v w : Node} (hv : FollowsWithin o v) (h : sizeOf w < sizeOf v) :
    FollowsWithin o w := fun n hn => hv n (hn.trans h.le)

theorem walkSite_cons_of_ne {base : String} {s : Site} {p : String × Node} (h : p.1 ≠ s.key)
    (m : Entries Node) : walkSite o base s (p :: m) = walkSite o base s m := by
  obtain ⟨k, v⟩ := p
  cases s <;> cases v <;> simp only [walkSite, if_neg h]

theorem walkSite_of_get?_eq_none {base : String} {s : Site} {m : Entries Node}
    (h : Entries.get? m s.key = none) : walkSite o base s m = pure none := by
  induction m with
  | nil => cases s <;> rfl
  | cons p m ih =>
    rw [Entries.get?_cons] at h
    split at h
    next => cases h
    next hk => rw [walkSite_cons_of_ne (Ne.symm hk), ih h]

theorem walkSite_of_get? {base : String} {s : Site} {m : Entries Node} {v : Node}
    (h : Entries.get? m s.key = some v) :
    walkSite o base s m = walkSite o base s [(s.key, v)] := by
  induction m with
  | nil => cases h
  | cons p m ih =>
    rw [Entries.get?_cons] at h
    split at h
    next hk =>
      obtain ⟨k, w⟩ := p
      cases h
      subst hk
      cases s <;> cases w <;> simp only [walkSite, ↓reduceIte]
    next hk => rw [walkSite_cons_of_ne (Ne.symm hk), ih h]

theorem walked_items {m : Entries Node} {v : Node} (hv : Follows o v)
    (hm : Entries.get? m "items" = some v) (base : String) (r : Registry) :
    ∃ v', ((walkSite o base .items m).run r).1 = some v' ∧
      Walked o (.place (itemName base) v v') r ((walkSite o base .items m).run r).2 := by
  rw [walkSite_of_get? (s := .items) hm]
  simp only [walkSite, Site.key, ↓reduceIte]
  exact ⟨_, rfl, walked_place hv (itemName base) r⟩

theorem walked_array {m : Entries Node} (hm : FollowsWithin o (.mapping m))
    (hi : (Node.mapping m).isInlineObject = false)
    (ha : (Node.mapping m).isInlineObjectArray = true) (name : String) (r : Registry) :
    let x := (walkSite o name .items m).run r
    Walked o (.property name (.mapping m) (.mapping (setChild "items" x.1 m))) r x.2 := by
  intro x
  obtain ⟨v, hv, hvi⟩ := Node.items_of_isInlineObjectArray ha
  have hw : Follows o v := (hm.of_lt (Node.sizeOf_lt_of_mem (Entries.mem_of_get? hv))).self
  obtain ⟨v', he, hwalk⟩ := walked_items hw hv name r
  simp only [x, he]
  cases hwalk with
  | hoisted _ h => exact .array hi ha hv h
  | kept hk => rw [hvi] at hk; cases hk

def walkProperty (o : Options) (name : String) (v : Node) : StateM Registry Node :=
  if v.isInlineObject then keepDescription v <$> mint o name fun name => walk o name v
  else if v.isInlineObjectArray then
    match v with
    | .mapping m => do
      let items ← walkSite o name .items m
      pure (.mapping (setChild "items" items m))
    | v => pure v
  else walk o name v

theorem walkProperties_cons (o : Options) (base k : String) (v : Node) (ps : Entries Node) :
    walkProperties o base ((k, v) :: ps) = (do
      let v' ← walkProperty o (propertyName base k) v
      let ps ← walkProperties o base ps
      pure ((k, v') :: ps)) := by
  cases v <;>
  · simp only [walkProperties, walkProperty]
    split
    · rfl
    · split <;> rfl

theorem walked_property {v : Node} (hv : FollowsWithin o v) (name : String) (r : Registry) :
    Walked o (.property name v ((walkProperty o name v).run r).1) r
      ((walkProperty o name v).run r).2 := by
  cases hi : v.isInlineObject with
  | true =>
    simp only [walkProperty, hi, ↓reduceIte]
    exact .object hi (walked_mint hv.self name r)
  | false =>
    cases ha : v.isInlineObjectArray with
    | false =>
      simp only [walkProperty, hi, ha, Bool.false_eq_true, ↓reduceIte]
      exact .other hi ha (hv.self name r)
    | true =>
      simp only [walkProperty, hi, ha, Bool.false_eq_true, ↓reduceIte]
      cases v with
      | scalar => cases ha
      | sequence => cases ha
      | mapping m => exact walked_array hv hi ha name r

theorem walked_properties {ps : Entries Node} (hp : ∀ p ∈ ps, FollowsWithin o p.2) (base : String)
    (r : Registry) :
    Walked o (.properties base ps ((walkProperties o base ps).run r).1) r
      ((walkProperties o base ps).run r).2 := by
  induction ps generalizing r with
  | nil => exact .lastProperty
  | cons p ps ih =>
    obtain ⟨k, v⟩ := p
    have hhead := walked_property (hp _ List.mem_cons_self) (propertyName base k) r
    have htail := ih fun q hq => hp q (List.mem_cons_of_mem _ hq)
    rw [walkProperties_cons]
    exact .property hhead (htail _)

/-- A walk of a site that stands in the mapping gives it a new value. -/
theorem walked_site {s : Site} {m : Entries Node} {v : Node} (hv : FollowsWithin o v)
    (hm : Entries.get? m s.key = some v) (base : String) (r : Registry) :
    ∃ v', ((walkSite o base s m).run r).1 = some v' ∧
      Walked o (.site base s v v') r ((walkSite o base s m).run r).2 := by
  rw [walkSite_of_get? hm]
  cases s with
  | branches key =>
    cases v with
    | sequence xs =>
      simp only [walkSite, ↓reduceIte]
      have hx : ∀ x ∈ xs, Follows o x := fun x h =>
        (hv.of_lt (Node.sizeOf_lt_of_mem_sequence h)).self
      exact ⟨_, rfl, .branches (walked_branches hx base key 0 r)⟩
    | scalar => simp only [walkSite, ↓reduceIte]; exact ⟨_, rfl, .noBranches (by simp)⟩
    | mapping => simp only [walkSite, ↓reduceIte]; exact ⟨_, rfl, .noBranches (by simp)⟩
  | properties =>
    cases v with
    | mapping ps =>
      simp only [walkSite, ↓reduceIte]
      have hp : ∀ p ∈ ps, FollowsWithin o p.2 := fun p h => hv.of_lt (Node.sizeOf_lt_of_mem h)
      exact ⟨_, rfl, .properties (walked_properties hp base r)⟩
    | scalar => simp only [walkSite, ↓reduceIte]; exact ⟨_, rfl, .noProperties (by simp)⟩
    | sequence => simp only [walkSite, ↓reduceIte]; exact ⟨_, rfl, .noProperties (by simp)⟩
  | items =>
    simp only [walkSite, ↓reduceIte]
    exact ⟨_, rfl, .items (walked_place hv.self (itemName base) r)⟩
  | furtherProperties =>
    simp only [walkSite, ↓reduceIte]
    exact ⟨_, rfl, .furtherProperties (walked_place hv.self (valueName base) r)⟩

/-- The walk of the sites `ss` finds at each of them the value that stands in `m`, and puts the new
values into a mapping that agrees with `m` there. -/
theorem walked_sites {base : String} {m : Entries Node}
    (hm : ∀ key v, Entries.get? m key = some v → FollowsWithin o v) {ss : List Site}
    (hss : (ss.map Site.key).Nodup) (c : Entries Node)
    (hc : ∀ s ∈ ss, Entries.get? c s.key = Entries.get? m s.key) (r : Registry) :
    let x := (ss.mapM fun s => do
      let child ← walkSite o base s m
      pure (s.key, child)).run r
    Walked o (.sites base ss c (x.1.foldl (fun m (key, child) => setChild key child m) c)) r
      x.2 := by
  induction ss generalizing c r with
  | nil => exact .done
  | cons s ss ih =>
    intro x
    obtain ⟨hs, hss⟩ := List.nodup_cons.mp hss
    have hrest : ∀ t ∈ ss, Entries.get? c t.key = Entries.get? m t.key := fun t ht =>
      hc t (List.mem_cons_of_mem _ ht)
    have hhead := hc s List.mem_cons_self
    simp only [x, List.mapM_cons]
    cases hv : Entries.get? m s.key with
    | none =>
      rw [walkSite_of_get?_eq_none hv]
      exact .absent (hhead.trans hv) (ih hss c hrest r)
    | some v =>
      obtain ⟨v', he, hwalk⟩ := walked_site (hm _ _ hv) hv base r
      have hrest' : ∀ t ∈ ss,
          Entries.get? (Entries.modify s.key (fun _ => v') c) t.key = Entries.get? m t.key := by
        intro t ht
        have hne : t.key ≠ s.key := fun h => hs (h ▸ List.mem_map_of_mem ht)
        rw [Entries.get?_modify_of_ne _ _ hne]
        exact hrest t ht
      refine .present (hhead.trans hv) hwalk ?_
      have h := ih hss _ hrest' ((walkSite o base s m).run r).2
      change Walked o (.sites base ss (Entries.modify s.key (fun _ => v') c)
        (List.foldl _ (setChild s.key ((walkSite o base s m).run r).1 c) _)) _ _
      rw [he]
      exact h

theorem walked (o : Options) (base : String) (n : Node) (r : Registry) :
    Walked o (.node base n ((walk o base n).run r).1) r ((walk o base n).run r).2 := by
  cases n with
  | scalar s => exact .leaf rfl
  | sequence xs => exact .leaf rfl
  | mapping m =>
    have hm : ∀ key v, Entries.get? m key = some v → FollowsWithin o v := by
      intro key v hv x hx base r
      have hless : sizeOf x < sizeOf (Node.mapping m) :=
        hx.trans_lt (Node.sizeOf_lt_of_mem (Entries.mem_of_get? hv))
      exact walked o base x r
    exact .mapping (walked_sites hm Site.nodup_keys m (fun _ _ => rfl) r)
termination_by sizeOf n
decreasing_by exact hless

end InlineSchema.Extraction
