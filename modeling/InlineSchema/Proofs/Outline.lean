import InlineSchema.Proofs.Moved

/-! # Walks without names

Every name that a walk takes depends on the name that it starts with, on the registry and, in a
reference, on the options, and the names below are made from it. Nothing else depends on them: with
a number in place of each new reference, in the order in which the names are taken, the tree that a
walk leaves and the bodies that it defines are the same for all of its runs.
-/
namespace InlineSchema

namespace Entries
variable {α β : Type}

theorem map_modify (f : α → β) (key : String) (x : α) (m : Entries α) :
    (modify key (fun _ => x) m).map (fun p => (p.1, f p.2)) =
      modify key (fun _ => f x) (m.map fun p => (p.1, f p.2)) := by
  induction m with
  | nil => rfl
  | cons p m ih =>
    simp only [modify_cons, List.map_cons]
    split <;> simp [ih]

end Entries

namespace Extraction
open Registry

/-! ## Outlines -/

/-- A tree in which a moved object is known by a number. With a description the object left a
mapping that holds the description and the reference; without one it left the reference alone. -/
inductive Outline where
  | scalar (value : Scalar)
  | sequence (items : List Outline)
  | mapping (entries : List (String × Outline))
  | moved (number : Nat) (description : Option String)

namespace Outline

mutual

/-- The tree with the references that the numbers stand for. -/
def named (refs : Nat → String) : Outline → Node
  | .scalar s => .scalar s
  | .sequence xs => .sequence (namedItems refs xs)
  | .mapping m => .mapping (namedEntries refs m)
  | .moved i none => Node.reference (refs i)
  | .moved i (some d) => documented d (Node.reference (refs i))

def namedItems (refs : Nat → String) : List Outline → List Node
  | [] => []
  | x :: xs => named refs x :: namedItems refs xs

def namedEntries (refs : Nat → String) : List (String × Outline) → List (String × Node)
  | [] => []
  | (k, x) :: m => (k, named refs x) :: namedEntries refs m

end

theorem namedItems_eq_map (refs : Nat → String) (xs : List Outline) :
    namedItems refs xs = xs.map (named refs) := by
  induction xs with
  | nil => rfl
  | cons x xs ih => rw [namedItems, ih, List.map_cons]

theorem namedEntries_eq_map (refs : Nat → String) (m : Entries Outline) :
    namedEntries refs m = m.map fun p => (p.1, named refs p.2) := by
  induction m with
  | nil => rfl
  | cons p m ih =>
    obtain ⟨k, x⟩ := p
    rw [namedEntries, ih, List.map_cons]

theorem named_sequence (refs : Nat → String) (xs : List Outline) :
    (sequence xs).named refs = .sequence (xs.map (named refs)) := by
  rw [named, namedItems_eq_map]

theorem named_mapping (refs : Nat → String) (m : Entries Outline) :
    (mapping m).named refs = .mapping (m.map fun p => (p.1, named refs p.2)) := by
  rw [named, namedEntries_eq_map]

theorem named_moved (refs : Nat → String) (i : Nat) (v : Node) :
    (moved i v.description?).named refs = keepDescription v (Node.reference (refs i)) := by
  unfold keepDescription
  cases v.description? <;> rfl

mutual

def ofNode : Node → Outline
  | .scalar s => .scalar s
  | .sequence xs => .sequence (ofItems xs)
  | .mapping m => .mapping (ofEntries m)

def ofItems : List Node → List Outline
  | [] => []
  | x :: xs => ofNode x :: ofItems xs

def ofEntries : List (String × Node) → List (String × Outline)
  | [] => []
  | (k, v) :: m => (k, ofNode v) :: ofEntries m

end

theorem ofItems_eq_map (xs : List Node) : ofItems xs = xs.map ofNode := by
  induction xs with
  | nil => rfl
  | cons x xs ih => rw [ofItems, ih, List.map_cons]

theorem ofEntries_eq_map (m : Entries Node) : ofEntries m = m.map fun p => (p.1, ofNode p.2) := by
  induction m with
  | nil => rfl
  | cons p m ih =>
    obtain ⟨k, v⟩ := p
    rw [ofEntries, ih, List.map_cons]

@[simp] theorem named_ofNode (refs : Nat → String) (n : Node) : (ofNode n).named refs = n := by
  induction n using Node.induct with
  | scalar s => rfl
  | sequence xs ih =>
    simp only [ofNode, named_sequence, ofItems_eq_map, List.map_map, Node.sequence.injEq]
    exact (List.map_congr_left ih).trans (List.map_id xs)
  | mapping m ih =>
    simp only [ofNode, named_mapping, ofEntries_eq_map, List.map_map, Node.mapping.injEq]
    have hvalues :
        m.map ((fun p => (p.1, named refs p.2)) ∘ fun p => (p.1, ofNode p.2)) = m.map id :=
      List.map_congr_left fun p hp => Prod.ext rfl (ih p hp)
    exact hvalues.trans (List.map_id m)

def setChild (key : String) (child : Option Outline) (m : Entries Outline) : Entries Outline :=
  child.elim m fun x => Entries.modify key (fun _ => x) m

theorem map_setChild (refs : Nat → String) (key : String) (child : Option Outline)
    (m : Entries Outline) :
    (setChild key child m).map (fun p => (p.1, named refs p.2)) =
      Extraction.setChild key (child.map (named refs)) (m.map fun p => (p.1, named refs p.2)) := by
  cases child with
  | none => rfl
  | some x => exact Entries.map_modify (named refs) key x m

/-- The outline of a mapping with new values for some keywords. -/
theorem named_foldl_setChild (refs : Nat → String) (changes : List (String × Option Outline))
    (m : Entries Node) :
    (mapping (changes.foldl (fun m p => setChild p.1 p.2 m) (ofEntries m))).named refs =
      .mapping ((changes.map fun p => (p.1, p.2.map (named refs))).foldl
        (fun m p => Extraction.setChild p.1 p.2 m) m) := by
  suffices h : ∀ entries : Entries Outline,
      (changes.foldl (fun m p => setChild p.1 p.2 m) entries).map (fun p => (p.1, named refs p.2)) =
        (changes.map fun p => (p.1, p.2.map (named refs))).foldl
          (fun m p => Extraction.setChild p.1 p.2 m) (entries.map fun p => (p.1, named refs p.2)) by
    have hm : (ofEntries m).map (fun p => (p.1, named refs p.2)) = m := by
      have := named_ofNode refs (.mapping m)
      rwa [ofNode, named_mapping, Node.mapping.injEq] at this
    rw [named_mapping, h, hm]
  induction changes with
  | nil => exact fun _ => rfl
  | cons p changes ih =>
    intro entries
    rw [List.foldl_cons, ih, map_setChild, List.map_cons, List.foldl_cons]

end Outline

/-! ## Names in the order in which they are taken -/

/-- Between the two registries these names have been taken, one after the other, each before the
names that its body takes. -/
inductive Taking : Registry → List String → Registry → Prop
  | none (r : Registry) : Taking r [] r
  | mint {base : String} {r r' : Registry} {names : List String}
      (h : Taking (r.reserve base).2 names r') (body : Node) :
      Taking r ((r.reserve base).1 :: names) (r'.define (r.reserve base).1 body)
  | append {r r₁ r' : Registry} {names names' : List String} (h : Taking r names r₁)
      (h' : Taking r₁ names' r') : Taking r (names ++ names') r'

variable {r r' : Registry} {names : List String}

theorem Taking.grows (h : Taking r names r') : Grows r r' := by
  induction h with
  | none r => exact Grows.refl r
  | mint _ body ih => exact grows_mint ih body
  | append _ _ ih ih' => exact ih.trans ih'

theorem Taking.mem_iff (h : Taking r names r') {name : String} :
    name ∈ names ↔ name ∈ fresh r r' := by
  induction h with
  | none r => simp [fresh_refl]
  | @mint base r r' names _ body ih =>
    rw [List.mem_cons, ih]
    constructor
    · rintro (rfl | hn)
      · exact mem_fresh_mint body
      · exact (fresh_mint body hn).1
    · exact eq_or_mem_of_mem_fresh_mint
  | append h h' ih ih' =>
    rw [List.mem_append, ih, ih']
    constructor
    · rintro (hn | hn)
      · exact fresh_left h'.grows hn
      · exact fresh_right h.grows hn
    · exact mem_fresh_trans

theorem Taking.reserved_not_mem {base : String} (h : Taking (r.reserve base).2 names r') :
    (r.reserve base).1 ∉ names := by
  intro hn
  have hfree := (h.mem_iff.mp hn).1
  rw [get?_reserve, if_pos rfl] at hfree
  cases hfree

theorem Taking.nodup (h : Taking r names r') : names.Nodup := by
  induction h with
  | none => exact List.nodup_nil
  | mint h body ih => exact List.nodup_cons.mpr ⟨h.reserved_not_mem, ih⟩
  | append h h' ih ih' =>
    refine List.nodup_append'.mpr ⟨ih, ih', fun name hn hn' => ?_⟩
    exact Set.disjoint_left.mp fresh_disjoint (h.mem_iff.mp hn) (h'.mem_iff.mp hn')

/-! ## Uniform actions -/

/-- Whatever the options, the name and the registry are, the action takes as many names as there are
bodies. With the name of number `i`, counted from `k` on, for every `i`, it gives `given` and has
defined these bodies. -/
def Uniform {α : Type} (k : Nat) (act : Options → String → StateM Registry α)
    (given : (Nat → String) → α) (bodies : List Outline) : Prop :=
  ∀ (o : Options) (base : String) (r : Registry), ∃ names : List String,
    Taking r names ((act o base).run r).2 ∧ names.length = bodies.length ∧
    ∀ name : Nat → String, (∀ i x, names[i]? = some x → name (k + i) = x) →
      ((act o base).run r).1 = given (fun i => o.refTo (name i)) ∧
      ∀ i body, bodies[i]? = some body →
        ((act o base).run r).2.get? (name (k + i)) = some (body.named fun i => o.refTo (name i))

variable {α β γ : Type} {k : Nat} {act : Options → String → StateM Registry α}
  {given : (Nat → String) → α} {bodies : List Outline}

theorem uniform_pure (k : Nat) (a : α) : Uniform k (fun _ _ => pure a) (fun _ => a) [] :=
  fun _ _ r => ⟨[], .none r, rfl, fun _ _ => ⟨rfl, nofun⟩⟩

theorem Uniform.map (h : Uniform k act given bodies) (f : α → β) :
    Uniform k (fun o base => f <$> act o base) (fun refs => f (given refs)) bodies := by
  intro o base r
  obtain ⟨names, htaking, hlength, h⟩ := h o base r
  refine ⟨names, htaking, hlength, fun name hname => ?_⟩
  obtain ⟨hgiven, hbodies⟩ := h name hname
  exact ⟨congrArg f hgiven, hbodies⟩

/-- The name that an action is given may be extended before. -/
theorem Uniform.under (h : Uniform k act given bodies) (extend : String → String) :
    Uniform k (fun o base => act o (extend base)) given bodies := fun o base => h o (extend base)

/-- The numbers of a second action follow those of the first. -/
theorem Uniform.seq (h : Uniform k act given bodies)
    {act' : Options → String → StateM Registry β} {given' : (Nat → String) → β}
    {bodies' : List Outline} (h' : Uniform (k + bodies.length) act' given' bodies')
    (f : α → β → γ) :
    Uniform k (fun o base => do
        let x ← act o base
        let y ← act' o base
        pure (f x y))
      (fun refs => f (given refs) (given' refs)) (bodies ++ bodies') := by
  intro o base r
  obtain ⟨names, htaking, hlength, h⟩ := h o base r
  obtain ⟨names', htaking', hlength', h'⟩ := h' o base ((act o base).run r).2
  refine ⟨names ++ names', htaking.append htaking', by simp [hlength, hlength'],
    fun name hname => ?_⟩
  have hleft : ∀ i x, names[i]? = some x → name (k + i) = x := by
    intro i x hx
    apply hname
    rw [List.getElem?_append_left (List.getElem?_eq_some_iff.mp hx).1, hx]
  have hright : ∀ i x, names'[i]? = some x → name (k + bodies.length + i) = x := by
    intro i x hx
    rw [Nat.add_assoc, ← hlength]
    apply hname
    rw [List.getElem?_append_right (Nat.le_add_right ..), Nat.add_sub_cancel_left, hx]
  obtain ⟨hgiven, hbodies⟩ := h name hleft
  obtain ⟨hgiven', hbodies'⟩ := h' name hright
  refine ⟨congrArg₂ f hgiven hgiven', fun i body hi => ?_⟩
  rw [List.getElem?_append] at hi
  split at hi
  next => exact htaking'.grows _ _ (hbodies i body hi)
  next hlt =>
    have hnumber : k + i = k + bodies.length + (i - bodies.length) := by omega
    rw [hnumber]
    exact hbodies' _ body hi

/-- A name that is taken has the first number, before those that its body takes. -/
theorem Uniform.mint {v : Node} {body : Outline}
    (h : Uniform (k + 1) (fun o base => walk o base v) (fun refs => body.named refs) bodies) :
    Uniform k (fun o base => mint o base fun name => walk o name v)
      (fun refs => Node.reference (refs k)) (body :: bodies) := by
  intro o base r
  obtain ⟨names, htaking, hlength, h⟩ := h o (r.reserve base).1 (r.reserve base).2
  refine ⟨(r.reserve base).1 :: names, htaking.mint _, by simp [hlength], fun name hname => ?_⟩
  have hfirst : name k = (r.reserve base).1 := hname 0 _ rfl
  have hrest : ∀ i x, names[i]? = some x → name (k + 1 + i) = x := by
    intro i x hx
    rw [Nat.add_assoc, Nat.add_comm 1]
    exact hname (i + 1) x hx
  obtain ⟨hgiven, hbodies⟩ := h name hrest
  refine ⟨congrArg (fun name => Node.reference (o.refTo name)) hfirst.symm, fun i b hi => ?_⟩
  cases i with
  | zero =>
    cases hi
    exact (get?_define ..).trans ((if_pos hfirst).trans (congrArg some hgiven))
  | succ i =>
    have hi : bodies[i]? = some b := hi
    have hlt : i < names.length := hlength ▸ (List.getElem?_eq_some_iff.mp hi).1
    have hne : name (k + 1 + i) ≠ (r.reserve base).1 := by
      rw [hrest i _ (List.getElem?_eq_getElem hlt)]
      exact fun he => htaking.reserved_not_mem (he ▸ List.getElem_mem hlt)
    rw [Nat.add_comm i, ← Nat.add_assoc]
    exact (get?_define ..).trans ((if_neg hne).trans (hbodies i b hi))

/-! ## Walks are uniform -/

def HasOutline (v : Node) : Prop :=
  ∀ k, ∃ (left : Outline) (bodies : List Outline),
    Uniform k (fun o base => walk o base v) (fun refs => left.named refs) bodies

def HasOutlines (v : Node) : Prop := ∀ x, x.Within v → HasOutline x

theorem HasOutlines.self {v : Node} (hv : HasOutlines v) : HasOutline v := hv v .self

theorem HasOutlines.within {v w : Node} (hv : HasOutlines v) (hw : w.Within v) : HasOutlines w :=
  fun x hx => hv x (hx.trans hw)

/-- A place for one schema: an object without a name is moved, and anything else walked. -/
theorem uniform_place {v : Node} (hv : HasOutline v) (k : Nat) :
    ∃ (left : Outline) (bodies : List Outline), Uniform k
      (fun o base => if v.isInlineObject then mint o base fun name => walk o name v
        else walk o base v) (fun refs => left.named refs) bodies := by
  cases hi : v.isInlineObject with
  | true =>
    obtain ⟨body, bodies, h⟩ := hv (k + 1)
    exact ⟨.moved k none, body :: bodies, h.mint⟩
  | false => exact hv k

theorem uniform_branches {xs : List Node} (hx : ∀ x ∈ xs, HasOutline x) (key : String) (i k : Nat) :
    ∃ (lefts bodies : List Outline), Uniform k (fun o base => walkBranches o base key i xs)
      (fun refs => lefts.map (Outline.named refs)) bodies := by
  induction xs generalizing i k with
  | nil => exact ⟨[], [], uniform_pure k []⟩
  | cons x xs ih =>
    obtain ⟨left, bodies, h⟩ := hx x List.mem_cons_self k
    obtain ⟨lefts, bodies', h'⟩ :=
      ih (fun y hy => hx y (List.mem_cons_of_mem _ hy)) (i + 1) (k + bodies.length)
    exact ⟨left :: lefts, bodies ++ bodies', (h.under fun base => branchName base key i).seq h' _⟩

/-- The items of a schema are such a place. -/
theorem uniform_items {m : Entries Node} {v : Node} (hv : HasOutline v)
    (hm : Entries.get? m "items" = some v) (k : Nat) :
    ∃ left bodies, Uniform k (fun o base => walkSite o base .items m)
      (fun refs => some (Outline.named refs left)) bodies := by
  obtain ⟨left, bodies, h⟩ := uniform_place hv k
  refine ⟨left, bodies, ?_⟩
  simp only [walkSite_of_get? (s := .items) hm]
  simp only [walkSite, Site.key, ↓reduceIte]
  exact (h.under itemName).map some

theorem uniform_property {v : Node} (hv : HasOutlines v) (k : Nat) :
    ∃ left bodies, Uniform k (fun o name => walkProperty o name v)
      (fun refs => Outline.named refs left) bodies := by
  cases hi : v.isInlineObject with
  | true =>
    obtain ⟨body, bodies, h⟩ := hv.self (k + 1)
    refine ⟨.moved k v.description?, body :: bodies, ?_⟩
    simp only [walkProperty, hi, ↓reduceIte, Outline.named_moved]
    exact h.mint.map (keepDescription v)
  | false =>
    cases ha : v.isInlineObjectArray with
    | false =>
      simp only [walkProperty, hi, ha, Bool.false_eq_true, ↓reduceIte]
      exact hv.self k
    | true =>
      simp only [walkProperty, hi, ha, Bool.false_eq_true, ↓reduceIte]
      cases v with
      | scalar => cases ha
      | sequence => cases ha
      | mapping m =>
        obtain ⟨x, hx, -⟩ := Node.items_of_isInlineObjectArray ha
        have hx' : HasOutline x := hv x (.value (Entries.mem_of_get? hx) .self)
        obtain ⟨left, bodies, h⟩ := uniform_items hx' hx k
        refine ⟨.mapping (([("items", some left)] : List (String × Option Outline)).foldl
          (fun m p => Outline.setChild p.1 p.2 m) (Outline.ofEntries m)), bodies, ?_⟩
        simp only [Outline.named_foldl_setChild]
        exact h.map fun items => Node.mapping (setChild "items" items m)

theorem uniform_properties {ps : Entries Node} (hp : ∀ p ∈ ps, HasOutlines p.2) (k : Nat) :
    ∃ (lefts : Entries Outline) (bodies : List Outline),
      Uniform k (fun o base => walkProperties o base ps)
        (fun refs => lefts.map fun p => (p.1, p.2.named refs)) bodies := by
  induction ps generalizing k with
  | nil => exact ⟨[], [], uniform_pure k []⟩
  | cons p ps ih =>
    obtain ⟨key, v⟩ := p
    obtain ⟨left, bodies, h⟩ := uniform_property (hp _ List.mem_cons_self) k
    obtain ⟨lefts, bodies', h'⟩ :=
      ih (fun q hq => hp q (List.mem_cons_of_mem _ hq)) (k + bodies.length)
    refine ⟨(key, left) :: lefts, bodies ++ bodies', ?_⟩
    simp only [walkProperties_cons]
    exact (h.under fun base => propertyName base key).seq h' fun v ps => (key, v) :: ps

/-- What a site leaves of a value that it does not walk. -/
theorem uniform_unwalked (v : Node) (k : Nat) :
    ∃ left bodies, Uniform k (fun _ _ => pure (some v))
      (fun refs => Option.map (Outline.named refs) left) bodies := by
  refine ⟨some (.ofNode v), [], ?_⟩
  simp only [Option.map_some, Outline.named_ofNode]
  exact uniform_pure k (some v)

theorem uniform_site (s : Site) {m : Entries Node}
    (hm : ∀ v, Entries.get? m s.key = some v → HasOutlines v) (k : Nat) :
    ∃ left bodies, Uniform k (fun o base => walkSite o base s m)
      (fun refs => Option.map (Outline.named refs) left) bodies := by
  cases hv : Entries.get? m s.key with
  | none =>
    simp only [walkSite_of_get?_eq_none hv]
    exact ⟨none, [], uniform_pure k none⟩
  | some v =>
    have hv' := hm v hv
    simp only [walkSite_of_get? hv]
    cases s with
    | branches key =>
      cases v with
      | sequence xs =>
        have hx : ∀ x ∈ xs, HasOutline x := fun x h => hv' x (.item h .self)
        obtain ⟨lefts, bodies, h⟩ := uniform_branches hx key 0 k
        refine ⟨some (.sequence lefts), bodies, ?_⟩
        simp only [walkSite, ↓reduceIte, Option.map_some, Outline.named_sequence]
        exact h.map fun xs => some (Node.sequence xs)
      | scalar => simp only [walkSite, ↓reduceIte]; exact uniform_unwalked _ k
      | mapping => simp only [walkSite, ↓reduceIte]; exact uniform_unwalked _ k
    | properties =>
      cases v with
      | mapping ps =>
        have hp : ∀ p ∈ ps, HasOutlines p.2 := fun p h => hv'.within (.value h .self)
        obtain ⟨lefts, bodies, h⟩ := uniform_properties hp k
        refine ⟨some (.mapping lefts), bodies, ?_⟩
        simp only [walkSite, ↓reduceIte, Option.map_some, Outline.named_mapping]
        exact h.map fun ps => some (Node.mapping ps)
      | scalar => simp only [walkSite, ↓reduceIte]; exact uniform_unwalked _ k
      | sequence => simp only [walkSite, ↓reduceIte]; exact uniform_unwalked _ k
    | items =>
      obtain ⟨left, bodies, h⟩ := uniform_items hv'.self (m := [("items", v)]) rfl k
      exact ⟨some left, bodies, h⟩
    | furtherProperties =>
      obtain ⟨left, bodies, h⟩ := uniform_place hv'.self k
      refine ⟨some left, bodies, ?_⟩
      simp only [walkSite, ↓reduceIte]
      exact (h.under valueName).map some

theorem uniform_sites {m : Entries Node} (hm : ∀ key v, Entries.get? m key = some v → HasOutlines v)
    (ss : List Site) (k : Nat) :
    ∃ (changes : List (String × Option Outline)) (bodies : List Outline), Uniform k
      (fun o base => ss.mapM fun s => do
        let child ← walkSite o base s m
        pure (s.key, child))
      (fun refs => changes.map fun p => (p.1, p.2.map (Outline.named refs))) bodies := by
  induction ss generalizing k with
  | nil => exact ⟨[], [], uniform_pure k []⟩
  | cons s ss ih =>
    obtain ⟨left, bodies, h⟩ := uniform_site s (hm s.key) k
    obtain ⟨changes, bodies', h'⟩ := ih (k + bodies.length)
    refine ⟨(s.key, left) :: changes, bodies ++ bodies', ?_⟩
    simp only [List.mapM_cons]
    exact (h.map fun child => (s.key, child)).seq h' List.cons

theorem hasOutline_mapping {m : Entries Node} (hm : ∀ p ∈ m, HasOutlines p.2) :
    HasOutline (.mapping m) := by
  intro k
  obtain ⟨changes, bodies, h⟩ :=
    uniform_sites (fun key v hv => hm (key, v) (Entries.mem_of_get? hv)) Site.all k
  refine ⟨.mapping (changes.foldl (fun m p => Outline.setChild p.1 p.2 m)
    (Outline.ofEntries m)), bodies, ?_⟩
  simp only [Outline.named_foldl_setChild]
  exact h.map fun changes => Node.mapping (changes.foldl (fun m p => setChild p.1 p.2 m) m)

theorem hasOutlines (n : Node) : HasOutlines n := by
  induction n using Node.induct with
  | scalar s =>
    intro x hx
    cases hx
    exact fun k => ⟨.scalar s, [], uniform_pure k _⟩
  | sequence xs ih =>
    intro x hx
    cases hx with
    | self =>
      intro k
      refine ⟨.ofNode (.sequence xs), [], ?_⟩
      simp only [Outline.named_ofNode]
      exact uniform_pure k _
    | item hx h => exact ih _ hx x h
  | mapping m ih =>
    intro x hx
    cases hx with
    | self => exact hasOutline_mapping ih
    | value hp h => exact ih _ hp x h

/-- One outline tells all walks of a tree. Whatever the options, the name that the walk starts with
and the registry, the walk takes one name for each body, all of them new and different. With these
names, in the order in which they are taken, the outline is what the walk leaves, and each body is
what it defines under the name of its number. -/
theorem walk_uniform (n : Node) :
    ∃ (left : Outline) (bodies : List Outline), ∀ (o : Options) (base : String) (r : Registry),
      let n' := ((walk o base n).run r).1
      let r' := ((walk o base n).run r).2
      ∃ names : List String, Taking r names r' ∧ names.length = bodies.length ∧ names.Nodup ∧
        (∀ name, name ∈ names ↔ name ∈ fresh r r') ∧
        n' = left.named (fun i => o.refTo (names.getD i "")) ∧
        ∀ (i : Nat) body, bodies[i]? = some body →
          r'.get? (names.getD i "") = some (body.named fun i => o.refTo (names.getD i "")) := by
  obtain ⟨left, bodies, h⟩ := (hasOutlines n).self 0
  refine ⟨left, bodies, fun o base r => ?_⟩
  obtain ⟨names, htaking, hlength, h⟩ := h o base r
  obtain ⟨hleft, hbodies⟩ := h (fun i => names.getD i "") fun i x hx => by simp [hx]
  refine ⟨names, htaking, hlength, htaking.nodup, fun _ => htaking.mem_iff, hleft,
    fun i body hi => ?_⟩
  simpa using hbodies i body hi

end Extraction
end InlineSchema
