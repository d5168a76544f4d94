import InlineSchema.Proofs.Extracted
import InlineSchema.Proofs.Ledger
import InlineSchema.Proofs.Places

/-! # The bodies of definitions

What a walk does is determined by what it finds and the registry. So the body of each definition
that an action adds can be told: it is what a walk under its name leaves of the object in whose
place the reference to it stands.
-/
namespace InlineSchema.Extraction
open Registry

variable {o : Options}

/-! ## A walk has one course -/

def Part.start : Part → Part
  | .node base n _ => .node base n n
  | .sites base ss m _ => .sites base ss m m
  | .site base s v _ => .site base s v v
  | .place name v _ => .place name v v
  | .mint base v _ => .mint base v base
  | .branches base key i xs _ => .branches base key i xs xs
  | .properties base ps _ => .properties base ps ps
  | .property name v _ => .property name v v

theorem Walked.unique {part part' : Part} {r r₁ r₂ : Registry} (h : Walked o part r r₁)
    (h' : Walked o part' r r₂) (hs : part'.start = part.start) : part' = part ∧ r₂ = r₁ := by
  induction h generalizing part' r₂ with
  | leaf hn =>
    cases h' with
    | leaf => cases hs; exact ⟨rfl, rfl⟩
    | mapping => cases hs; cases hn
    | _ => cases hs
  | mapping _ ih =>
    cases h' with
    | leaf hn => cases hs; cases hn
    | mapping h => cases hs; obtain ⟨he, rfl⟩ := ih h rfl; cases he; exact ⟨rfl, rfl⟩
    | _ => cases hs
  | done =>
    cases h' with
    | done => cases hs; exact ⟨rfl, rfl⟩
    | _ => cases hs
  | absent hnone _ ih =>
    cases h' with
    | absent _ h => cases hs; obtain ⟨he, rfl⟩ := ih h rfl; cases he; exact ⟨rfl, rfl⟩
    | present hsome => cases hs; rw [hnone] at hsome; cases hsome
    | _ => cases hs
  | present hsome _ _ ihv ih =>
    cases h' with
    | absent hnone => cases hs; rw [hnone] at hsome; cases hsome
    | present hsome' hw hws =>
      cases hs
      cases hsome.symm.trans hsome'
      obtain ⟨he, rfl⟩ := ihv hw rfl
      cases he
      obtain ⟨he, rfl⟩ := ih hws rfl
      cases he
      exact ⟨rfl, rfl⟩
    | _ => cases hs
  | branches _ ih =>
    cases h' with
    | branches h => cases hs; obtain ⟨he, rfl⟩ := ih h rfl; cases he; exact ⟨rfl, rfl⟩
    | noBranches hn => cases hs; exact absurd rfl (hn _)
    | _ => cases hs
  | noBranches hn =>
    cases h' with
    | branches => cases hs; exact absurd rfl (hn _)
    | noBranches => cases hs; exact ⟨rfl, rfl⟩
    | _ => cases hs
  | properties _ ih =>
    cases h' with
    | properties h => cases hs; obtain ⟨he, rfl⟩ := ih h rfl; cases he; exact ⟨rfl, rfl⟩
    | noProperties hn => cases hs; exact absurd rfl (hn _)
    | _ => cases hs
  | noProperties hn =>
    cases h' with
    | properties => cases hs; exact absurd rfl (hn _)
    | noProperties => cases hs; exact ⟨rfl, rfl⟩
    | _ => cases hs
  | items _ ih =>
    cases h' with
    | items h => cases hs; obtain ⟨he, rfl⟩ := ih h rfl; cases he; exact ⟨rfl, rfl⟩
    | _ => cases hs
  | furtherProperties _ ih =>
    cases h' with
    | furtherProperties h => cases hs; obtain ⟨he, rfl⟩ := ih h rfl; cases he; exact ⟨rfl, rfl⟩
    | _ => cases hs
  | hoisted hi _ ih =>
    cases h' with
    | hoisted _ h => cases hs; obtain ⟨he, rfl⟩ := ih h rfl; cases he; exact ⟨rfl, rfl⟩
    | kept hi' => cases hs; rw [hi] at hi'; cases hi'
    | _ => cases hs
  | kept hi _ ih =>
    cases h' with
    | hoisted hi' => cases hs; rw [hi] at hi'; cases hi'
    | kept _ h => cases hs; obtain ⟨he, rfl⟩ := ih h rfl; cases he; exact ⟨rfl, rfl⟩
    | _ => cases hs
  | mint _ ih =>
    cases h' with
    | mint h => cases hs; obtain ⟨he, rfl⟩ := ih h rfl; cases he; exact ⟨rfl, rfl⟩
    | _ => cases hs
  | lastBranch =>
    cases h' with
    | lastBranch => cases hs; exact ⟨rfl, rfl⟩
    | _ => cases hs
  | branch _ _ ihx ih =>
    cases h' with
    | branch hx hxs =>
      cases hs
      obtain ⟨he, rfl⟩ := ihx hx rfl
      cases he
      obtain ⟨he, rfl⟩ := ih hxs rfl
      cases he
      exact ⟨rfl, rfl⟩
    | _ => cases hs
  | lastProperty =>
    cases h' with
    | lastProperty => cases hs; exact ⟨rfl, rfl⟩
    | _ => cases hs
  | property _ _ ihv ih =>
    cases h' with
    | property hv hps =>
      cases hs
      obtain ⟨he, rfl⟩ := ihv hv rfl
      cases he
      obtain ⟨he, rfl⟩ := ih hps rfl
      cases he
      exact ⟨rfl, rfl⟩
    | _ => cases hs
  | object hi _ ih =>
    cases h' with
    | object _ h => cases hs; obtain ⟨he, rfl⟩ := ih h rfl; cases he; exact ⟨rfl, rfl⟩
    | array hi' => cases hs; rw [hi] at hi'; cases hi'
    | other hi' => cases hs; rw [hi] at hi'; cases hi'
    | _ => cases hs
  | array hi ha hx _ ih =>
    cases h' with
    | object hi' => cases hs; rw [hi] at hi'; cases hi'
    | array _ _ hx' h =>
      cases hs
      cases hx.symm.trans hx'
      obtain ⟨he, rfl⟩ := ih h rfl
      cases he
      exact ⟨rfl, rfl⟩
    | other _ ha' => cases hs; rw [ha] at ha'; cases ha'
    | _ => cases hs
  | other hi ha _ ih =>
    cases h' with
    | object hi' => cases hs; rw [hi] at hi'; cases hi'
    | array _ ha' => cases hs; rw [ha] at ha'; cases ha'
    | other _ _ h => cases hs; obtain ⟨he, rfl⟩ := ih h rfl; cases he; exact ⟨rfl, rfl⟩
    | _ => cases hs

/-- The relation is the graph of the walk. -/
theorem walked_iff {base : String} {n n' : Node} {r r' : Registry} :
    Walked o (.node base n n') r r' ↔ (walk o base n).run r = (n', r') := by
  constructor
  · intro h
    obtain ⟨he, hr⟩ := h.unique (walked o base n r) rfl
    cases he
    exact Prod.ext rfl hr
  · intro h
    have hw := walked o base n r
    rwa [h] at hw

/-! ## The places of references -/

theorem added_left {r r₁ r' : Registry} (h : Grows r₁ r') : added r r₁ ⊆ added r r' := by
  intro p hp
  obtain ⟨hnone, hsome⟩ := mem_added.mp hp
  exact mem_added.mpr ⟨hnone, h _ _ hsome⟩

theorem added_right {r r₁ r' : Registry} (h : Grows r r₁) : added r₁ r' ⊆ added r r' := by
  intro p hp
  obtain ⟨hnone, hsome⟩ := mem_added.mp hp
  exact mem_added.mpr ⟨h.eq_none hnone, hsome⟩

/-- The node is moved when it is met as a payload, and stands in the tree. -/
def MovedFrom (tree x : Node) : Prop :=
  x.Within tree ∧ (x.isInlineObject || x.isComposition) = true

/-- Where the object `x` stood in `n`, the reference to this name stands in what `n` has become: in
the tree itself, or in the new body of another object, for which the same holds. -/
inductive Marked (o : Options) (new : Entries Node) (name : String) (x : Node) : Node → Node → Prop
  | here {p : Place} (h : p.moves x = true) : Marked o new name x x (p.mark x (o.refTo name))
  | inside {p : Place} {y body : Node} {other : String} (h : p.moves y = true)
      (hbody : (other, body) ∈ new) (hy : Marked o new name x y body) :
      Marked o new name x y (p.mark y (o.refTo other))
  | item {xs xs' : List Node} {y y' : Node} (hy : (y, y') ∈ xs.zip xs')
      (h : Marked o new name x y y') : Marked o new name x (.sequence xs) (.sequence xs')
  | value {m m' : Entries Node} {key : String} {v v' : Node}
      (hv : ((key, v), (key, v')) ∈ m.zip m') (h : Marked o new name x v v') :
      Marked o new name x (.mapping m) (.mapping m')

section
variable {new : Entries Node} {name : String} {x n n' v v' : Node} {r r' r₁ r₁' R : Registry}

theorem Marked.movedFrom (h : Marked o new name x n n') : MovedFrom n x := by
  induction h with
  | @here p h =>
    refine ⟨.self, ?_⟩
    cases p with
    | definition | branch => cases h
    | payload => exact h
    | property | items | furtherProperties => exact Bool.or_eq_true_iff.mpr (.inl h)
  | inside _ _ _ ih => exact ih
  | item hy _ ih => exact ⟨ih.1.trans (.item (List.of_mem_zip hy).1 .self), ih.2⟩
  | value hv _ ih => exact ⟨ih.1.trans (.value (List.of_mem_zip hv).1 .self), ih.2⟩

theorem Marked.of_get? {key : String} (hshape : n'.shape = n.shape) (hv : n.get? key = some v)
    (hv' : n'.get? key = some v') (h : Marked o new name x v v') : Marked o new name x n n' := by
  cases n with
  | scalar | sequence => cases hv
  | mapping m =>
    cases n' with
    | scalar | sequence => cases hv'
    | mapping m' =>
      obtain ⟨w, hw, hzip⟩ := Entries.exists_mem_zip_of_get? (Shape.mapping.inj hshape).symm hv
      cases hw.symm.trans hv'
      exact .value hzip h

def Mints (o : Options) (x : Node) (name : String) (r r' : Registry) : Prop :=
  ∃ (base : String) (s s' : Registry), Walked o (.mint base x name) s s' ∧ added s s' ⊆ added r r'

/-- On the way from one registry to the other, an object is moved under this name, and `C` tells
where it stood. -/
def Traced (o : Options) (name : String) (r r' : Registry) (C : Entries Node → Node → Prop) :
    Prop :=
  ∃ x, Mints o x name r r' ∧ ∀ new, added r r' ⊆ new → C new x

variable {C C' : Entries Node → Node → Prop}

theorem Traced.mono (h : Traced o name r₁ r₁' C) (hsub : added r₁ r₁' ⊆ added r r')
    (hC : ∀ new x, added r r' ⊆ new → C new x → C' new x) : Traced o name r r' C' := by
  obtain ⟨x, ⟨base, s, s', hmint, hadded⟩, hx⟩ := h
  exact ⟨x, ⟨base, s, s', hmint, List.Subset.trans hadded hsub⟩, fun new hnew =>
    hC new x hnew (hx new (List.Subset.trans hsub hnew))⟩

theorem Traced.imp (h : Traced o name r r' C) (hC : ∀ new x, C new x → C' new x) :
    Traced o name r r' C' :=
  h.mono (List.Subset.refl _) fun new x _ => hC new x

theorem traced_refl (r : Registry) (C : String → Entries Node → Node → Prop) :
    ∀ name ∈ fresh r r, Traced o name r r (C name) := by
  intro name hn
  simp [fresh_refl] at hn

theorem Mints.copied (h : Mints o x name r r') (hR : Grows r' R) : Copied o R name x := by
  obtain ⟨base, s, s', hmint, hadded⟩ := h
  refine hmint.arranged (fun k hk => ?_) trivial
  obtain ⟨body, hbody⟩ := Option.ne_none_iff_exists'.mp hk.2
  obtain ⟨-, hsome⟩ := mem_added.mp (hadded (mem_added (p := (k, body)).mpr ⟨hk.1, hbody⟩))
  rw [hbody]
  exact hR _ _ hsome

/-- The body is what a walk under the name leaves of the object, while the name was reserved. -/
def Minted (o : Options) (x : Node) (name : String) (body : Node) : Prop :=
  ∃ s : Registry, s.get? name = some Node.emptyMapping ∧ body = ((walk o name x).run s).1

/-- An object without a name or a composition has a key, and keeps it. -/
theorem Minted.ne_emptyMapping {body : Node} (h : Minted o x name body)
    (hx : (x.isInlineObject || x.isComposition) = true) :
    body.isMapping = true ∧ body ≠ Node.emptyMapping := by
  obtain ⟨s, -, rfl⟩ := h
  have hagree : AgreeOutside Site.all x ((walk o name x).run s).1 :=
    (walked o name x s).agreeOutside
  rw [← hagree.isInlineObject, ← hagree.isComposition] at hx
  constructor
  · obtain ⟨m, he, -⟩ := Node.mapping_of_moved hx
    rw [he]
    rfl
  · intro he
    rw [he] at hx
    cases hx

theorem Mints.minted (h : Mints o x name r r') {body : Node} (hbody : r'.get? name = some body) :
    Minted o x name body := by
  obtain ⟨base, s, s', hmint, hadded⟩ := h
  cases hmint with
  | @mint _ _ stored _ s' hw =>
    have hmem := hadded (mem_added (p := ((s.reserve base).1, stored)).mpr
      ⟨reserve_free s base, (get?_define ..).trans (if_pos rfl)⟩)
    cases (mem_added.mp hmem).2.symm.trans hbody
    refine ⟨(s.reserve base).2, ?_, ?_⟩
    · rw [get?_reserve, if_pos rfl]
    · rw [walked_iff.mp hw]

def Part.Marked (o : Options) (new : Entries Node) (name : String) (x : Node) : Part → Prop
  | .node _ n n' | .site _ _ n n' | .place _ n n' | .property _ n n' =>
    Extraction.Marked o new name x n n'
  | .sites _ ss m m' => ∃ s ∈ ss, ∃ v v', Entries.get? m s.key = some v ∧
      Entries.get? m' s.key = some v' ∧ Extraction.Marked o new name x v v'
  | .mint _ v other => other = name ∧ v = x ∨
      ∃ body, (other, body) ∈ new ∧ Extraction.Marked o new name x v body
  | .branches _ _ _ xs xs' => ∃ y y', (y, y') ∈ xs.zip xs' ∧ Extraction.Marked o new name x y y'
  | .properties _ ps ps' => ∃ key v v', ((key, v), (key, v')) ∈ ps.zip ps' ∧
      Extraction.Marked o new name x v v'

theorem Part.Marked.mark {base other : String} (p : Place) (hv : p.moves v = true)
    (h : (Part.mint base v other).Marked o new name x) :
    Extraction.Marked o new name x v (p.mark v (o.refTo other)) := by
  rcases h with ⟨rfl, rfl⟩ | ⟨body, hbody, h⟩
  · exact .here hv
  · exact .inside hv hbody h

/-- A walk takes a name only for an object that it moves, and leaves the reference in its place. -/
theorem Walked.traced {part : Part} (h : Walked o part r r') :
    part.Once → ∀ name ∈ fresh r r', Traced o name r r' fun new x => part.Marked o new name x := by
  induction h with
  | leaf | done | noBranches | noProperties | lastBranch | lastProperty =>
    exact fun _ => traced_refl _ _
  | mapping hw ih =>
    intro _ name hn
    refine (ih Site.nodup_keys name hn).imp fun new x ⟨s, _, v, v', hv, hv', hmarked⟩ => ?_
    have hk := (hw.moves _ subset_rfl (Grows.refl _).keeps Site.nodup_keys).1
    exact .of_get? (congrArg Shape.mapping hk.symm) hv hv' hmarked
  | absent _ _ ih =>
    intro honce name hn
    refine (ih (List.nodup_cons.mp honce).2 name hn).imp fun new x ⟨s, hs, hmarked⟩ => ?_
    exact ⟨s, List.mem_cons_of_mem _ hs, hmarked⟩
  | @present base s ss m m' v v' r r₁ r' hv hw hws ihv ih =>
    intro honce name hn
    obtain ⟨hnot, honce⟩ := List.nodup_cons.mp honce
    rcases mem_fresh_trans hn with hn | hn
    · refine (ihv trivial name hn).mono (added_left hws.grows) fun new x _ hmarked => ?_
      -- The key is not visited again, so its new value is the one that stays.
      have hstays : Entries.get? m' s.key = some v' := by
        have hagree : AgreeOutside ss _ (.mapping m') := hws.agreeOutside
        have hother := hagree.other s.key hnot
        rw [Node.get?_mapping, Node.get?_mapping, Entries.get?_modify_self, hv] at hother
        exact hother
      exact ⟨s, List.mem_cons_self, v, v', hv, hstays, hmarked⟩
    · refine (ih honce name hn).mono (added_right hw.grows) fun new x _ hmarked => ?_
      obtain ⟨t, ht, w, w', hget, hget', hmarked⟩ := hmarked
      have hne : t.key ≠ s.key := fun he => hnot (he ▸ List.mem_map_of_mem ht)
      rw [Entries.get?_modify_of_ne _ _ hne] at hget
      exact ⟨t, List.mem_cons_of_mem _ ht, w, w', hget, hget', hmarked⟩
  | branches _ ih =>
    intro _ name hn
    exact (ih trivial name hn).imp fun new x ⟨y, y', hy, hmarked⟩ => .item hy hmarked
  | properties _ ih =>
    intro _ name hn
    exact (ih trivial name hn).imp fun new x ⟨key, v, v', hv, hmarked⟩ => .value hv hmarked
  | items _ ih | furtherProperties _ ih | kept _ _ ih | other _ _ _ ih => exact ih
  | hoisted hi _ ih =>
    intro _ name hn
    exact (ih trivial name hn).imp fun new x hmarked => hmarked.mark .items hi
  | object hi _ ih =>
    intro _ name hn
    refine (ih trivial name hn).imp fun new x hmarked => ?_
    rw [Part.Marked, ← Place.mark_property]
    exact hmarked.mark .property hi
  | array _ ha hx _ ih =>
    intro _ name hn
    obtain ⟨x, hx', hi⟩ := Node.items_of_isInlineObjectArray ha
    cases hx.symm.trans hx'
    refine (ih trivial name hn).imp fun new y hmarked => ?_
    refine .of_get? (congrArg Shape.mapping (Entries.keys_modify ..)) hx ?_ (hmarked.mark .items hi)
    rw [Node.get?_mapping, Entries.get?_modify_self, hx]
    rfl
  | @mint base v body r r' hw ih =>
    intro _ name hn
    have hadded := added_mint r r' base body
    rcases eq_or_mem_of_mem_fresh_mint hn with rfl | hn
    · exact ⟨v, ⟨base, r, _, .mint hw, List.Subset.refl _⟩, fun _ _ => .inl ⟨rfl, rfl⟩⟩
    · refine (ih trivial name hn).mono (fun p hp => hadded.mem_iff.mpr (List.mem_cons_of_mem _ hp))
        fun new x hnew hmarked => .inr ⟨body, hnew (hadded.mem_iff.mpr List.mem_cons_self), hmarked⟩
  | branch hx hxs ihx ih =>
    intro _ name hn
    rcases mem_fresh_trans hn with hn | hn
    · refine (ihx trivial name hn).mono (added_left hxs.grows) fun new x _ hmarked => ?_
      exact ⟨_, _, List.mem_cons_self, hmarked⟩
    · refine (ih trivial name hn).mono (added_right hx.grows) fun new x _ hmarked => ?_
      obtain ⟨y, y', hy, hmarked⟩ := hmarked
      exact ⟨y, y', List.mem_cons_of_mem _ hy, hmarked⟩
  | property hv hps ihv ih =>
    intro _ name hn
    rcases mem_fresh_trans hn with hn | hn
    · refine (ihv trivial name hn).mono (added_left hps.grows) fun new x _ hmarked => ?_
      exact ⟨_, _, _, List.mem_cons_self, hmarked⟩
    · refine (ih trivial name hn).mono (added_right hv.grows) fun new x _ hmarked => ?_
      obtain ⟨key, w, w', hw, hmarked⟩ := hmarked
      exact ⟨key, w, w', List.mem_cons_of_mem _ hw, hmarked⟩

/-! ## Actions on documents -/

/-- The action extends the registry, and takes a name only for an object that it moves, whose place
is told by what it leaves. -/
def Tracing (o : Options) (f : Node → StateM Registry Node) : Prop :=
  ∀ n r, Grows r ((f n).run r).2 ∧ ∀ name ∈ fresh r ((f n).run r).2,
    Traced o name r ((f n).run r).2 fun new x => Marked o new name x n ((f n).run r).1

theorem tracing_pure : Tracing o pure := fun _ r => ⟨Grows.refl r, traced_refl r _⟩

theorem tracing_walk (base : String) : Tracing o (walk o base) := fun n r =>
  have h := walked o base n r
  ⟨h.grows, h.traced trivial⟩

theorem tracing_payload (base : String) : Tracing o (payload o base) := by
  intro n r
  rcases walked_payload (o := o) base n r with ⟨hi, h, he⟩ | ⟨-, h⟩
  · refine ⟨h.grows, fun name hn => (h.traced trivial name hn).imp fun new x hmarked => ?_⟩
    rw [he]
    exact hmarked.mark .payload hi
  · exact ⟨h.grows, h.traced trivial⟩

variable {f : Node → StateM Registry Node} {key : String}

theorem shape_onChild (n : Node) (r : Registry) : ((n.onChild key f).run r).1.shape = n.shape := by
  cases n with
  | scalar | sequence => rfl
  | mapping m =>
    cases hv : Entries.get? m key with
    | none => rw [onChild_of_none hv]; rfl
    | some v =>
      rw [run_onChild hv]
      exact congrArg Shape.mapping (Entries.keys_modify ..)

theorem Tracing.at_child (hf : Tracing o f) (key : String) (n : Node) (r : Registry) :
    let x := (n.onChild key f).run r
    Grows r x.2 ∧ ∀ name ∈ fresh r x.2, Traced o name r x.2 fun new y =>
      ∃ v v', n.get? key = some v ∧ x.1.get? key = some v' ∧ Marked o new name y v v' := by
  intro x
  cases hv : n.get? key with
  | none =>
    simp only [x, onChild_of_get?_eq_none hv]
    exact ⟨Grows.refl r, traced_refl r _⟩
  | some v =>
    obtain ⟨hget, hregistry⟩ := get?_onChild (f := f) hv r
    obtain ⟨hgrows, htraced⟩ := hf v r
    simp only [x, hregistry]
    exact ⟨hgrows, fun name hn => (htraced name hn).imp fun new y hmarked =>
      ⟨v, _, rfl, hget, hmarked⟩⟩

theorem Tracing.onChild (hf : Tracing o f) (key : String) : Tracing o (Node.onChild key f) := by
  intro n r
  obtain ⟨hgrows, htraced⟩ := hf.at_child key n r
  refine ⟨hgrows, fun name hn => (htraced name hn).imp fun new x ⟨v, v', hv, hv', hmarked⟩ => ?_⟩
  exact .of_get? (shape_onChild n r) hv hv' hmarked

/-- Two changes of different keys. -/
theorem Tracing.onChild_onChild {f₁ f₂ : Node → StateM Registry Node} {key₁ key₂ : String}
    (hne : key₁ ≠ key₂) (h₁ : Tracing o f₁) (h₂ : Tracing o f₂) :
    Tracing o (fun n => n.onChild key₁ f₁ >>= Node.onChild key₂ f₂) := by
  intro n r
  rw [run_bind]
  generalize hrun : (n.onChild key₁ f₁).run r = middle
  obtain ⟨hgrows₁, htraced₁⟩ := h₁.at_child key₁ n r
  obtain ⟨hgrows₂, htraced₂⟩ := h₂.at_child key₂ middle.1 middle.2
  have hshape : (((middle.1.onChild key₂ f₂).run middle.2).1).shape = n.shape := by
    rw [shape_onChild, ← hrun, shape_onChild]
  rw [hrun] at hgrows₁ htraced₁
  refine ⟨hgrows₁.trans hgrows₂, fun name hn => ?_⟩
  rcases mem_fresh_trans hn with hn | hn
  · refine (htraced₁ name hn).mono (added_left hgrows₂) fun new x _ hx => ?_
    obtain ⟨v, v', hv, hv', hmarked⟩ := hx
    exact .of_get? hshape hv ((get?_onChild_of_ne hne ..).trans hv') hmarked
  · refine (htraced₂ name hn).mono (added_right hgrows₁) fun new x _ hx => ?_
    obtain ⟨v, v', hv, hv', hmarked⟩ := hx
    rw [← hrun, get?_onChild_of_ne hne.symm] at hv
    exact .of_get? hshape hv hv' hmarked

theorem tracing_entries {f : String → Node → StateM Registry Node} (hf : ∀ key, Tracing o (f key))
    (m : Entries Node) (r : Registry) :
    let x := changed f m r
    Grows r x.2 ∧ ∀ name ∈ fresh r x.2, Traced o name r x.2 fun new y =>
      ∃ key v v', ((key, v), (key, v')) ∈ m.zip x.1 ∧ Marked o new name y v v' := by
  induction m generalizing r with
  | nil => exact ⟨Grows.refl r, traced_refl r _⟩
  | cons p m ih =>
    obtain ⟨hgrows, hhead⟩ := hf p.1 p.2 r
    obtain ⟨hgrows', htail⟩ := ih ((f p.1 p.2).run r).2
    refine ⟨hgrows.trans hgrows', fun name hn => ?_⟩
    rcases mem_fresh_trans hn with hn | hn
    · refine (hhead name hn).mono (added_left hgrows') fun new x _ hmarked => ?_
      exact ⟨p.1, p.2, _, List.mem_cons_self, hmarked⟩
    · refine (htail name hn).mono (added_right hgrows) fun new x _ hx => ?_
      obtain ⟨key, v, v', hv, hmarked⟩ := hx
      exact ⟨key, v, v', List.mem_cons_of_mem _ hv, hmarked⟩

theorem Tracing.onEntries {f : String → Node → StateM Registry Node}
    (hf : ∀ key, Tracing o (f key)) : Tracing o (Node.onEntries f) := by
  intro n r
  cases n with
  | scalar | sequence => exact tracing_pure _ r
  | mapping m =>
    rw [run_onEntries]
    obtain ⟨hgrows, htraced⟩ := tracing_entries hf m r
    refine ⟨hgrows, fun name hn => (htraced name hn).imp fun new x ⟨key, v, v', hv, hmarked⟩ => ?_⟩
    exact .value hv hmarked

theorem tracing_content (name : String) : Tracing o (content o name) := by
  intro n r
  unfold content
  cases n.isReference with
  | true => exact tracing_pure n r
  | false =>
    exact Tracing.onChild (.onEntries fun _ => (tracing_payload name).onChild "schema") "content"
      n r

theorem tracing_operation : Tracing o (operation o) := by
  intro n r
  unfold operation
  cases operationName? n with
  | none => exact tracing_pure n r
  | some name =>
    exact Tracing.onChild_onChild (by decide)
      (.onEntries fun status => tracing_content (responseName name status))
      (tracing_content (requestName name)) n r

theorem tracing_paths : Tracing o (paths o) := by
  refine Tracing.onChild (.onEntries fun _ => .onEntries fun key => ?_) "paths"
  cases methods.contains key with
  | false => exact tracing_pure
  | true => exact tracing_operation

theorem Marked.modifyAt? {keys : List String} (hn : n.lookup keys = some v)
    (hn' : n.modifyAt? (fun _ => v') keys = some n') (h : Marked o new name x v v') :
    Marked o new name x n n' := by
  induction keys generalizing n n' with
  | nil =>
    cases hn
    cases hn'
    exact h
  | cons key keys ih =>
    obtain ⟨m, child, rfl, hget, hv⟩ := Node.lookup_cons_eq_some hn
    simp only [Node.modifyAt?, hget] at hn'
    obtain ⟨child', hchild', rfl⟩ := Option.map_eq_some_iff.mp hn'
    refine .of_get? (congrArg Shape.mapping (Entries.keys_modify ..)) hget ?_ (ih hv hchild')
    rw [Node.get?_mapping, Entries.get?_modify_self, hget]
    rfl

theorem tracing_schemas : Tracing o (schemas o) := by
  intro doc r
  by_cases h : ∃ table, doc.lookup o.definitionsPath = some (.mapping table)
  · obtain ⟨table, htable⟩ := h
    obtain ⟨doc₁, hrun, hm, -⟩ := schemas_of_lookup htable r
    obtain ⟨hgrows, htraced⟩ := Tracing.onEntries (tracing_walk (o := o)) (.mapping table) r
    rw [hrun]
    exact ⟨hgrows, fun name hn => (htraced name hn).imp fun new x hmarked =>
      hmarked.modifyAt? htable hm⟩
  · unfold schemas
    split
    next table htable => exact absurd ⟨table, htable⟩ h
    next => exact tracing_pure doc r

/-- Each definition was there before, or has been minted from an object in the tree. -/
theorem Tracing.minted (hf : Tracing o f) {body : Node}
    (hbody : ((f n).run r).2.get? name = some body) :
    r.get? name = some body ∨ ∃ x, MovedFrom n x ∧ Minted o x name body := by
  obtain ⟨hgrows, htraced⟩ := hf n r
  cases hr : r.get? name with
  | some before =>
    rw [hgrows name before hr] at hbody
    exact .inl hbody
  | none =>
    obtain ⟨x, hmints, hmarked⟩ := htraced name ⟨hr, by simp [hbody]⟩
    exact .inr ⟨x, (hmarked _ (List.Subset.refl _)).movedFrom, hmints.minted hbody⟩

end

end InlineSchema.Extraction
