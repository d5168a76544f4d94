import InlineSchema.Proofs.Walked

/-! # What a walk moves

A walk adds definitions to the registry and changes none that it finds there. Between the tree
that it finds and the tree that it leaves there is no other difference than references in place
of objects, whose own walked forms the registry holds.
-/
namespace InlineSchema

namespace Registry

/-- Every definition of the first registry is a definition of the second. -/
def Grows (r r' : Registry) : Prop := ∀ name body, r.get? name = some body → r'.get? name = some body

theorem Grows.refl (r : Registry) : Grows r r := fun _ _ h => h

theorem Grows.trans {r₁ r₂ r₃ : Registry} (h : Grows r₁ r₂) (h' : Grows r₂ r₃) : Grows r₁ r₃ :=
  fun name body hb => h' name body (h name body hb)

/-- The names that the second registry has beyond the first. -/
def fresh (r r' : Registry) : Set String := {name | r.get? name = none ∧ r'.get? name ≠ none}

theorem fresh_refl (r : Registry) : fresh r r = ∅ :=
  Set.eq_empty_iff_forall_notMem.mpr fun _ h => h.2 h.1

theorem Grows.eq_none {r r' : Registry} (h : Grows r r') {name : String}
    (hn : r'.get? name = none) : r.get? name = none := by
  cases hr : r.get? name with
  | none => rfl
  | some body =>
    rw [h name body hr] at hn
    cases hn

theorem Grows.ne_none {r r' : Registry} (h : Grows r r') {name : String}
    (hn : r.get? name ≠ none) : r'.get? name ≠ none := fun hc => hn (h.eq_none hc)

theorem Grows.get?_eq {r r' : Registry} (h : Grows r r') {name : String}
    (hn : r.get? name ≠ none) : r'.get? name = r.get? name := by
  obtain ⟨body, hb⟩ := Option.ne_none_iff_exists'.mp hn
  rw [hb, h name body hb]

theorem fresh_left {r r₁ r' : Registry} (h : Grows r₁ r') : fresh r r₁ ⊆ fresh r r' :=
  fun _ hn => ⟨hn.1, h.ne_none hn.2⟩

theorem fresh_right {r r₁ r' : Registry} (h : Grows r r₁) : fresh r₁ r' ⊆ fresh r r' :=
  fun _ hn => ⟨h.eq_none hn.1, hn.2⟩

theorem mem_fresh_trans {r r₁ r' : Registry} {name : String} (h : name ∈ fresh r r') :
    name ∈ fresh r r₁ ∨ name ∈ fresh r₁ r' := by
  by_cases h₁ : r₁.get? name = none
  · exact .inr ⟨h₁, h.2⟩
  · exact .inl ⟨h.1, h₁⟩

/-- The two halves of a course take different names. -/
theorem fresh_disjoint {r r₁ r' : Registry} : Disjoint (fresh r r₁) (fresh r₁ r') :=
  Set.disjoint_left.mpr fun _ hn hn' => hn.2 hn'.1

/-- A registry that has the definitions taken between two others, as the second has them. -/
def Keeps (R r r' : Registry) : Prop := ∀ name ∈ fresh r r', R.get? name = r'.get? name

theorem Grows.keeps {R r r' : Registry} (h : Grows r' R) : Keeps R r r' :=
  fun _ hn => h.get?_eq hn.2

theorem Keeps.left {R r r₁ r' : Registry} (hR : Keeps R r r') (h : Grows r₁ r') :
    Keeps R r r₁ := fun name hn => (hR name (fresh_left h hn)).trans (h.get?_eq hn.2)

theorem Keeps.right {R r r₁ r' : Registry} (hR : Keeps R r r') (h : Grows r r₁) :
    Keeps R r₁ r' := fun name hn => hR name (fresh_right h hn)

/-! ## Taking one name -/

variable {r r' : Registry} {base : String}

theorem grows_reserve (r : Registry) (base : String) : Grows r (r.reserve base).2 := by
  intro name body h
  rw [get?_reserve, if_neg, h]
  rintro rfl
  rw [reserve_free] at h
  cases h

/-- The body that is stored replaces the empty body alone. -/
theorem grows_mint (h : Grows (r.reserve base).2 r') (body : Node) :
    Grows r (r'.define (r.reserve base).1 body) := by
  intro name b hb
  have hne : name ≠ (r.reserve base).1 := by
    rintro rfl
    rw [reserve_free] at hb
    cases hb
  rw [get?_define, if_neg hne]
  exact h name b (grows_reserve r base name b hb)

theorem mem_fresh_mint (body : Node) :
    (r.reserve base).1 ∈ fresh r (r'.define (r.reserve base).1 body) := by
  refine ⟨reserve_free r base, ?_⟩
  rw [get?_define, if_pos rfl]
  exact Option.some_ne_none body

theorem fresh_mint (body : Node) :
    fresh (r.reserve base).2 r' ⊆
      fresh r (r'.define (r.reserve base).1 body) \ {(r.reserve base).1} := by
  rintro name ⟨hn, hn'⟩
  have hne : name ≠ (r.reserve base).1 := by
    rintro rfl
    rw [get?_reserve, if_pos rfl] at hn
    cases hn
  refine ⟨⟨(grows_reserve r base).eq_none hn, ?_⟩, hne⟩
  rwa [get?_define, if_neg hne]

/-- Beside the name that is reserved only those are new that are taken after it. -/
theorem eq_or_mem_of_mem_fresh_mint {body : Node} {name : String}
    (h : name ∈ fresh r (r'.define (r.reserve base).1 body)) :
    name = (r.reserve base).1 ∨ name ∈ fresh (r.reserve base).2 r' := by
  by_cases hname : name = (r.reserve base).1
  · exact .inl hname
  · refine .inr ⟨?_, ?_⟩
    · rw [get?_reserve, if_neg hname]
      exact h.1
    · have hdefined := h.2
      rwa [get?_define, if_neg hname] at hdefined

theorem Keeps.mint {R : Registry} {body : Node}
    (hR : Keeps R r (r'.define (r.reserve base).1 body)) : Keeps R (r.reserve base).2 r' := by
  intro name hn
  obtain ⟨hm, hne⟩ := fresh_mint body hn
  exact (hR name hm).trans ((get?_define ..).trans (if_neg hne))

end Registry

namespace Extraction
open Registry

variable {o : Options}

/-- A walk never changes a definition that it finds. -/
theorem Walked.grows {part : Part} {r r' : Registry} (h : Walked o part r r') : Grows r r' := by
  induction h with
  | leaf | done | noBranches | noProperties | lastBranch | lastProperty => exact Grows.refl _
  | mapping _ ih | absent _ _ ih | branches _ ih | properties _ ih | items _ ih
  | furtherProperties _ ih | hoisted _ _ ih | kept _ _ ih | object _ _ ih | array _ _ _ _ ih
  | other _ _ _ ih => exact ih
  | present _ _ _ ihv ih | branch _ _ ihv ih | property _ _ ihv ih => exact ihv.trans ih
  | mint _ ih => exact grows_mint ih _

def Part.base : Part → String
  | .node base _ _ | .sites base _ _ _ | .site base _ _ _ | .place base _ _ | .mint base _ _
  | .branches base _ _ _ _ | .properties base _ _ | .property base _ _ => base

/-- What is appended to a name for the name of something inside it. -/
inductive Appended : String → Prop
  | word (text : String) : Appended (Naming.pascalCase text)
  | number (n : Nat) : Appended n.repr
  | item : Appended "Item"
  | value : Appended "Value"

/-- A walk takes only names that come from its own by appending. -/
theorem Walked.names {P : String → Prop} (hP : ∀ base s, Appended s → P base → P (base ++ s))
    {part : Part} {r r' : Registry} (h : Walked o part r r') :
    P part.base → ∀ name ∈ fresh r r', P name := by
  induction h with
  | leaf | done | noBranches | noProperties | lastBranch | lastProperty =>
    intro _ name hn
    rw [fresh_refl] at hn
    exact absurd hn (Set.notMem_empty name)
  | mapping _ ih | absent _ _ ih | branches _ ih | properties _ ih | hoisted _ _ ih | kept _ _ ih
  | object _ _ ih | other _ _ _ ih => exact ih
  | items _ ih | array _ _ _ _ ih => exact fun hb => ih (hP _ _ .item hb)
  | furtherProperties _ ih => exact fun hb => ih (hP _ _ .value hb)
  | present _ _ _ ihv ih =>
    intro hb name hn
    rcases mem_fresh_trans hn with hn | hn
    · exact ihv hb name hn
    · exact ih hb name hn
  | branch _ _ ihx ih =>
    intro hb name hn
    rcases mem_fresh_trans hn with hn | hn
    · exact ihx (hP _ _ (.number _) (hP _ _ (.word _) hb)) name hn
    · exact ih hb name hn
  | property _ _ ihv ih =>
    intro hb name hn
    rcases mem_fresh_trans hn with hn | hn
    · exact ihv (hP _ _ (.word _) hb) name hn
    · exact ih hb name hn
  | @mint base v body r r' _ ih =>
    intro hb name hn
    have hbase : P (r.reserve base).1 := by
      change P (r.uniqueName base)
      rcases uniqueName_eq r base with he | ⟨n, he⟩
      · rw [he]
        exact hb
      · rw [he]
        exact hP _ _ (.number _) hb
    rcases eq_or_mem_of_mem_fresh_mint hn with rfl | hn
    · exact hbase
    · exact ih hbase name hn

/-- Only under the empty name could a walk take it. -/
theorem Walked.get?_empty_name {part : Part} {r r' : Registry} (h : Walked o part r r')
    (hb : part.base ≠ "") (hr : r.get? "" = none) : r'.get? "" = none := by
  by_contra hr'
  have hP : ∀ base s, Appended s → base ≠ "" → base ++ s ≠ "" := fun base s _ hb he =>
    hb (String.append_eq_empty_iff.mp he).1
  exact h.names hP hb "" ⟨hr, hr'⟩ rfl

/-- How the comparison reads a mapping: as a schema, or as a table of properties, in which it keeps
every key. Where the comparison does not matter it may be either. -/
inductive ReadAs where
  | schema
  | table
  | either
deriving DecidableEq

def ReadAs.inside : ReadAs → ReadAs
  | .either => .either
  | _ => .schema

def ReadAs.under (key : String) : ReadAs → ReadAs
  | .schema => if key == "properties" then .table else .schema
  | .table => .schema
  | .either => .either

theorem ReadAs.under_of_ne {g : ReadAs} {key : String} (hg : g ≠ .either)
    (hkey : key ≠ "properties") : g.under key = .schema := by
  cases g with
  | schema => simp [under, hkey]
  | table => rfl
  | either => exact absurd rfl hg

theorem ReadAs.under_ne_either {g : ReadAs} (hg : g ≠ .either) (key : String) :
    g.under key ≠ .either := by
  cases g with
  | schema => rw [under]; split <;> decide
  | table => exact ReadAs.noConfusion
  | either => exact absurd rfl hg

theorem ReadAs.eq_of_under_eq_table {g : ReadAs} {key : String} (h : g.under key = .table) :
    key = "properties" := by
  cases g with
  | schema =>
    rw [under] at h
    split at h
    next hk => exact eq_of_beq hk
    next => cases h
  | table => cases h
  | either => cases h

theorem ReadAs.inside_of_ne {g : ReadAs} (hg : g ≠ .either) : g.inside = .schema := by
  cases g with
  | schema => rfl
  | table => rfl
  | either => exact absurd rfl hg

/-- Between `n` and `n'` there is no other difference than references to definitions of `R`, whose
bodies come from the objects that stood there in the same way. The names are taken from `names`,
and no name stands inside its own definition. Only an entry of a mapping can move, and only where
it is not read as a table of properties. -/
inductive Moved (o : Options) (R : Registry) :
    Set String → (entry : Bool) → ReadAs → Node → Node → Prop
  | scalar {names : Set String} {entry : Bool} {g : ReadAs} (s : Scalar) :
      Moved o R names entry g (.scalar s) (.scalar s)
  | sequence {names : Set String} {entry : Bool} {g : ReadAs} {xs xs' : List Node}
      (hl : xs.length = xs'.length)
      (h : ∀ p ∈ xs.zip xs', Moved o R names false g.inside p.1 p.2) :
      Moved o R names entry g (.sequence xs) (.sequence xs')
  | mapping {names : Set String} {entry : Bool} {g : ReadAs} {m m' : Entries Node}
      (hk : Entries.keys m = Entries.keys m')
      (h : ∀ p ∈ m.zip m', Moved o R names true (g.under p.1.1) p.1.2 p.2.2) :
      Moved o R names entry g (.mapping m) (.mapping m')
  | minted {names : Set String} {g : ReadAs} {name : String} {m : Entries Node} {body n' : Node}
      (hg : g ≠ .table) (hname : name ∈ names) (hR : R.get? name = some body)
      (href : (Node.mapping m).isReference = false)
      (h : Moved o R (names \ {name}) false g (.mapping m) body)
      (hn' : n' = Node.reference (o.refTo name) ∨
        ∃ d, n' = documented d (Node.reference (o.refTo name))) :
      Moved o R names true g (.mapping m) n'

variable {R : Registry}

theorem Moved.refl (n : Node) : ∀ (names : Set String) (entry : Bool) (g : ReadAs),
    Moved o R names entry g n n := by
  induction n using Node.induct with
  | scalar s => exact fun _ _ _ => .scalar s
  | sequence xs ih =>
    refine fun names _ _ => .sequence rfl fun p hp => ?_
    rw [← Entries.eq_of_mem_zip_self hp]
    exact ih p.1 (List.of_mem_zip hp).1 names false _
  | mapping m ih =>
    refine fun names _ _ => .mapping rfl fun p hp => ?_
    rw [← Entries.eq_of_mem_zip_self hp]
    exact ih p.1 (List.of_mem_zip hp).1 names true _

/-- What moves no object itself may stand anywhere. -/
theorem Moved.entry {names : Set String} {g : ReadAs} {n n' : Node}
    (h : Moved o R names false g n n') : Moved o R names true g n n' := by
  cases h with
  | scalar s => exact .scalar s
  | sequence hl h => exact .sequence hl h
  | mapping hk h => exact .mapping hk h

theorem Moved.either {names : Set String} {entry : Bool} {g : ReadAs} {n n' : Node}
    (h : Moved o R names entry g n n') : Moved o R names entry .either n n' := by
  induction h with
  | scalar s => exact .scalar s
  | sequence hl _ ih => exact .sequence hl ih
  | mapping hk _ ih => exact .mapping hk ih
  | minted _ hname hR href _ hn' ih => exact .minted (by decide) hname hR href ih hn'

/-- Nothing moves without names. -/
theorem Moved.eq {entry : Bool} {g : ReadAs} {n n' : Node} (h : Moved o R ∅ entry g n n') :
    n' = n := by
  suffices hs : ∀ names, Moved o R names entry g n n' → names = ∅ → n' = n from hs ∅ h rfl
  clear h
  intro names h he
  induction h with
  | scalar s => rfl
  | sequence hl _ ih => rw [Entries.eq_of_zip hl fun p hp => ih p hp he]
  | mapping hk _ ih => rw [Entries.eq_of_zip_values hk fun p hp => ih p hp he]
  | minted _ hname => rw [he] at hname; exact absurd hname (Set.notMem_empty _)

theorem moved_zip_modify {names : Set String} {g : ReadAs} {m : Entries Node} {key : String}
    {v v' : Node} (hv : Entries.get? m key = some v)
    (h : Moved o R names true (g.under key) v v') :
    ∀ p ∈ m.zip (Entries.modify key (fun _ => v') m),
      Moved o R names true (g.under p.1.1) p.1.2 p.2.2 := by
  intro p hp
  rcases Entries.mem_zip_modify hv v' hp with hp | ⟨he, hp⟩
  · rw [← Entries.eq_of_mem_zip_self hp]
    exact Moved.refl ..
  · rw [he, ← Entries.eq_of_mem_zip_self hp]
    exact h

theorem moved_zip_modify_modify {names : Set String} {g : ReadAs} {m : Entries Node}
    {key₁ key₂ : String} (hne : key₁ ≠ key₂) {v v' w w' : Node}
    (hv : Entries.get? m key₁ = some v) (hw : Entries.get? m key₂ = some w)
    (h₁ : Moved o R names true (g.under key₁) v v') (h₂ : Moved o R names true (g.under key₂) w w') :
    ∀ p ∈ m.zip (Entries.modify key₂ (fun _ => w') (Entries.modify key₁ (fun _ => v') m)),
      Moved o R names true (g.under p.1.1) p.1.2 p.2.2 := by
  intro p hp
  have hw' : Entries.get? (Entries.modify key₁ (fun _ => v') m) key₂ = some w := by
    rw [Entries.get?_modify_of_ne _ _ (Ne.symm hne), hw]
  rcases Entries.mem_zip_modify hv v' hp with hp | ⟨he, hp⟩
  · rcases Entries.mem_zip_modify hw' w' hp with hp | ⟨he, hp⟩
    · rw [← Entries.eq_of_mem_zip_self hp]
      exact Moved.refl ..
    · rw [he, ← Entries.eq_of_mem_zip_self hp]
      exact h₂
  · rcases Entries.mem_zip_modify hw' w' hp with hp | ⟨he', -⟩
    · rw [he, ← Entries.eq_of_mem_zip_self hp]
      exact h₁
    · cases he'
      exact absurd rfl hne

/-- The value of one key of a mapping may change alone. -/
theorem Moved.modify {names : Set String} {entry : Bool} {g : ReadAs} {m : Entries Node} {key : String}
    {v v' : Node} (hv : Entries.get? m key = some v)
    (h : Moved o R names true (g.under key) v v') :
    Moved o R names entry g (.mapping m) (.mapping (Entries.modify key (fun _ => v') m)) :=
  .mapping (Entries.keys_modify ..).symm (moved_zip_modify hv h)

/-- And so may the values of two keys, one after the other. -/
theorem Moved.modify_modify {names : Set String} {entry : Bool} {g : ReadAs} {m : Entries Node}
    {key₁ key₂ : String} (hne : key₁ ≠ key₂) {v v' w w' : Node}
    (hv : Entries.get? m key₁ = some v) (hw : Entries.get? m key₂ = some w)
    (h₁ : Moved o R names true (g.under key₁) v v') (h₂ : Moved o R names true (g.under key₂) w w') :
    Moved o R names entry g (.mapping m)
      (.mapping (Entries.modify key₂ (fun _ => w') (Entries.modify key₁ (fun _ => v') m))) := by
  refine .mapping ?_ (moved_zip_modify_modify hne hv hw h₁ h₂)
  rw [Entries.keys_modify, Entries.keys_modify]

def Part.Moves (o : Options) (R : Registry) (names : Set String) : Part → Prop
  | .node _ n n' => Moved o R names false .schema n n'
  | .sites _ ss m m' => (ss.map Site.key).Nodup →
      Entries.keys m = Entries.keys m' ∧ ∀ p ∈ m.zip m', p.1.2 = p.2.2 ∨
        p.1.1 ∈ ss.map Site.key ∧ Moved o R names true (ReadAs.schema.under p.1.1) p.1.2 p.2.2
  | .site _ s v v' => Moved o R names true (ReadAs.schema.under s.key) v v'
  | .place _ v v' => Moved o R names true .schema v v'
  | .mint _ v name => name ∈ names ∧ ∃ body, R.get? name = some body ∧
      Moved o R (names \ {name}) false .schema v body
  | .branches _ _ _ xs xs' => xs.length = xs'.length ∧
      ∀ p ∈ xs.zip xs', Moved o R names false .schema p.1 p.2
  | .properties _ ps ps' => Entries.keys ps = Entries.keys ps' ∧
      ∀ p ∈ ps.zip ps', Moved o R names true .schema p.1.2 p.2.2
  | .property _ v v' => Moved o R names true .schema v v'

/-- All that a walk does to the tree is to move objects into definitions with fresh names. -/
theorem Walked.moves {part : Part} {r r' : Registry} (h : Walked o part r r') :
    ∀ names, fresh r r' ⊆ names → Keeps R r r' → part.Moves o R names := by
  induction h with
  | leaf | noBranches | noProperties => exact fun _ _ _ => Moved.refl ..
  | mapping _ ih =>
    intro names hs hR
    obtain ⟨hk, h⟩ := ih names hs hR Site.nodup_keys
    refine .mapping hk fun p hp => ?_
    rcases h p hp with he | ⟨-, h⟩
    · rw [he]
      exact Moved.refl ..
    · exact h
  | done => exact fun _ _ _ _ => ⟨rfl, fun p hp => .inl (by rw [Entries.eq_of_mem_zip_self hp])⟩
  | absent _ _ ih =>
    intro names hs hR hss
    obtain ⟨hk, h⟩ := ih names hs hR (List.nodup_cons.mp hss).2
    exact ⟨hk, fun p hp => (h p hp).imp_right fun h => ⟨List.mem_cons_of_mem _ h.1, h.2⟩⟩
  | @present base s ss m m' v v' r r₁ r' hv hw hws ihv ih =>
    intro names hs hR hss
    obtain ⟨hnot, hss⟩ := List.nodup_cons.mp hss
    have hhead := ihv names ((fresh_left hws.grows).trans hs) (hR.left hws.grows)
    obtain ⟨hk, h⟩ := ih names ((fresh_right hw.grows).trans hs) (hR.right hw.grows) hss
    rw [Entries.keys_modify] at hk
    refine ⟨hk, fun p hp => ?_⟩
    rcases Entries.mem_zip_modify hv v' hp with hp | ⟨he, hp⟩
    · exact (h p hp).imp_right fun h => ⟨List.mem_cons_of_mem _ h.1, h.2⟩
    · -- The key is not visited again, so its new value is the one that stays.
      rcases h _ hp with heq | ⟨hmem, -⟩
      · rw [he]
        exact .inr ⟨List.mem_cons_self, heq ▸ hhead⟩
      · exact absurd hmem hnot
  | branches _ ih =>
    intro names hs hR
    obtain ⟨hl, h⟩ := ih names hs hR
    refine .sequence hl fun p hp => ?_
    rw [ReadAs.inside_of_ne (ReadAs.under_ne_either (by decide) _)]
    exact h p hp
  | properties _ ih =>
    intro names hs hR
    obtain ⟨hk, h⟩ := ih names hs hR
    exact .mapping hk h
  | items _ ih | furtherProperties _ ih => exact ih
  | hoisted hi _ ih =>
    intro names hs hR
    obtain ⟨hname, body, hb, h⟩ := ih names hs hR
    obtain ⟨m, rfl⟩ := Node.isMapping_of_isInlineObject hi
    exact .minted (by decide) hname hb (Node.isReference_of_isInlineObject hi) h (.inl rfl)
  | kept _ _ ih | other _ _ _ ih => exact fun names hs hR => (ih names hs hR).entry
  | @mint base v body r r' _ ih =>
    intro names hs hR
    have hmem : (r.reserve base).1 ∈ fresh r (r'.define (r.reserve base).1 body) :=
      mem_fresh_mint body
    refine ⟨hs hmem, body, (hR _ hmem).trans ?_, ?_⟩
    · rw [get?_define, if_pos rfl]
    · exact ih _ ((fresh_mint body).trans (Set.sdiff_subset_sdiff_left hs)) hR.mint
  | lastBranch | lastProperty => exact fun _ _ _ => ⟨rfl, fun _ h => nomatch h⟩
  | branch hw hws ihx ih =>
    intro names hs hR
    have hhead := ihx names ((fresh_left hws.grows).trans hs) (hR.left hws.grows)
    obtain ⟨hl, h⟩ := ih names ((fresh_right hw.grows).trans hs) (hR.right hw.grows)
    refine ⟨congrArg (· + 1) hl, fun p hp => ?_⟩
    rcases List.mem_cons.mp hp with rfl | hp
    · exact hhead
    · exact h p hp
  | property hw hws ihv ih =>
    intro names hs hR
    have hhead := ihv names ((fresh_left hws.grows).trans hs) (hR.left hws.grows)
    obtain ⟨hk, h⟩ := ih names ((fresh_right hw.grows).trans hs) (hR.right hw.grows)
    refine ⟨congrArg (List.cons _) hk, fun p hp => ?_⟩
    rcases List.mem_cons.mp hp with rfl | hp
    · exact hhead
    · exact h p hp
  | object hi _ ih =>
    intro names hs hR
    obtain ⟨hname, body, hb, h⟩ := ih names hs hR
    obtain ⟨m, rfl⟩ := Node.isMapping_of_isInlineObject hi
    refine .minted (by decide) hname hb (Node.isReference_of_isInlineObject hi) h ?_
    rw [keepDescription]
    split
    · exact .inr ⟨_, rfl⟩
    · exact .inl rfl
  | array _ ha hx _ ih =>
    intro names hs hR
    obtain ⟨hname, body, hb, h⟩ := ih names hs hR
    obtain ⟨x, hx', hi⟩ := Node.items_of_isInlineObjectArray ha
    obtain rfl := Option.some.inj (hx.symm.trans hx')
    obtain ⟨m, rfl⟩ := Node.isMapping_of_isInlineObject hi
    exact .modify hx (.minted (by decide) hname hb (Node.isReference_of_isInlineObject hi) h (.inl rfl))

/-! ## Distinct keys -/

theorem Moved.distinct {names : Set String} {entry : Bool} {g : ReadAs} {n n' : Node}
    (h : Moved o R names entry g n n') (hn : n.Distinct) : n'.Distinct := by
  induction h with
  | scalar s => exact hn
  | sequence hl _ ih =>
    cases hn with
    | sequence hx =>
      refine .sequence fun y hy => ?_
      obtain ⟨x, hmem, hp⟩ := Entries.exists_mem_zip_of_mem hl hy
      exact ih _ hp (hx x hmem)
  | mapping hk _ ih =>
    refine .mapping (hk ▸ hn.nodup) fun q hq => ?_
    obtain ⟨p, hmem, hp⟩ := Entries.exists_mem_zip_of_mem (Entries.length_eq_of_keys hk) hq
    exact ih _ hp (hn.values p hmem)
  | minted _ _ _ _ _ hn' =>
    have href (target : String) : (Node.reference target).Distinct :=
      .mapping (List.nodup_singleton _) (List.forall_mem_singleton.mpr (.scalar _))
    rcases hn' with rfl | ⟨d, rfl⟩
    · exact href _
    · refine .mapping (by simp [Entries.keys]) (List.forall_mem_cons.mpr
        ⟨.scalar _, List.forall_mem_singleton.mpr ?_⟩)
      exact .sequence (List.forall_mem_singleton.mpr (href _))

def DistinctBodies (r : Registry) : Prop := ∀ name body, r.get? name = some body → body.Distinct

theorem distinctBodies_define {r : Registry} (hr : DistinctBodies r) (name : String) {body : Node}
    (hb : body.Distinct) : DistinctBodies (r.define name body) := by
  intro x b h
  rw [get?_define] at h
  split at h
  · cases h
    exact hb
  · exact hr x b h

def Part.Distinct : Part → Prop
  | .node _ n _ => n.Distinct
  | .sites _ _ m _ => (Node.mapping m).Distinct
  | .site _ _ v _ | .place _ v _ | .mint _ v _ | .property _ v _ => v.Distinct
  | .branches _ _ _ xs _ => ∀ x ∈ xs, x.Distinct
  | .properties _ ps _ => ∀ p ∈ ps, p.2.Distinct

theorem Walked.distinctBodies {part : Part} {r r' : Registry} (h : Walked o part r r') :
    part.Distinct → DistinctBodies r → DistinctBodies r' := by
  induction h with
  | leaf | done | noBranches | noProperties | lastBranch | lastProperty => exact fun _ hr => hr
  | mapping _ ih | absent _ _ ih | items _ ih | furtherProperties _ ih | hoisted _ _ ih
  | kept _ _ ih | object _ _ ih | other _ _ _ ih => exact ih
  | present hs hw _ ihv ih =>
    intro hm hr
    have hv := hm.get? hs
    have hv' := (hw.moves _ subset_rfl (Grows.refl _).keeps).distinct hv
    exact ih (hm.modify _ hv') (ihv hv hr)
  | branches _ ih =>
    intro hv hr
    cases hv with
    | sequence hx => exact ih hx hr
  | properties _ ih => exact fun hv => ih hv.values
  | @mint base v body r r' hw ih =>
    intro hv hr
    have hbody := (hw.moves _ subset_rfl (Grows.refl _).keeps).distinct hv
    refine distinctBodies_define (ih hv ?_) _ hbody
    exact distinctBodies_define hr _ (.mapping List.nodup_nil nofun)
  | branch _ _ ihx ih | property _ _ ihx ih =>
    intro hx hr
    obtain ⟨hhead, htail⟩ := List.forall_mem_cons.mp hx
    exact ih htail (ihx hhead hr)
  | array _ _ hx _ ih => exact fun hm => ih (hm.get? hx)

end Extraction
end InlineSchema
