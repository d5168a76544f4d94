import InlineSchema.Extraction.Document
import InlineSchema.Proofs.Moved

/-! # What an extraction moves

The two parts of an extraction go down to the places of definitions and payloads by changing the
values of keys, one after the other. Each such change moves objects if the change of the value
does, and so both parts together.
-/
namespace InlineSchema.Extraction
open Registry

variable {o : Options}

/-- An action that extends the registry and changes its node by moving objects into it. -/
def Moving (o : Options) (g : ReadAs) (f : Node → StateM Registry Node) : Prop :=
  ∀ n r, Grows r ((f n).run r).2 ∧
    ∀ R names, fresh r ((f n).run r).2 ⊆ names → Keeps R r ((f n).run r).2 →
      Moved o R names true g n ((f n).run r).1

theorem moving_pure (g : ReadAs) : Moving o g pure :=
  fun n r => ⟨Grows.refl r, fun _ names _ _ => Moved.refl n names true g⟩

theorem moving_walk (base : String) : Moving o .schema (walk o base) := fun n r =>
  have h := walked o base n r
  ⟨h.grows, fun _ names hs hR => (h.moves names hs hR).entry⟩

/-- The schema of a payload is moved, or walked like any other. -/
theorem walked_payload (name : String) (n : Node) (r : Registry) :
    let x := (payload o name n).run r
    (n.isInlineObject || n.isComposition) = true ∧
        Walked o (.mint name n (r.reserve name).1) r x.2 ∧
        x.1 = Node.reference (o.refTo (r.reserve name).1) ∨
      (n.isInlineObject || n.isComposition) = false ∧ Walked o (.node name n x.1) r x.2 := by
  intro x
  cases hi : n.isInlineObject || n.isComposition with
  | false =>
    simp only [x, payload, hi, Bool.false_eq_true, ↓reduceIte]
    exact .inr ⟨trivial, walked o name n r⟩
  | true =>
    simp only [x, payload, hi, ↓reduceIte]
    exact .inl ⟨trivial, walked_mint (walked o · n ·) name r, rfl⟩

theorem moving_payload (name : String) : Moving o .schema (payload o name) := by
  intro n r
  rcases walked_payload name n r with ⟨hi, h, he⟩ | ⟨-, h⟩
  · refine ⟨h.grows, fun R names hs hR => ?_⟩
    obtain ⟨hname, body, hb, hm⟩ := h.moves names hs hR
    obtain ⟨m, rfl, href⟩ := Node.mapping_of_moved hi
    rw [he]
    exact .minted (by decide) hname hb href hm (.inl rfl)
  · exact ⟨h.grows, fun R names hs hR => (h.moves names hs hR).entry⟩

/-! ## Changing the values of keys -/

variable {m : Entries Node} {key : String} {f : Node → StateM Registry Node}

theorem onChild_of_none (h : Entries.get? m key = none) :
    (Node.mapping m).onChild key f = pure (.mapping m) := by
  rw [Node.onChild, h]

theorem run_onChild {v : Node} (h : Entries.get? m key = some v) (r : Registry) :
    ((Node.mapping m).onChild key f).run r =
      (.mapping (Entries.modify key (fun _ => ((f v).run r).1) m), ((f v).run r).2) := by
  rw [Node.onChild, h]
  rfl

theorem get?_onChild_of_ne {key k : String} (hk : k ≠ key) (f : Node → StateM Registry Node)
    (n : Node) (r : Registry) : ((n.onChild key f).run r).1.get? k = n.get? k := by
  cases n with
  | scalar => rfl
  | sequence => rfl
  | mapping m =>
    cases hv : Entries.get? m key with
    | none => rw [onChild_of_none hv]; rfl
    | some v =>
      rw [run_onChild hv]
      exact Entries.get?_modify_of_ne m _ hk

theorem get?_onChild {key : String} {f : Node → StateM Registry Node} {n v : Node}
    (hv : n.get? key = some v) (r : Registry) :
    ((n.onChild key f).run r).1.get? key = some ((f v).run r).1 ∧
      ((n.onChild key f).run r).2 = ((f v).run r).2 := by
  cases n with
  | scalar => cases hv
  | sequence => cases hv
  | mapping m =>
    rw [Node.get?_mapping] at hv
    rw [run_onChild hv, Node.get?_mapping, Entries.get?_modify_self, hv]
    exact ⟨rfl, rfl⟩

theorem onChild_of_get?_eq_none {key : String} {f : Node → StateM Registry Node} {n : Node}
    (hv : n.get? key = none) : n.onChild key f = pure n := by
  cases n with
  | scalar => rfl
  | sequence => rfl
  | mapping m => exact onChild_of_none hv

theorem Moving.onChild {g : ReadAs} (hf : Moving o (g.under key) f) :
    Moving o g (Node.onChild key f) := by
  intro n r
  cases n with
  | scalar | sequence => exact moving_pure g _ r
  | mapping m =>
    cases hv : Entries.get? m key with
    | none =>
      rw [onChild_of_none hv]
      exact moving_pure g _ r
    | some v =>
      rw [run_onChild hv]
      obtain ⟨hgrows, h⟩ := hf v r
      exact ⟨hgrows, fun R names hs hR => .modify hv (h R names hs hR)⟩

/-- Two changes of different keys. -/
theorem Moving.onChild_onChild {g : ReadAs} {key₁ key₂ : String} (hne : key₁ ≠ key₂)
    {f₁ f₂ : Node → StateM Registry Node} (h₁ : Moving o (g.under key₁) f₁)
    (h₂ : Moving o (g.under key₂) f₂) :
    Moving o g (fun n => n.onChild key₁ f₁ >>= Node.onChild key₂ f₂) := by
  intro n r
  cases n with
  | scalar | sequence => exact moving_pure g _ r
  | mapping m =>
    rw [run_bind]
    cases hv : Entries.get? m key₁ with
    | none =>
      rw [onChild_of_none hv]
      exact h₂.onChild (.mapping m) r
    | some v =>
      rw [run_onChild hv]
      obtain ⟨hgrows₁, hm₁⟩ := h₁ v r
      cases hw : Entries.get? m key₂ with
      | none =>
        have hw' := hw
        rw [← Entries.get?_modify_of_ne m (fun _ => ((f₁ v).run r).1) (Ne.symm hne)] at hw'
        rw [onChild_of_none hw']
        exact ⟨hgrows₁, fun R names hs hR => .modify hv (hm₁ R names hs hR)⟩
      | some w =>
        have hw' := hw
        rw [← Entries.get?_modify_of_ne m (fun _ => ((f₁ v).run r).1) (Ne.symm hne)] at hw'
        rw [run_onChild hw']
        obtain ⟨hgrows₂, hm₂⟩ := h₂ w ((f₁ v).run r).2
        refine ⟨hgrows₁.trans hgrows₂, fun R names hs hR => ?_⟩
        have hv₁ := hm₁ R names ((fresh_left hgrows₂).trans hs) (hR.left hgrows₂)
        have hw₁ := hm₂ R names ((fresh_right hgrows₁).trans hs) (hR.right hgrows₁)
        exact .modify_modify hne hv hw hv₁ hw₁

def changed (f : String → Node → StateM Registry Node) :
    Entries Node → Registry → Entries Node × Registry
  | [], r => ([], r)
  | p :: m, r =>
    let x := (f p.1 p.2).run r
    let y := changed f m x.2
    ((p.1, x.1) :: y.1, y.2)

theorem run_onEntries (f : String → Node → StateM Registry Node) (m : Entries Node) (r : Registry) :
    ((Node.mapping m).onEntries f).run r = (.mapping (changed f m r).1, (changed f m r).2) := by
  induction m generalizing r with
  | nil => rfl
  | cons p m ih =>
    obtain ⟨hm, hr⟩ := Prod.mk.inj (ih ((f p.1 p.2).run r).2)
    have hm := congrArg (List.cons (p.1, ((f p.1 p.2).run r).1)) (Node.mapping.inj hm)
    simp only [Node.onEntries, List.mapM_cons]
    exact Prod.ext (congrArg Node.mapping hm) hr

theorem moving_entries {g : ReadAs} {f : String → Node → StateM Registry Node}
    (hf : ∀ key, Moving o (g.under key) (f key)) (m : Entries Node) (r : Registry) :
    let x := changed f m r
    Grows r x.2 ∧ ∀ R names, fresh r x.2 ⊆ names → Keeps R r x.2 →
      Entries.keys m = Entries.keys x.1 ∧
        ∀ p ∈ m.zip x.1, Moved o R names true (g.under p.1.1) p.1.2 p.2.2 := by
  induction m generalizing r with
  | nil => exact ⟨Grows.refl r, fun _ _ _ _ => ⟨rfl, fun _ h => absurd h List.not_mem_nil⟩⟩
  | cons p m ih =>
    obtain ⟨k, v⟩ := p
    intro x
    obtain ⟨hgrows, hv⟩ := hf k v r
    obtain ⟨hgrows', hm⟩ := ih ((f k v).run r).2
    refine ⟨hgrows.trans hgrows', fun R names hs hR => ?_⟩
    have hhead := hv R names ((fresh_left hgrows').trans hs) (hR.left hgrows')
    obtain ⟨hk, htail⟩ := hm R names ((fresh_right hgrows).trans hs) (hR.right hgrows)
    refine ⟨congrArg (List.cons k) hk, fun q hq => ?_⟩
    rcases List.mem_cons.mp hq with rfl | hq
    · exact hhead
    · exact htail q hq

theorem Moving.onEntries {g : ReadAs} {f : String → Node → StateM Registry Node}
    (hf : ∀ key, Moving o (g.under key) (f key)) : Moving o g (Node.onEntries f) := by
  intro n r
  cases n with
  | scalar | sequence => exact moving_pure g _ r
  | mapping m =>
    rw [run_onEntries]
    obtain ⟨hgrows, h⟩ := moving_entries hf m r
    refine ⟨hgrows, fun R names hs hR => ?_⟩
    obtain ⟨hk, h⟩ := h R names hs hR
    exact .mapping hk h

/-! ## The places of payloads -/

theorem moving_content {g : ReadAs} (hg : g ≠ .either) (name : String) :
    Moving o g (content o name) := by
  intro n r
  rw [content]
  cases n.isReference with
  | true => exact moving_pure g n r
  | false =>
    refine Moving.onChild (.onEntries fun type => .onChild ?_) n r
    have h := ReadAs.under_ne_either (ReadAs.under_ne_either hg "content") type
    rw [ReadAs.under_of_ne h (by decide)]
    exact moving_payload name

theorem moving_operation : Moving o .schema (operation o) := by
  intro n r
  rw [operation]
  cases operationName? n with
  | none => exact moving_pure _ n r
  | some name =>
    have h₁ : Moving o (ReadAs.schema.under "responses") (Node.onEntries fun status =>
        content o (responseName name status)) :=
      .onEntries fun status => moving_content (ReadAs.under_ne_either (by decide) status) _
    exact Moving.onChild_onChild (by decide) h₁ (moving_content (by decide) (requestName name)) n r

def pathItems (o : Options) : Node → StateM Registry Node :=
  Node.onEntries fun _ item =>
    item.onEntries fun key op => if methods.contains key then operation o op else pure op

theorem paths_eq (o : Options) (doc : Node) : paths o doc = doc.onChild "paths" (pathItems o) := rfl

/-- The operation under a key of a path, if it is a method. -/
theorem moving_method {g : ReadAs} (hg : g ≠ .either) (key : String) :
    Moving o (g.under key) fun op => if methods.contains key then operation o op else pure op := by
  cases hkey : methods.contains key with
  | false => exact moving_pure _
  | true =>
    have hne : key ≠ "properties" := by
      rintro rfl
      cases hkey
    rw [ReadAs.under_of_ne hg hne]
    exact moving_operation

theorem moving_pathItems : Moving o .schema (pathItems o) :=
  .onEntries fun path => .onEntries (moving_method (ReadAs.under_ne_either (by decide) path))

theorem Moving.either {g : ReadAs} {f : Node → StateM Registry Node} (hf : Moving o g f) :
    Moving o .either f := fun n r =>
  have h := hf n r
  ⟨h.1, fun R names hs hR => (h.2 R names hs hR).either⟩

theorem moving_paths : Moving o .either (paths o) := .onChild moving_pathItems.either

/-! ## The places of definitions -/

theorem lookup_cons (n : Node) (key : String) (path : List String) :
    n.lookup (key :: path) = (n.get? key).bind (·.lookup path) := rfl

theorem Moved.modifyAt? {R : Registry} {names : Set String} {v v' : Node}
    (h : Moved o R names true .either v v') {path : List String} {n : Node}
    (hn : n.lookup path = some v) :
    ∃ n', n.modifyAt? (fun _ => v') path = some n' ∧ Moved o R names true .either n n' := by
  induction path generalizing n with
  | nil =>
    obtain rfl := Option.some.inj hn
    exact ⟨v', rfl, h⟩
  | cons key path ih =>
    obtain ⟨m, child, rfl, hc, hn⟩ := Node.lookup_cons_eq_some hn
    obtain ⟨child', hm, hchild⟩ := ih hn
    exact ⟨_, Node.modifyAt?_mapping_cons hc hm, .modify hc hchild⟩

private theorem moved_entries {table : Entries Node} (hnodup : (Entries.keys table).Nodup)
    (r : Registry) :
    let x := changed (walk o) table r
    Grows r x.2 ∧ Entries.keys table = Entries.keys x.1 ∧ ∃ own : String → Set String,
      (∀ d, own d ⊆ fresh r x.2) ∧ (∀ d d', d ≠ d' → Disjoint (own d) (own d')) ∧
        ∀ R, Keeps R r x.2 → ∀ p ∈ table.zip x.1,
          Moved o R (own p.1.1) false .schema p.1.2 p.2.2 := by
  induction table generalizing r with
  | nil =>
    exact ⟨Grows.refl r, rfl, fun _ => ∅, fun _ => Set.empty_subset _,
      fun _ _ _ => disjoint_bot_left, fun _ _ _ h => absurd h List.not_mem_nil⟩
  | cons p table ih =>
    obtain ⟨k, v⟩ := p
    obtain ⟨hk, hnodup⟩ := List.nodup_cons.mp hnodup
    intro x
    have hw := walked o k v r
    obtain ⟨hgrows, hkeys, own, hsub, hdisj, hmoved⟩ := ih hnodup ((walk o k v).run r).2
    refine ⟨hw.grows.trans hgrows, congrArg (List.cons k) hkeys,
      fun d => if d = k then fresh r ((walk o k v).run r).2 else own d, fun d => ?_,
      fun d d' hne => ?_, fun R hR p hp => ?_⟩
    · by_cases hd : d = k
      · simp only [hd, ↓reduceIte]
        exact fresh_left hgrows
      · simp only [if_neg hd]
        exact (hsub d).trans (fresh_right hw.grows)
    · by_cases hd : d = k
      · have hd' : d' ≠ k := fun he => hne (hd.trans he.symm)
        simp only [if_pos hd, if_neg hd']
        exact fresh_disjoint.mono_right (hsub d')
      · by_cases hd' : d' = k
        · simp only [if_neg hd, if_pos hd']
          exact (fresh_disjoint.mono_right (hsub d)).symm
        · simp only [if_neg hd, if_neg hd']
          exact hdisj d d' hne
    · rcases List.mem_cons.mp hp with rfl | hp
      · simp only [↓reduceIte]
        exact hw.moves _ subset_rfl (hR.left hgrows)
      · have hne : p.1.1 ≠ k := by
          intro he
          have hmem : p.1.1 ∈ Entries.keys table := List.mem_map_of_mem (List.of_mem_zip hp).1
          rw [he] at hmem
          exact hk hmem
        simp only [if_neg hne]
        exact hmoved R (hR.right hw.grows) p hp

/-- The walks of different definitions take different names. -/
theorem moved_definitions {table table' : Entries Node} {r r' : Registry}
    (h : ((Node.mapping table).onEntries (walk o)).run r = (.mapping table', r'))
    (hnodup : (Entries.keys table).Nodup) :
    Grows r r' ∧ Entries.keys table = Entries.keys table' ∧ ∃ own : String → Set String,
      (∀ d, own d ⊆ fresh r r') ∧ (∀ d d', d ≠ d' → Disjoint (own d) (own d')) ∧
        ∀ R, Keeps R r r' → ∀ p ∈ table.zip table',
          Moved o R (own p.1.1) false .schema p.1.2 p.2.2 := by
  have hentries := moved_entries (o := o) hnodup r
  rw [run_onEntries] at h
  cases h
  exact hentries

theorem moving_schemas : Moving o .either (schemas o) := by
  intro n r
  rw [schemas]
  split
  next table htable =>
    have hwalk : Moving o .either (Node.onEntries (walk o)) :=
      .onEntries fun base => (moving_walk base).either
    obtain ⟨hgrows, h⟩ := hwalk (.mapping table) r
    refine ⟨hgrows, fun R names hs hR => ?_⟩
    obtain ⟨n', hm, hn'⟩ := (h R names hs hR).modifyAt? htable
    change Moved o R names true .either n ((n.modifyAt? (fun _ =>
      ((Node.onEntries (walk o) (.mapping table)).run r).1) o.definitionsPath).getD n)
    rw [hm]
    exact hn'
  next => exact moving_pure _ n r

theorem grows_schemas (doc : Node) (r : Registry) : Grows r ((schemas o doc).run r).2 :=
  (moving_schemas doc r).1

/-! ## Invariants of the registry -/

section
variable {P : Node → Prop} {I : Registry → Prop}

theorem onChild_preserves {n : Node} {r : Registry}
    (hf : ∀ v, n.get? key = some v → ∀ r, I r → I ((f v).run r).2) (hr : I r) :
    I ((n.onChild key f).run r).2 := by
  cases n with
  | scalar | sequence => exact hr
  | mapping m =>
    cases hv : Entries.get? m key with
    | none => rw [onChild_of_none hv]; exact hr
    | some v => rw [run_onChild hv]; exact hf v hv r hr

theorem onEntries_preserves {f : String → Node → StateM Registry Node} {m : Entries Node}
    {r : Registry} (hf : ∀ p ∈ m, ∀ r, I r → I ((f p.1 p.2).run r).2) (hr : I r) :
    I (((Node.mapping m).onEntries f).run r).2 := by
  rw [run_onEntries]
  induction m generalizing r with
  | nil => exact hr
  | cons p m ih =>
    exact ih (fun q hq => hf q (List.mem_cons_of_mem _ hq)) (hf p List.mem_cons_self r hr)

theorem onEntries_preserves_of {f : String → Node → StateM Registry Node} {n : Node} {r : Registry}
    (hP : ∀ m, P (.mapping m) → ∀ p ∈ m, P p.2) (hn : P n)
    (hf : ∀ k v, P v → ∀ r, I r → I ((f k v).run r).2) (hr : I r) :
    I ((n.onEntries f).run r).2 := by
  cases n with
  | scalar | sequence => exact hr
  | mapping m => exact onEntries_preserves (fun p hp => hf p.1 p.2 (hP m hn p hp)) hr

theorem get?_of_inherited (hP : ∀ m, P (.mapping m) → ∀ p ∈ m, P p.2) {n v : Node} {key : String}
    (hn : P n) (hv : n.get? key = some v) : P v := by
  cases n with
  | scalar | sequence => cases hv
  | mapping m => exact hP m hn _ (Entries.mem_of_get? hv)

theorem content_preserves (hP : ∀ m, P (.mapping m) → ∀ p ∈ m, P p.2) {name : String}
    (hp : ∀ v, P v → ∀ r, I r → I ((payload o name v).run r).2) {n : Node} (hn : P n)
    {r : Registry} (hr : I r) : I ((content o name n).run r).2 := by
  rw [content]
  cases n.isReference with
  | true => exact hr
  | false =>
    refine onChild_preserves (fun types htypes r hr => ?_) hr
    refine onEntries_preserves_of hP (get?_of_inherited hP hn htypes) (fun _ media hm r hr => ?_) hr
    exact onChild_preserves (fun schema hs => hp schema (get?_of_inherited hP hm hs)) hr

/-- What the extraction of every payload keeps, whose names are never empty, the extraction of all
payloads keeps. -/
theorem pathItems_preserves (hP : ∀ m, P (.mapping m) → ∀ p ∈ m, P p.2)
    (hp : ∀ name, name ≠ "" → ∀ v, P v → ∀ r, I r → I ((payload o name v).run r).2) {n : Node}
    (hn : P n) {r : Registry} (hr : I r) : I ((pathItems o n).run r).2 := by
  refine onEntries_preserves_of hP hn (fun _ item hitem r hr => ?_) hr
  refine onEntries_preserves_of hP hitem (fun key op hop r hr => ?_) hr
  cases methods.contains key with
  | false => exact hr
  | true =>
    change I ((operation o op).run r).2
    rw [operation]
    cases operationName? op with
    | none => exact hr
    | some name =>
      have hresponse : ∀ status, responseName name status ≠ "" := fun status h =>
        absurd (String.append_eq_empty_iff.mp h).2 (by decide)
      have hrequest : requestName name ≠ "" := fun h =>
        absurd (String.append_eq_empty_iff.mp h).2 (by decide)
      have hresponses : ∀ n, P n → ∀ r, I r → I ((n.onEntries fun status =>
          content o (responseName name status)).run r).2 := fun n hn r hr =>
        onEntries_preserves_of hP hn
          (fun status holder hh r hr => content_preserves hP (hp _ (hresponse status)) hh hr) hr
      have hfirst : I ((op.onChild "responses" (Node.onEntries fun status =>
          content o (responseName name status))).run r).2 :=
        onChild_preserves (fun n hn => hresponses n (get?_of_inherited hP hop hn)) hr
      refine onChild_preserves (fun body hbody r hr => ?_) hfirst
      have hne : "requestBody" ≠ "responses" := by decide
      have hbody : op.get? "requestBody" = some body :=
        (get?_onChild_of_ne hne _ op _).symm.trans hbody
      exact content_preserves hP (hp _ hrequest) (get?_of_inherited hP hop hbody) hr

end

/-! ## Both parts -/

theorem run_run (doc : Node) (r : Registry) :
    (run o doc).run r = (paths o ((schemas o doc).run r).1).run ((schemas o doc).run r).2 := rfl

theorem Moving.eq {g : ReadAs} {f : Node → StateM Registry Node} (hf : Moving o g f) {n : Node}
    {r : Registry} (h : fresh r ((f n).run r).2 = ∅) : ((f n).run r).1 = n :=
  ((hf n r).2 _ ∅ h.subset (Grows.refl _).keeps).eq

/-- Without new definitions the document stays as it is. -/
theorem run_eq_of_isEmpty {doc : Node} (h : ((run o doc).run .empty).2.isEmpty = true) :
    ((run o doc).run .empty).1 = doc := by
  have hnone : ∀ name, ((run o doc).run .empty).2.get? name = none := fun name => by
    rw [Registry.get?, List.isEmpty_iff.mp h, Entries.get?_nil]
  rw [run_run] at hnone ⊢
  have hgrows := (moving_paths (o := o) ((schemas o doc).run .empty).1
    ((schemas o doc).run .empty).2).1
  have h₂ : ((paths o ((schemas o doc).run .empty).1).run ((schemas o doc).run .empty).2).1 =
      ((schemas o doc).run .empty).1 :=
    moving_paths.eq (Set.eq_empty_iff_forall_notMem.mpr fun name hn => hn.2 (hnone name))
  have h₁ : ((schemas o doc).run .empty).1 = doc :=
    moving_schemas.eq (Set.eq_empty_iff_forall_notMem.mpr fun name hn =>
      hn.2 (hgrows.eq_none (hnone name)))
  rw [h₂, h₁]

end InlineSchema.Extraction
