import Mathlib
import InlineSchema.Proofs.Frame
import InlineSchema.Proofs.Minted
import InlineSchema.Proofs.Places
import InlineSchema.Proofs.Preservation

/-! # What an extraction leaves at each place

The places of a document are those of its definitions and of its payloads. What stands there after
an extraction is told by the kind of the place, and so is what stands inside the bodies that it has
moved. No comparison sees which of the two forms a reference has.
-/
namespace InlineSchema.Extraction
open Registry

variable {o : Options} {R : Registry} {places : List Step → Place → Node → Prop}
  {n n' v v' : Node}

/-! ## Actions on documents -/

/-- The action extends the registry, and leaves at these places what is to be left there. -/
def Arranging (o : Options) (P : Node → List Step → Place → Node → Prop)
    (f : Node → StateM Registry Node) : Prop :=
  ∀ n r, Grows r ((f n).run r).2 ∧
    ∀ R, Grows ((f n).run r).2 R → Arranged o R (P n) n ((f n).run r).1

variable {P : Node → List Step → Place → Node → Prop} {f : Node → StateM Registry Node}

theorem arranging_pure (h : ∀ n path q x, ¬P n path q x) : Arranging o P pure :=
  fun n r => ⟨Grows.refl r, fun _ _ => arranged_of_none (h n) n⟩

theorem Arranging.congr {P' : Node → List Step → Place → Node → Prop} (h : Arranging o P f)
    (hP : ∀ n path q x, P' n path q x ↔ P n path q x) : Arranging o P' f := by
  intro n r
  obtain ⟨hgrows, harranged⟩ := h n r
  exact ⟨hgrows, fun R hR => (harranged R hR).congr (hP n)⟩

theorem arranging_walk (base : String) : Arranging o (Comes .definition) (walk o base) := by
  intro n r
  have h := walked o base n r
  exact ⟨h.grows, fun R hR => h.arranged hR.keeps trivial .definition rfl rfl⟩

theorem arranging_payload (base : String) : Arranging o (Comes .payload) (payload o base) := by
  intro n r
  rcases walked_payload (o := o) base n r with ⟨hi, h, he⟩ | ⟨hi, h⟩
  · refine ⟨h.grows, fun R hR => ?_⟩
    rw [he]
    exact arranged_moved (p := .payload) hi (h.arranged hR.keeps trivial)
  · exact ⟨h.grows, fun R hR => h.arranged hR.keeps trivial .payload hi rfl⟩

theorem under_key_iff {key : String} {Q : Node → List Step → Prop} {path : List Step}
    (hv : n.get? key = some v) : Under key Q n (.key key :: path) ↔ Q v path := by
  constructor
  · rintro ⟨w, rest, hw, hpath, h⟩
    obtain ⟨-, rfl⟩ := List.cons.inj hpath
    cases hv.symm.trans hw
    exact h
  · intro h
    exact ⟨v, path, hv, rfl, h⟩

theorem underEach_key_iff {key : String} {Q : String → Node → List Step → Prop} {path : List Step}
    (hv : n.get? key = some v) : UnderEach Q n (.key key :: path) ↔ Q key v path := by
  constructor
  · rintro ⟨k, hk⟩
    have he : k = key := by
      obtain ⟨_, _, -, hpath, -⟩ := hk
      simpa using (List.cons.inj hpath).1.symm
    subst he
    exact (under_key_iff hv).mp hk
  · intro h
    exact ⟨key, (under_key_iff hv).mpr h⟩

theorem Arranging.onChild (hf : Arranging o P f) (key : String) :
    Arranging o (fun n path q x => Under key (fun v rest => P v rest q x) n path)
      (Node.onChild key f) := by
  intro n r
  cases hv : n.get? key with
  | none =>
    rw [onChild_of_get?_eq_none hv]
    refine ⟨Grows.refl r, fun R _ => arranged_of_none ?_ n⟩
    rintro path q x ⟨v, rest, hv', -⟩
    rw [hv] at hv'
    cases hv'
  | some v =>
    cases n with
    | scalar | sequence => cases hv
    | mapping m =>
      have hget : Entries.get? m key = some v := hv
      obtain ⟨hgrows, h⟩ := hf v r
      rw [run_onChild hget]
      refine ⟨hgrows, fun R hR => arranged_modify hget ?_ ?_⟩
      · rintro path q x ⟨_, rest, -, hpath, -⟩
        exact ⟨rest, hpath⟩
      · exact (h R hR).congr fun path q x => under_key_iff hv

/-- The values of a mapping, one after the other. -/
theorem arranging_entries {P : String → Node → List Step → Place → Node → Prop}
    {f : String → Node → StateM Registry Node} (hf : ∀ key, Arranging o (P key) (f key))
    (m : Entries Node) (r : Registry) :
    let x := changed f m r
    Entries.keys x.1 = Entries.keys m ∧ Grows r x.2 ∧ ∀ R, Grows x.2 R →
      ∀ e ∈ m.zip x.1, Arranged o R (P e.1.1 e.1.2) e.1.2 e.2.2 := by
  induction m generalizing r with
  | nil => exact ⟨rfl, Grows.refl r, fun _ _ => nofun⟩
  | cons e m ih =>
    obtain ⟨hgrows, hhead⟩ := hf e.1 e.2 r
    obtain ⟨hk, hgrows', htail⟩ := ih ((f e.1 e.2).run r).2
    refine ⟨congrArg (List.cons e.1) hk, hgrows.trans hgrows', fun R hR e' he' => ?_⟩
    rcases List.mem_cons.mp he' with rfl | he'
    · exact hhead R (hgrows'.trans hR)
    · exact htail R hR e' he'

theorem Arranging.onEntries {P : String → Node → List Step → Place → Node → Prop}
    {f : String → Node → StateM Registry Node} (hf : ∀ key, Arranging o (P key) (f key)) :
    Arranging o (fun n path q x => UnderEach (fun key v rest => P key v rest q x) n path)
      (Node.onEntries f) := by
  intro n r
  cases n with
  | scalar | sequence =>
    refine ⟨Grows.refl r, fun R _ => arranged_of_none ?_ _⟩
    rintro path q x ⟨key, v, rest, ⟨⟩, -⟩
  | mapping m =>
    obtain ⟨hk, hgrows, h⟩ := arranging_entries hf m r
    rw [run_onEntries]
    refine ⟨hgrows, fun R hR => arranged_mapping hk ?_ ?_ fun k v v' hv hv' => ?_⟩
    · rintro q x ⟨key, v, rest, -, hpath, -⟩
      cases hpath
    · rintro step path q x ⟨key, v, rest, hv, hpath, -⟩
      obtain ⟨rfl, -⟩ := List.cons.inj hpath
      exact ⟨key, v, rfl, hv⟩
    · obtain ⟨w, hw, hzip⟩ := Entries.exists_mem_zip_of_get? hk.symm hv
      cases hw.symm.trans hv'
      exact (h R hR _ hzip).congr fun path q x => underEach_key_iff (n := .mapping m) hv

/-- The places that are met from the payloads, in what is reached like this from a node. -/
def Payloads (A : (Node → List Step → Prop) → Node → List Step → Prop) (n : Node)
    (path : List Step) (q : Place) (x : Node) : Prop :=
  A (fun schema rest => Comes .payload schema rest q x) n path

theorem arranging_content (base : String) :
    Arranging o (Payloads UnderContent) (content o base) := by
  intro n r
  unfold content
  cases href : n.isReference with
  | true =>
    refine ⟨Grows.refl r, fun R _ => arranged_of_none ?_ n⟩
    rintro path q x ⟨hkept, -⟩
    rw [href] at hkept
    cases hkept
  | false =>
    have hmedia : Arranging o _ _ := (arranging_payload (o := o) base).onChild "schema"
    have htypes : Arranging o _ _ := (Arranging.onEntries fun _ => hmedia).onChild "content"
    obtain ⟨hgrows, h⟩ := htypes n r
    exact ⟨hgrows, fun R hR => (h R hR).congr fun path q x => and_iff_right href⟩

/-- Two changes of different keys. -/
theorem Arranging.onChild_onChild {P₁ P₂ : Node → List Step → Place → Node → Prop}
    {f₁ f₂ : Node → StateM Registry Node} {key₁ key₂ : String} (hne : key₁ ≠ key₂)
    (h₁ : Arranging o P₁ f₁) (h₂ : Arranging o P₂ f₂) :
    Arranging o (fun n path q x => Under key₁ (fun v rest => P₁ v rest q x) n path ∨
        Under key₂ (fun v rest => P₂ v rest q x) n path)
      (fun n => n.onChild key₁ f₁ >>= Node.onChild key₂ f₂) := by
  intro n r
  rw [run_bind]
  generalize hrun : (n.onChild key₁ f₁).run r = middle
  obtain ⟨hgrows₁, hfirst⟩ := h₁.onChild key₁ n r
  obtain ⟨hgrows₂, hsecond⟩ := h₂.onChild key₂ middle.1 middle.2
  rw [hrun] at hgrows₁ hfirst
  have hother : middle.1.get? key₂ = n.get? key₂ := by
    rw [← hrun, get?_onChild_of_ne hne.symm]
  refine ⟨hgrows₁.trans hgrows₂, fun R hR => ?_⟩
  have hboth := (hfirst R (hgrows₂.trans hR)).trans (hsecond R hR) (by
    rintro path q x ⟨v, rest, -, rfl, -⟩
    rw [Node.follow_key, Node.follow_key, get?_onChild_of_ne hne])
  apply hboth.congr
  intro path q x
  simp only [Under, hother]

theorem arranging_operation : Arranging o (Payloads UnderOperation) (operation o) := by
  intro n r
  unfold operation
  cases hname : operationName? n with
  | none =>
    refine ⟨Grows.refl r, fun R _ => arranged_of_none ?_ n⟩
    rintro path q x ⟨⟨id, hid, hne⟩, -⟩
    simp [operationName?, hid, Node.text?, Node.string, hne] at hname
  | some name =>
    have hresponses : Arranging o _ _ := .onEntries fun status =>
      arranging_content (o := o) (responseName name status)
    have hne : "responses" ≠ "requestBody" := by decide
    have hboth : Arranging o _ _ :=
      hresponses.onChild_onChild hne (arranging_content (requestName name))
    obtain ⟨hgrows, h⟩ := hboth n r
    refine ⟨hgrows, fun R hR => (h R hR).congr fun path q x => ?_⟩
    exact and_iff_right (exists_operationId hname)

theorem arranging_paths : Arranging o (Payloads UnderPaths) (paths o) := by
  refine Arranging.onChild (.onEntries fun _ => .onEntries fun key => ?_) "paths"
  cases hkey : methods.contains key with
  | false =>
    apply arranging_pure
    rintro n path q x ⟨hmethod, -⟩
    rw [List.contains_iff_mem.mpr hmethod] at hkey
    cases hkey
  | true =>
    apply arranging_operation.congr
    intro n path q x
    exact and_iff_right (by simpa using hkey)

/-! ## Definitions -/

theorem arranged_modifyAt? {keys : List String} (hn : n.lookup keys = some v)
    (hn' : n.modifyAt? (fun _ => v') keys = some n')
    (hplaces : ∀ path q x, places path q x → keys.map .key <+: path)
    (h : Arranged o R (fun path => places (keys.map .key ++ path)) v v') :
    Arranged o R places n n' := by
  induction keys generalizing n n' places with
  | nil =>
    cases hn
    cases hn'
    exact h
  | cons key keys ih =>
    obtain ⟨m, child, rfl, hget, hv⟩ := Node.lookup_cons_eq_some hn
    simp only [Node.modifyAt?, hget] at hn'
    obtain ⟨child', hchild', rfl⟩ := Option.map_eq_some_iff.mp hn'
    apply arranged_modify hget
    · intro path q x hx
      obtain ⟨rest, rfl⟩ := hplaces path q x hx
      exact ⟨_, rfl⟩
    · refine ih hv hchild' (fun path q x hx => ?_) h
      simpa [List.cons_prefix_cons] using hplaces _ q x hx

/-- The places that are met from the definitions of the table. -/
def Definitions (o : Options) (doc : Node) (path : List Step) (q : Place) (x : Node) : Prop :=
  ∃ table name body rest, doc.lookup o.definitionsPath = some (.mapping table) ∧
    Entries.get? table name = some body ∧
    path = o.definitionsPath.map .key ++ .key name :: rest ∧ Comes .definition body rest q x

theorem arranging_schemas : Arranging o (Definitions o) (schemas o) := by
  intro doc r
  by_cases h : ∃ table, doc.lookup o.definitionsPath = some (.mapping table)
  · obtain ⟨table, htable⟩ := h
    obtain ⟨doc₁, hrun, hm, -⟩ := schemas_of_lookup htable r
    rw [hrun]
    have hwalks : Arranging o _ _ := .onEntries (arranging_walk (o := o))
    obtain ⟨hgrows, harranged⟩ := hwalks (.mapping table) r
    refine ⟨hgrows, fun R hR => arranged_modifyAt? htable hm ?_ ?_⟩
    · rintro path q x ⟨_, _, _, _, -, -, rfl, -⟩
      exact List.prefix_append ..
    · apply (harranged R hR).congr
      intro path q x
      constructor
      · rintro ⟨table', name, body, rest, htable', hbody, hpath, h⟩
        cases htable.symm.trans htable'
        exact ⟨name, body, rest, hbody, List.append_cancel_left hpath, h⟩
      · rintro ⟨name, body, rest, hbody, rfl, h⟩
        exact ⟨table, name, body, rest, htable, hbody, rfl, h⟩
  · unfold schemas
    split
    next table htable => exact absurd ⟨table, htable⟩ h
    next =>
      refine ⟨Grows.refl r, fun R _ => arranged_of_none ?_ doc⟩
      rintro path q x ⟨table, _, _, _, htable, -⟩
      exact h ⟨table, htable⟩

/-! ## The whole extraction -/

/-- The places that are met from the payloads of a document. -/
def PayloadPlaces (doc : Node) (path : List Step) (q : Place) (x : Node) : Prop :=
  ∃ keys schema rest, PayloadAt doc keys schema ∧ path = keys.map .key ++ rest ∧
    Comes .payload schema rest q x

/-- Both parts of an extraction leave at each place that they meet what its kind tells, and change
nothing else: first at the places in the definitions, and then at those in the payloads, which are
looked at as the first part leaves them. All that is in the registry has been moved there from one
of the two trees, with the description that it had, and with what is left at the places inside it.
Where a description stands beside a reference, the form that is compared is that of the bare
reference, whatever table it leads into and whatever is being expanded. -/
theorem run_marks (o : Options) (doc : Node) :
    let walked := ((schemas o doc).run .empty).1
    let doc' := ((run o doc).run .empty).1
    let R := ((run o doc).run .empty).2
    Arranged o R (Definitions o doc) doc walked ∧ Arranged o R (PayloadPlaces walked) walked doc' ∧
    (∀ name, R.get? name ≠ none →
      ∃ x, (MovedFrom doc x ∨ MovedFrom walked x) ∧ Copied o R name x) ∧
    ∀ table visited d target,
      Equivalence.normalForm table o visited (.object [("description", .scalar (.string d)),
          ("allOf", .array [.object [("$ref", .scalar (.string target))]])]) =
        Equivalence.normalForm table o visited (.object [("$ref", .scalar (.string target))]) := by
  intro walked doc' R
  have hpaths := arranging_paths (o := o) walked ((schemas o doc).run .empty).2
  have hschemas := arranging_schemas (o := o) doc .empty
  refine ⟨hschemas.2 R hpaths.1, ?_, ?_, ?_⟩
  · apply (hpaths.2 R (Grows.refl R)).congr
    intro path q x
    exact underPaths_iff.symm
  · intro name hname
    by_cases hfirst : ((schemas o doc).run .empty).2.get? name = none
    · obtain ⟨x, hmints, hmarked⟩ := (tracing_paths walked _).2 name ⟨hfirst, hname⟩
      exact ⟨x, .inr (hmarked _ (List.Subset.refl _)).movedFrom, hmints.copied (Grows.refl R)⟩
    · obtain ⟨x, hmints, hmarked⟩ := (tracing_schemas doc .empty).2 name ⟨rfl, hfirst⟩
      exact ⟨x, .inl (hmarked _ (List.Subset.refl _)).movedFrom, hmints.copied hpaths.1⟩
  · intro table visited d target
    exact Equivalence.form_documented table visited d target

end InlineSchema.Extraction
