import InlineSchema.Proofs.Extracted
import InlineSchema.Proofs.Ledger
import InlineSchema.Proofs.Settling

/-! # References and definitions of a document

What holds of the references that a walk writes holds of both parts of an extraction, which go down
to the places of definitions and payloads by changing the values of keys. So after an extraction
the document has the references that it had, and one to each new definition.
-/
namespace InlineSchema.Extraction
open Registry

variable {o : Options}

/-- An action that writes one reference for each definition that it adds. The definitions can be
reached from `places` in what it leaves. -/
structure Accounted (o : Options) (f : Node → StateM Registry Node)
    (places : (Node → Prop) → Node → Prop) : Prop where
  grows : ∀ n r, Grows r ((f n).run r).2
  text? : ∀ n r, ((f n).run r).1.text? = n.text?
  balanced : ∀ n r, Balanced o r ((f n).run r).2 n.references ((f n).run r).1.references
  reaches : ∀ R A, Closed o R A → ∀ n r, Keeps R r ((f n).run r).2 →
    places (fun v => LeadsInto o A v.references) ((f n).run r).1 → fresh r ((f n).run r).2 ⊆ A

variable {f : Node → StateM Registry Node} {places : (Node → Prop) → Node → Prop} {key : String}

theorem fresh_refl_subset (r : Registry) (A : Set String) : fresh r r ⊆ A := by
  rw [fresh_refl]
  exact Set.empty_subset A

theorem accounted_walk (base : String) : Accounted o (walk o base) fun P => P where
  grows n r := (walked o base n r).grows
  text? n r := ((walked o base n r).moves _ subset_rfl (Grows.refl _).keeps).text?_eq
  balanced n r := (walked o base n r).balanced
  reaches _ _ hA n r hR := (walked o base n r).reaches hA trivial hR

theorem accounted_payload (name : String) : Accounted o (payload o name) fun P => P := by
  constructor
  · intro n r
    rcases walked_payload (o := o) name n r with ⟨-, h, -⟩ | ⟨-, h⟩ <;> exact h.grows
  · intro n r
    rcases walked_payload (o := o) name n r with ⟨hi, -, he⟩ | ⟨-, h⟩
    · obtain ⟨m, rfl, -⟩ := Node.mapping_of_moved hi
      rw [he]
      rfl
    · exact (h.moves _ subset_rfl (Grows.refl _).keeps).text?_eq
  · intro n r
    rcases walked_payload (o := o) name n r with ⟨-, h, he⟩ | ⟨-, h⟩
    · rw [he, Node.references_reference]
      exact h.balanced
    · exact h.balanced
  · intro R A hA n r hR hleft
    rcases walked_payload (o := o) name n r with ⟨-, h, he⟩ | ⟨-, h⟩
    · rw [he, Node.references_reference] at hleft
      exact h.reaches hA trivial hR hleft
    · exact h.reaches hA trivial hR hleft

/-! ## Changing the values of keys -/

theorem Accounted.onChild (hf : Accounted o f places) (key : String) :
    Accounted o (Node.onChild key f) fun P => AtChild key (places P) := by
  constructor
  · intro n r
    cases hv : n.get? key with
    | none =>
      rw [onChild_of_get?_eq_none hv]
      exact Grows.refl r
    | some v =>
      rw [(get?_onChild hv r).2]
      exact hf.grows v r
  · intro n r
    cases n with
    | scalar | sequence => rfl
    | mapping m =>
      cases hv : Entries.get? m key with
      | none => rw [onChild_of_none hv]; rfl
      | some v => rw [run_onChild hv]; rfl
  · intro n r
    cases n with
    | scalar | sequence => exact balanced_refl r _
    | mapping m =>
      cases hv : Entries.get? m key with
      | none =>
        rw [onChild_of_none hv]
        exact balanced_refl r _
      | some v =>
        rw [run_onChild hv]
        exact (hf.balanced v r).of_perm (Node.references_modify hv (hf.text? v r))
  · intro R A hA n r hR hleft
    cases hv : n.get? key with
    | none =>
      rw [onChild_of_get?_eq_none hv]
      exact fresh_refl_subset r A
    | some v =>
      obtain ⟨hvalue, hregistry⟩ := get?_onChild (f := f) hv r
      rw [hregistry] at hR ⊢
      exact hf.reaches R A hA v r hR (hleft _ hvalue)

/-- Two changes of different keys. -/
theorem Accounted.onChild_onChild (key₁ key₂ : String) (hne : key₁ ≠ key₂)
    {f₁ f₂ : Node → StateM Registry Node} {places₁ places₂ : (Node → Prop) → Node → Prop}
    (h₁ : Accounted o f₁ places₁) (h₂ : Accounted o f₂ places₂) :
    Accounted o (fun n => n.onChild key₁ f₁ >>= Node.onChild key₂ f₂)
      fun P n => AtChild key₁ (places₁ P) n ∧ AtChild key₂ (places₂ P) n := by
  have h₁ := h₁.onChild key₁
  have h₂ := h₂.onChild key₂
  constructor
  · intro n r
    exact (h₁.grows n r).trans (h₂.grows _ _)
  · intro n r
    exact (h₂.text? _ _).trans (h₁.text? n r)
  · intro n r
    exact (h₁.balanced n r).trans (h₂.balanced _ _) (h₁.grows n r) (h₂.grows _ _)
  · intro R A hA n r hR hleft
    rw [run_bind] at hR hleft ⊢
    obtain ⟨hleft₁, hleft₂⟩ := hleft
    have hgrows₁ := h₁.grows n r
    have hgrows₂ := h₂.grows ((n.onChild key₁ f₁).run r).1 ((n.onChild key₁ f₁).run r).2
    -- The second change leaves the first key alone.
    rw [AtChild, get?_onChild_of_ne hne] at hleft₁
    exact fresh_subset_trans (h₁.reaches R A hA n r (hR.left hgrows₂) hleft₁)
      (h₂.reaches R A hA _ _ (hR.right hgrows₁) hleft₂)

section
variable {f : String → Node → StateM Registry Node} {places : String → (Node → Prop) → Node → Prop}

/-- A run over the entries of a mapping, one after the other. -/
theorem accounted_changed (hf : ∀ k, Accounted o (f k) (places k)) (m : Entries Node)
    (r : Registry) :
    let x := changed f m r
    Grows r x.2 ∧ Node.ownReference x.1 = Node.ownReference m ∧
      Balanced o r x.2 (m.flatMap fun p => p.2.references) (x.1.flatMap fun p => p.2.references) ∧
      ∀ R A, Closed o R A → Keeps R r x.2 →
        (∀ p ∈ x.1, places p.1 (fun v => LeadsInto o A v.references) p.2) → fresh r x.2 ⊆ A := by
  induction m generalizing r with
  | nil => exact ⟨Grows.refl r, rfl, balanced_refl r _, fun _ A _ _ _ => fresh_refl_subset r A⟩
  | cons p m ih =>
    obtain ⟨k, v⟩ := p
    intro x
    obtain ⟨hgrows, hown, hbalanced, hreaches⟩ := ih ((f k v).run r).2
    have hhead := (hf k).grows v r
    refine ⟨hhead.trans hgrows, ?_, ?_, fun R A hA hR hleft => ?_⟩
    · rw [Node.ownReference, Node.ownReference] at hown ⊢
      rw [Entries.get?_cons]
      change Option.bind (Entries.get? ((k, ((f k v).run r).1) ::
        (changed f m ((f k v).run r).2).1) _) _ = _
      rw [Entries.get?_cons]
      split
      · exact (hf k).text? v r
      · exact hown
    · exact ((hf k).balanced v r).append hbalanced hhead hgrows
    · obtain ⟨hleft, htail⟩ := List.forall_mem_cons.mp hleft
      exact fresh_subset_trans ((hf k).reaches R A hA v r (hR.left hgrows) hleft)
        (hreaches R A hA (hR.right hhead) htail)

theorem Accounted.onEntries (hf : ∀ k, Accounted o (f k) (places k)) :
    Accounted o (Node.onEntries f) fun P => AtEntries fun k => places k P := by
  constructor
  · intro n r
    cases n with
    | scalar | sequence => exact Grows.refl r
    | mapping m =>
      rw [run_onEntries]
      exact (accounted_changed hf m r).1
  · intro n r
    cases n with
    | scalar | sequence => rfl
    | mapping m => rw [run_onEntries]; rfl
  · intro n r
    cases n with
    | scalar | sequence => exact balanced_refl r _
    | mapping m =>
      obtain ⟨hgrows, hown, hbalanced, -⟩ := accounted_changed hf m r
      rw [run_onEntries, Node.references_mapping, Node.references_mapping, hown]
      exact (balanced_refl r _).append hbalanced (Grows.refl r) hgrows
  · intro R A hA n r hR hleft
    cases n with
    | scalar | sequence => exact fresh_refl_subset r A
    | mapping m =>
      rw [run_onEntries] at hR hleft ⊢
      exact (accounted_changed hf m r).2.2.2 R A hA hR (atEntries_mapping.mp hleft)

end

/-- An action that leaves some nodes alone, and tells the others from them afterwards. -/
theorem accounted_when {p : Node → Prop} {g : Node → StateM Registry Node}
    (hskip : ∀ n, ¬p n → g n = pure n)
    (hact : ∀ n, p n → ∃ f, Accounted o f places ∧ g n = f n ∧ ∀ r, p ((f n).run r).1) :
    Accounted o g fun P n => p n → places P n := by
  constructor
  · intro n r
    by_cases hn : p n
    · obtain ⟨f, hf, he, -⟩ := hact n hn
      rw [he]
      exact hf.grows n r
    · rw [hskip n hn]
      exact Grows.refl r
  · intro n r
    by_cases hn : p n
    · obtain ⟨f, hf, he, -⟩ := hact n hn
      rw [he]
      exact hf.text? n r
    · rw [hskip n hn]
      rfl
  · intro n r
    by_cases hn : p n
    · obtain ⟨f, hf, he, -⟩ := hact n hn
      rw [he]
      exact hf.balanced n r
    · rw [hskip n hn]
      exact balanced_refl r _
  · intro R A hA n r hR hleft
    by_cases hn : p n
    · obtain ⟨f, hf, he, hp⟩ := hact n hn
      rw [he] at hR hleft ⊢
      exact hf.reaches R A hA n r hR (hleft (hp r))
    · rw [hskip n hn]
      exact fresh_refl_subset r A

/-! ## The places of payloads -/

theorem accounted_content (name : String) : Accounted o (content o name) AtContent := by
  have htypes : Accounted o (Node.onEntries fun _ media => media.onChild "schema" (payload o name))
      fun P => AtEntries fun _ => AtChild "schema" P :=
    .onEntries fun _ => (accounted_payload name).onChild "schema"
  refine accounted_when (p := fun n => n.isReference = false) (fun n hn => ?_) fun n hn => ?_
  · rw [content, if_pos (Bool.eq_true_of_not_eq_false hn)]
  · refine ⟨_, htypes.onChild "content", ?_, fun r => ?_⟩
    · rw [content, hn, if_neg Bool.false_ne_true]
    · rw [Node.isReference, get?_onChild_of_ne (by decide)]
      exact hn

theorem accounted_operation : Accounted o (operation o) AtOperation := by
  refine accounted_when (p := fun n => (operationName? n).isSome) (fun n hn => ?_) fun n hn => ?_
  · rw [operation, Option.not_isSome_iff_eq_none.mp hn]
  · obtain ⟨name, hname⟩ := Option.isSome_iff_exists.mp hn
    have hboth := Accounted.onChild_onChild "responses" "requestBody" (by decide)
      (.onEntries fun status => accounted_content (o := o) (responseName name status))
      (accounted_content (o := o) (requestName name))
    refine ⟨_, hboth, ?_, fun r => ?_⟩
    · rw [operation, hname]
    · -- Neither change touches the identifier of the operation.
      rw [operationName?, run_bind, get?_onChild_of_ne (by decide), get?_onChild_of_ne (by decide)]
      exact hn

theorem accounted_pathItems : Accounted o (pathItems o) AtPayloads := by
  refine .onEntries fun _ => .onEntries fun key => ?_
  refine accounted_when (p := fun _ => methods.contains key) (fun n hn => ?_) fun n hn => ?_
  · exact if_neg hn
  · exact ⟨operation o, accounted_operation, if_pos hn, fun _ => hn⟩

theorem accounted_paths : Accounted o (paths o) fun P => AtChild "paths" (AtPayloads P) :=
  accounted_pathItems.onChild "paths"

theorem accounted_definitions :
    Accounted o (Node.onEntries (walk o)) fun P => AtEntries fun _ => P :=
  .onEntries accounted_walk

/-! ## Both parts -/

/-- A change at the end of a chain of keys changes the references by those of the value there. -/
theorem references_modifyAt? {g : Node → Node} {n v : Node} {path : List String}
    (hv : n.lookup path = some v) (ht : (g v).text? = v.text?) {n' : Node}
    (hn' : n.modifyAt? g path = some n') :
    (n'.references ++ v.references).Perm (n.references ++ (g v).references) ∧
      n'.text? = n.text? := by
  induction path generalizing n n' with
  | nil =>
    obtain rfl := Option.some.inj hv
    obtain rfl := Option.some.inj hn'
    exact ⟨List.perm_append_comm, ht⟩
  | cons key path ih =>
    obtain ⟨m, child, rfl, hc, hrest⟩ := Node.lookup_cons_eq_some hv
    rw [Node.modifyAt?, hc] at hn'
    obtain ⟨child', hchild, rfl⟩ := Option.map_eq_some_iff.mp hn'
    obtain ⟨hperm, htext⟩ := ih hrest hchild
    refine ⟨?_, rfl⟩
    have hmodify := Node.references_modify hc htext
    rw [List.perm_iff_count] at hperm hmodify ⊢
    intro t
    have := hperm t
    have := hmodify t
    simp only [List.count_append] at *
    omega

theorem balanced_schemas (doc : Node) (r : Registry) :
    Balanced o r ((schemas o doc).run r).2 doc.references ((schemas o doc).run r).1.references := by
  cases hentries : (doc.lookup o.definitionsPath).bind Node.entries? with
  | none =>
    have hpure : schemas o doc = pure doc := by
      rw [schemas]
      split
      next table htable => rw [htable] at hentries; cases hentries
      next => rfl
    rw [hpure]
    exact balanced_refl r _
  | some table =>
    obtain ⟨n, hn, htable⟩ := Option.bind_eq_some_iff.mp hentries
    cases n with
    | scalar => cases htable
    | sequence => cases htable
    | mapping table =>
      obtain ⟨doc₁, hrun, hmodify, -⟩ := schemas_of_lookup (o := o) hn r
      rw [hrun]
      refine (accounted_definitions.balanced (.mapping table) r).of_perm ?_
      exact (references_modifyAt? hn (accounted_definitions.text? _ r) hmodify).1

theorem balanced_run (doc : Node) (r : Registry) :
    Balanced o r ((run o doc).run r).2 doc.references ((run o doc).run r).1.references := by
  rw [run_run]
  exact (balanced_schemas doc r).trans (accounted_paths.balanced _ _) (grows_schemas doc r)
    (accounted_paths.grows _ _)

end InlineSchema.Extraction
