import InlineSchema.Proofs.Settled

/-! # References and definitions

A walk writes one reference for each definition that it adds. All other references that it finds it
leaves, in the tree or in the body of a definition; and a definition that it adds is reached from
what it leaves in the tree, by way of the bodies of others.
-/
namespace InlineSchema

namespace Node

mutual

/-- The texts of all references in the tree, whatever stands beside them. -/
def references : Node → List String
  | .scalar _ => []
  | .sequence xs => itemReferences xs
  | .mapping m => ((Entries.get? m refKey).bind text?).toList ++ entryReferences m

def itemReferences : List Node → List String
  | [] => []
  | x :: xs => references x ++ itemReferences xs

def entryReferences : List (String × Node) → List String
  | [] => []
  | (_, v) :: m => references v ++ entryReferences m

end

def ownReference (m : Entries Node) : Option String := (Entries.get? m refKey).bind text?

theorem itemReferences_eq (xs : List Node) : itemReferences xs = xs.flatMap references := by
  induction xs with
  | nil => rfl
  | cons x xs ih => rw [itemReferences, ih, List.flatMap_cons]

theorem entryReferences_eq (m : Entries Node) :
    entryReferences m = m.flatMap fun p => p.2.references := by
  induction m with
  | nil => rfl
  | cons p m ih =>
    obtain ⟨k, v⟩ := p
    rw [entryReferences, ih, List.flatMap_cons]

theorem references_sequence (xs : List Node) :
    (sequence xs).references = xs.flatMap references := by
  rw [references, itemReferences_eq]

theorem references_mapping (m : Entries Node) :
    (mapping m).references = (ownReference m).toList ++ m.flatMap fun p => p.2.references := by
  rw [references, entryReferences_eq, ownReference]

@[simp] theorem references_reference (target : String) :
    (reference target).references = [target] := rfl

@[simp] theorem references_keepDescription (v : Node) (target : String) :
    (Extraction.keepDescription v (reference target)).references = [target] := by
  rw [Extraction.keepDescription]
  split
  · rfl
  · rfl

theorem references_subset_of_get? {n v : Node} {key : String} (h : n.get? key = some v) :
    v.references ⊆ n.references := by
  cases n with
  | scalar => cases h
  | sequence => cases h
  | mapping m =>
    intro t ht
    rw [references_mapping]
    exact List.mem_append_right _ (List.mem_flatMap.mpr ⟨_, Entries.mem_of_get? h, ht⟩)

theorem ownReference_modify {m : Entries Node} {key : String} {v v' : Node}
    (hv : Entries.get? m key = some v) (ht : v'.text? = v.text?) :
    ownReference (Entries.modify key (fun _ => v') m) = ownReference m := by
  rw [ownReference, ownReference]
  by_cases hk : refKey = key
  · subst hk
    rw [Entries.get?_modify_self, hv]
    exact ht
  · rw [Entries.get?_modify_of_ne _ _ hk]

theorem count_flatMap_modify {m : Entries Node} {key : String} {v : Node}
    (hv : Entries.get? m key = some v) (v' : Node) (t : String) :
    ((Entries.modify key (fun _ => v') m).flatMap fun p => p.2.references).count t +
        v.references.count t =
      (m.flatMap fun p => p.2.references).count t + v'.references.count t := by
  induction m with
  | nil => cases hv
  | cons p m ih =>
    rw [Entries.get?_cons] at hv
    rw [Entries.modify_cons]
    split at hv
    next hk =>
      cases hv
      simp only [if_pos hk, List.flatMap_cons, List.count_append]
      omega
    next hk =>
      have := ih hv
      simp only [if_neg hk, List.flatMap_cons, List.count_append]
      omega

/-- A change of one value changes the references by those of the value. -/
theorem references_modify {m : Entries Node} {key : String} {v v' : Node}
    (hv : Entries.get? m key = some v) (ht : v'.text? = v.text?) :
    ((mapping (Entries.modify key (fun _ => v') m)).references ++ v.references).Perm
      ((mapping m).references ++ v'.references) := by
  rw [List.perm_iff_count]
  intro t
  have := count_flatMap_modify hv v' t
  simp only [references_mapping, ownReference_modify hv ht, List.count_append]
  omega

end Node

namespace Registry

/-- The definitions that the second registry has beyond the first. -/
def added (r r' : Registry) : Entries Node := r'.entries.filter fun p => !r.contains p.1

variable {r r₁ r' : Registry}

theorem mem_entries {p : String × Node} : p ∈ r.entries ↔ r.get? p.1 = some p.2 :=
  Entries.mem_iff_get? r.sorted.nodup

theorem mem_added {p : String × Node} :
    p ∈ added r r' ↔ r.get? p.1 = none ∧ r'.get? p.1 = some p.2 := by
  rw [added, List.mem_filter, mem_entries, Bool.not_eq_true', contains_eq_false, and_comm]

theorem nodup_added (r r' : Registry) : (added r r').Nodup :=
  (r'.sorted.nodup.of_map Prod.fst).filter _

theorem added_refl (r : Registry) : added r r = [] := by
  refine List.eq_nil_iff_forall_not_mem.mpr fun p hp => ?_
  obtain ⟨hnone, hsome⟩ := mem_added.mp hp
  rw [hnone] at hsome
  cases hsome

theorem added_empty (r : Registry) : added .empty r = r.entries :=
  List.filter_eq_self.mpr fun _ _ => rfl

/-- What two halves of a course add. -/
theorem added_trans (h : Grows r r₁) (h' : Grows r₁ r') :
    (added r r').Perm (added r r₁ ++ added r₁ r') := by
  have hnodup : (added r r₁ ++ added r₁ r').Nodup := by
    refine List.nodup_append'.mpr ⟨nodup_added _ _, nodup_added _ _, fun p hp hp' => ?_⟩
    obtain ⟨-, hsome⟩ := mem_added.mp hp
    obtain ⟨hnone, -⟩ := mem_added.mp hp'
    rw [hnone] at hsome
    cases hsome
  refine (List.perm_ext_iff_of_nodup (nodup_added _ _) hnodup).mpr fun p => ?_
  rw [List.mem_append, mem_added, mem_added, mem_added]
  constructor
  · rintro ⟨hnone, hsome⟩
    cases hr₁ : r₁.get? p.1 with
    | none => exact .inr ⟨rfl, hsome⟩
    | some body => exact .inl ⟨hnone, (h' _ _ hr₁).symm.trans hsome⟩
  · rintro (⟨hnone, hsome⟩ | ⟨hnone, hsome⟩)
    · exact ⟨hnone, h' _ _ hsome⟩
    · exact ⟨h.eq_none hnone, hsome⟩

/-- A definition is added to those that are added while its name is reserved. -/
theorem added_mint (r r' : Registry) (base : String) (body : Node) :
    (added r (r'.define (r.reserve base).1 body)).Perm
      (((r.reserve base).1, body) :: added (r.reserve base).2 r') := by
  have hreserved : (r.reserve base).2.get? (r.reserve base).1 = some Node.emptyMapping := by
    rw [get?_reserve, if_pos rfl]
  have hnodup : (((r.reserve base).1, body) :: added (r.reserve base).2 r').Nodup := by
    refine List.nodup_cons.mpr ⟨fun hp => ?_, nodup_added _ _⟩
    obtain ⟨hnone, -⟩ := mem_added.mp hp
    rw [hreserved] at hnone
    cases hnone
  refine (List.perm_ext_iff_of_nodup (nodup_added _ _) hnodup).mpr fun p => ?_
  rw [List.mem_cons, mem_added, mem_added, get?_define]
  by_cases hp : p.1 = (r.reserve base).1
  · rw [hp, hreserved, if_pos rfl]
    simp only [reserve_free, true_and, reduceCtorEq, false_and, or_false, Option.some.injEq]
    exact ⟨fun he => Prod.ext hp he.symm, fun he => (congrArg Prod.snd he).symm⟩
  · rw [if_neg hp, get?_reserve, if_neg hp]
    refine (or_iff_right fun he => hp (congrArg Prod.fst he)).symm

end Registry

namespace Extraction
open Registry

variable {o : Options}

/-! ## One reference for each definition -/

/-- Between the two registries as many references are written as definitions are added, one to
each. What is found refers to the same as what is left otherwise, here and in the definitions. -/
def Balanced (o : Options) (r r' : Registry) (found left : List String) : Prop :=
  (left ++ (added r r').flatMap fun p => p.2.references).Perm
    (found ++ (added r r').map fun p => o.refTo p.1)

theorem balanced_iff {r r' : Registry} {found left : List String} :
    Balanced o r r' found left ↔ ∀ t,
      left.count t + ((added r r').flatMap fun p => p.2.references).count t =
        found.count t + ((added r r').map fun p => o.refTo p.1).count t := by
  rw [Balanced, List.perm_iff_count]
  simp only [List.count_append]

theorem balanced_refl (r : Registry) (texts : List String) : Balanced o r r texts texts := by
  rw [Balanced, added_refl]
  exact List.Perm.refl _

/-- What is found in two places, one after the other. -/
theorem Balanced.append {r r₁ r' : Registry} {found found' left left' : List String}
    (h : Balanced o r r₁ found left) (h' : Balanced o r₁ r' found' left') (hg : Grows r r₁)
    (hg' : Grows r₁ r') : Balanced o r r' (found ++ found') (left ++ left') := by
  rw [balanced_iff] at *
  intro t
  have hadded := added_trans hg hg'
  have hbodies := (hadded.flatMap_right fun p => p.2.references).count_eq t
  have hnames := (hadded.map fun p => o.refTo p.1).count_eq t
  have := h t
  have := h' t
  simp only [List.flatMap_append, List.map_append, List.count_append] at *
  omega

theorem Balanced.of_perm {r r' : Registry} {found found' left left' : List String}
    (h : Balanced o r r' found left) (hp : (left' ++ found).Perm (found' ++ left)) :
    Balanced o r r' found' left' := by
  rw [balanced_iff] at *
  intro t
  have := hp.count_eq t
  have := h t
  simp only [List.count_append] at *
  omega

/-- What is left first is found again. -/
theorem Balanced.trans {r r₁ r' : Registry} {found between left : List String}
    (h : Balanced o r r₁ found between) (h' : Balanced o r₁ r' between left) (hg : Grows r r₁)
    (hg' : Grows r₁ r') : Balanced o r r' found left := by
  refine (h.append h' hg hg').of_perm ?_
  rw [← List.append_assoc found between left]
  exact List.perm_append_comm

theorem Balanced.mint {r r' : Registry} {base : String} {found : List String} {body : Node}
    (h : Balanced o (r.reserve base).2 r' found body.references) :
    Balanced o r (r'.define (r.reserve base).1 body) found [o.refTo (r.reserve base).1] := by
  rw [balanced_iff] at *
  intro t
  have hadded := added_mint r r' base body
  have hbodies := (hadded.flatMap_right fun p => p.2.references).count_eq t
  have hnames := (hadded.map fun p => o.refTo p.1).count_eq t
  have := h t
  simp only [List.flatMap_cons, List.map_cons, List.count_append, List.count_cons,
    List.count_nil] at *
  omega

theorem Moved.text?_eq {R : Registry} {names : Set String} {entry : Bool} {g : ReadAs} {n n' : Node}
    (h : Moved o R names entry g n n') : n'.text? = n.text? := by
  cases h with
  | scalar | sequence | mapping => rfl
  | minted _ _ _ _ _ hn' =>
    rcases hn' with rfl | ⟨d, rfl⟩ <;> rfl

theorem Moved.ownReference_eq {R : Registry} {names : Set String} {entry : Bool} {g : ReadAs}
    {m m' : Entries Node} (hk : Entries.keys m = Entries.keys m')
    (h : ∀ p ∈ m.zip m', Moved o R names entry (g.under p.1.1) p.1.2 p.2.2) :
    Node.ownReference m' = Node.ownReference m := by
  rw [Node.ownReference, Node.ownReference]
  cases hv : Entries.get? m Node.refKey with
  | none => rw [Entries.get?_eq_none_of_keys hk hv]
  | some v =>
    obtain ⟨v', hv', hz⟩ := Entries.exists_mem_zip_of_get? hk hv
    rw [hv']
    exact (h _ hz).text?_eq

def Part.found : Part → List String
  | .node _ n _ => n.references
  | .sites _ _ m _ => (Node.mapping m).references
  | .site _ _ v _ | .place _ v _ | .mint _ v _ | .property _ v _ => v.references
  | .branches _ _ _ xs _ => xs.flatMap Node.references
  | .properties _ ps _ => ps.flatMap fun p => p.2.references

def Part.left (o : Options) : Part → List String
  | .node _ _ n' => n'.references
  | .sites _ _ _ m' => (Node.mapping m').references
  | .site _ _ _ v' | .place _ _ v' | .property _ _ v' => v'.references
  | .mint _ _ name => [o.refTo name]
  | .branches _ _ _ _ xs' => xs'.flatMap Node.references
  | .properties _ _ ps' => ps'.flatMap fun p => p.2.references

/-- The walked form of a value is a text exactly if the value is. -/
theorem Walked.text?_eq {base : String} {s : Site} {v v' : Node} {r r' : Registry}
    (h : Walked o (.site base s v v') r r') : v'.text? = v.text? :=
  Moved.text?_eq (h.moves _ subset_rfl (Grows.refl _).keeps)

theorem Walked.balanced {part : Part} {r r' : Registry} (h : Walked o part r r') :
    Balanced o r r' part.found (part.left o) := by
  induction h with
  | leaf | done | noBranches | noProperties | lastBranch | lastProperty => exact balanced_refl _ _
  | mapping _ ih | absent _ _ ih | items _ ih | furtherProperties _ ih | kept _ _ ih
  | other _ _ _ ih => exact ih
  | present hs hw hws ihv ih =>
    refine (ihv.append ih hw.grows hws.grows).of_perm ?_
    have hm := Node.references_modify hs hw.text?_eq
    rw [List.perm_iff_count] at hm ⊢
    intro t
    have := hm t
    simp only [Part.found, Part.left, List.count_append] at *
    omega
  | branches _ ih =>
    rw [Part.found, Part.left, Node.references_sequence, Node.references_sequence]
    exact ih
  | properties hps ih =>
    have hmoved := hps.moves _ subset_rfl (Grows.refl _).keeps
    rw [Part.found, Part.left, Node.references_mapping, Node.references_mapping,
      Moved.ownReference_eq (g := .table) hmoved.1 hmoved.2]
    exact (balanced_refl _ _).append ih (Grows.refl _) hps.grows
  | hoisted _ _ ih =>
    rw [Part.left, Node.references_reference]
    exact ih
  | object _ _ ih =>
    rw [Part.left, Node.references_keepDescription]
    exact ih
  | mint _ ih => exact ih.mint
  | branch hx hxs ihx ih | property hx hxs ihx ih =>
    rw [Part.found, Part.left, List.flatMap_cons, List.flatMap_cons]
    exact ihx.append ih hx.grows hxs.grows
  | @array _ name m x _ _ _ ha hx _ ih =>
    obtain ⟨v, hv, hvi⟩ := Node.items_of_isInlineObjectArray ha
    obtain rfl := Option.some.inj (hx.symm.trans hv)
    obtain ⟨_, rfl⟩ := Node.isMapping_of_isInlineObject hvi
    have htext : (Node.reference (o.refTo name)).text? = (Node.mapping _).text? := rfl
    exact ih.of_perm (Node.references_modify hx htext)

/-! ## Definitions are reached from what is left -/

def Closed (o : Options) (R : Registry) (A : Set String) : Prop :=
  ∀ d ∈ A, ∀ body, R.get? d = some body → ∀ name, o.refTo name ∈ body.references → name ∈ A

def LeadsInto (o : Options) (A : Set String) (texts : List String) : Prop :=
  ∀ name, o.refTo name ∈ texts → name ∈ A

theorem LeadsInto.mono {A : Set String} {texts texts' : List String} (h : LeadsInto o A texts)
    (hsub : texts' ⊆ texts) : LeadsInto o A texts' := fun name hname => h name (hsub hname)

theorem fresh_subset_trans {r r₁ r' : Registry} {A : Set String} (h : fresh r r₁ ⊆ A)
    (h' : fresh r₁ r' ⊆ A) : fresh r r' ⊆ A := fun _ hn =>
  (mem_fresh_trans hn).elim (fun hn => h hn) fun hn => h' hn

/-- The definitions that a walk adds are among those that can be reached from what it leaves. -/
theorem Walked.reaches {R : Registry} {A : Set String} (hA : Closed o R A) {part : Part}
    {r r' : Registry} (h : Walked o part r r') :
    part.Once → Keeps R r r' → LeadsInto o A (part.left o) → fresh r r' ⊆ A := by
  induction h with
  | leaf | done | noBranches | noProperties | lastBranch | lastProperty =>
    intro _ _ _
    rw [fresh_refl]
    exact Set.empty_subset A
  | mapping _ ih => exact fun _ => ih Site.nodup_keys
  | absent _ _ ih => exact fun honce => ih (List.nodup_cons.mp honce).2
  | @present _ s ss m m' _ v' _ _ _ hs hw hws ihv ih =>
    intro honce hR hleft
    obtain ⟨hnot, honce⟩ := List.nodup_cons.mp honce
    have hstays : (Node.mapping m').get? s.key = some v' := by
      rw [hws.agreeOutside.other s.key hnot, Node.get?_mapping, Entries.get?_modify_self, hs]
      rfl
    exact fresh_subset_trans
      (ihv trivial (hR.left hws.grows) (hleft.mono (Node.references_subset_of_get? hstays)))
      (ih honce (hR.right hw.grows) hleft)
  | branches _ ih =>
    intro _ hR hleft
    rw [Part.left, Node.references_sequence] at hleft
    exact ih trivial hR hleft
  | properties _ ih =>
    intro _ hR hleft
    rw [Part.left, Node.references_mapping] at hleft
    exact ih trivial hR (hleft.mono (List.subset_append_right _ _))
  | items _ ih | furtherProperties _ ih | kept _ _ ih | other _ _ _ ih => exact ih
  | hoisted _ _ ih =>
    intro _ hR hleft
    rw [Part.left, Node.references_reference] at hleft
    exact ih trivial hR hleft
  | object _ _ ih =>
    intro _ hR hleft
    rw [Part.left, Node.references_keepDescription] at hleft
    exact ih trivial hR hleft
  | @array _ name m _ _ _ _ _ hx _ ih =>
    intro _ hR hleft
    have hitems : (Node.mapping (Entries.modify "items"
        (fun _ => Node.reference (o.refTo name)) m)).get? "items" =
          some (Node.reference (o.refTo name)) := by
      rw [Node.get?_mapping, Entries.get?_modify_self, hx]
      rfl
    exact ih trivial hR (hleft.mono (Node.references_subset_of_get? hitems))
  | @mint base v body r r' hw ih =>
    intro _ hR hleft
    have hname : (r.reserve base).1 ∈ A := hleft _ List.mem_cons_self
    have hbody : R.get? (r.reserve base).1 = some body := by
      rw [hR _ (mem_fresh_mint body), get?_define, if_pos rfl]
    have hinside := ih trivial hR.mint (hA _ hname body hbody)
    intro name hn
    rcases eq_or_mem_of_mem_fresh_mint hn with rfl | hn
    · exact hname
    · exact hinside hn
  | branch hx hxs ihx ih | property hx hxs ihx ih =>
    intro _ hR hleft
    rw [Part.left, List.flatMap_cons] at hleft
    exact fresh_subset_trans
      (ihx trivial (hR.left hxs.grows) (hleft.mono (List.subset_append_left _ _)))
      (ih trivial (hR.right hx.grows) (hleft.mono (List.subset_append_right _ _)))

end Extraction
end InlineSchema
