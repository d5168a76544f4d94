import InlineSchema.Equivalence.Check
import InlineSchema.Proofs.Json

/-! # The form in which values are compared

The three passes that prepare a value for comparison, taken together. The form of a value is made
from the forms of the values that it holds, unless it refers to a definition, which then gives the
form.
-/
namespace InlineSchema.Equivalence

variable {table : Entries Json} {o : Options}

/-! ## The passes on lists -/

theorem resolveItems_eq_map (visited : List String) (xs : List Json) :
    resolveItems table o visited xs = xs.map (resolve table o visited) := by
  induction xs with
  | nil => rw [resolveItems, List.map_nil]
  | cons x xs ih => rw [resolveItems, ih, List.map_cons]

theorem resolveEntries_eq_map (visited : List String) (m : Entries Json) :
    resolveEntries table o visited m = m.map fun p => (p.1, resolve table o visited p.2) := by
  induction m with
  | nil => rw [resolveEntries, List.map_nil]
  | cons p m ih =>
    obtain ⟨k, v⟩ := p
    rw [resolveEntries, ih, List.map_cons]

theorem stripItems_eq_map (xs : List Json) : stripItems xs = xs.map (strip false) := by
  induction xs with
  | nil => rfl
  | cons x xs ih => rw [stripItems, ih, List.map_cons]

/-- The entries that are not documentation. -/
def kept {α : Type} (inTable : Bool) (m : Entries α) : Entries α :=
  m.filter fun p => inTable || !documentationKeys.contains p.1

theorem kept_cons {α : Type} (inTable : Bool) (p : String × α) (m : Entries α) :
    kept inTable (p :: m) =
      if inTable || !documentationKeys.contains p.1 then p :: kept inTable m else kept inTable m :=
  List.filter_cons

theorem get?_kept {α : Type} {inTable : Bool} {key : String}
    (hkey : (inTable || !documentationKeys.contains key) = true) (m : Entries α) :
    Entries.get? (kept inTable m) key = Entries.get? m key := by
  rw [kept, Entries.get?_filter (fun k => inTable || !documentationKeys.contains k), if_pos hkey]

/-- Two mappings with the same keys keep the same of them. -/
theorem map_kept_congr {α β γ : Type} {m : Entries α} {m' : Entries β}
    (hk : Entries.keys m = Entries.keys m') {f : String × α → γ} {f' : String × β → γ}
    (h : ∀ p ∈ m.zip m', f' p.2 = f p.1) (inTable : Bool) :
    (kept inTable m').map f' = (kept inTable m).map f := by
  induction m generalizing m' with
  | nil => rw [List.map_eq_nil_iff.mp hk.symm]; rfl
  | cons p m ih =>
    cases m' with
    | nil => cases hk
    | cons p' m' =>
      obtain ⟨hp, hk⟩ := List.cons.inj hk
      have hhead : f' p' = f p := h (p, p') List.mem_cons_self
      have htail := ih hk fun q hq => h q (List.mem_cons_of_mem _ hq)
      rw [kept_cons, kept_cons, ← hp]
      split
      · rw [List.map_cons, List.map_cons, hhead, htail]
      · exact htail

theorem mem_zip_kept {α β : Type} {m : Entries α} {m' : Entries β}
    (hk : Entries.keys m = Entries.keys m') {inTable : Bool} {p : (String × α) × (String × β)}
    (hp : p ∈ m.zip m') (hkept : (inTable || !documentationKeys.contains p.1.1) = true) :
    p ∈ (kept inTable m).zip (kept inTable m') := by
  induction m generalizing m' with
  | nil => cases hp
  | cons q m ih =>
    cases m' with
    | nil => cases hp
    | cons q' m' =>
      obtain ⟨hq, hk⟩ := List.cons.inj hk
      have hq : q.1 = q'.1 := hq
      rw [kept_cons, kept_cons, ← hq]
      rcases List.mem_cons.mp hp with rfl | hp
      · rw [if_pos hkept, if_pos hkept]
        exact List.mem_cons_self
      · have htail := ih hk hp
        split
        · exact List.mem_cons_of_mem _ htail
        · exact htail

theorem keys_kept {α β : Type} {m : Entries α} {m' : Entries β}
    (hk : Entries.keys m = Entries.keys m') (inTable : Bool) :
    Entries.keys (kept inTable m) = Entries.keys (kept inTable m') := by
  induction m generalizing m' with
  | nil => rw [List.map_eq_nil_iff.mp hk.symm]; rfl
  | cons q m ih =>
    cases m' with
    | nil => cases hk
    | cons q' m' =>
      obtain ⟨hq, hk⟩ := List.cons.inj hk
      have hq : q.1 = q'.1 := hq
      rw [kept_cons, kept_cons, ← hq]
      split
      · exact congrArg₂ List.cons hq (ih hk)
      · exact ih hk

theorem kept_map {α β : Type} (inTable : Bool) (f : String × α → β) (m : Entries α) :
    kept inTable (m.map fun p => (p.1, f p)) = (kept inTable m).map fun p => (p.1, f p) := by
  rw [kept, List.filter_map]
  rfl

theorem stripEntries_eq_map (inTable : Bool) (m : Entries Json) :
    stripEntries inTable m =
      (kept inTable m).map fun p => (p.1, strip (!inTable && p.1 == "properties") p.2) := by
  induction m with
  | nil => rfl
  | cons p m ih =>
    obtain ⟨k, v⟩ := p
    rw [stripEntries, ih, kept_cons]
    cases inTable <;> cases documentationKeys.contains k <;> rfl

theorem get?_stripEntries (inTable : Bool) (m : Entries Json) (key : String) :
    Entries.get? (stripEntries inTable m) key =
      if inTable || !documentationKeys.contains key then
        (Entries.get? m key).map (strip (!inTable && key == "properties"))
      else none := by
  rw [stripEntries_eq_map, Entries.get?_map_keyed (fun k => strip (!inTable && k == "properties")),
    kept, Entries.get?_filter (fun k => inTable || !documentationKeys.contains k)]
  split <;> rfl

theorem collapseItems_eq_map (xs : List Json) : collapseItems xs = xs.map collapse := by
  induction xs with
  | nil => rfl
  | cons x xs ih => rw [collapseItems, ih, List.map_cons]

theorem collapseEntries_eq_map (m : Entries Json) :
    collapseEntries m = m.map fun p => (p.1, collapse p.2) := by
  induction m with
  | nil => rfl
  | cons p m ih =>
    obtain ⟨k, v⟩ := p
    rw [collapseEntries, ih, List.map_cons]

/-! ## The passes together -/

def form (table : Entries Json) (o : Options) (inTable : Bool) (visited : List String) (v : Json) :
    Json := collapse (strip inTable (resolve table o visited v))

/-- The form of an object with these entries, which is that of its only branch if it is a
composition. -/
def closed (m : Entries Json) : Json := (onlyBranch? m).getD (.object m)

theorem form_scalar (inTable : Bool) (visited : List String) (s : Scalar) :
    form table o inTable visited (.scalar s) = .scalar s := by
  rw [form, resolve, strip, collapse]

theorem form_array (inTable : Bool) (visited : List String) (xs : List Json) :
    form table o inTable visited (.array xs) = .array (xs.map (form table o false visited)) := by
  rw [form, resolve, resolveItems_eq_map, strip, stripItems_eq_map, collapse, collapseItems_eq_map,
    List.map_map, List.map_map]
  rfl

theorem collapse_object (m : Entries Json) :
    collapse (.object m) = closed (m.map fun p => (p.1, collapse p.2)) := by
  rw [collapse, collapseEntries_eq_map]
  rfl

theorem expansion?_of_not_hasReference {m : Entries Json} (h : hasReference m = false)
    (visited : List String) : expansion? table o visited m = none := by
  have hn : (Entries.get? m Node.refKey).bind Json.text? = none := by
    simpa [hasReference] using h
  rw [expansion?, hn]
  rfl

theorem expansion?_eq_filter (visited : List String) (m : Entries Json) :
    expansion? table o visited m =
      (expansion? table o [] m).filter fun p => !visited.contains p.1 := by
  rw [expansion?, expansion?]
  cases (Entries.get? m Node.refKey).bind Json.text? with
  | none => rfl
  | some target =>
    simp only [Option.bind_eq_bind, Option.bind_some]
    cases o.definitionName? target with
    | none => rfl
    | some name =>
      cases hb : Entries.get? table name with
      | none => simp [hb]
      | some body => cases hv : visited.contains name <;> simp_all [Option.filter]

theorem expansion?_nil_of_some {visited : List String} {m : Entries Json} {p : String × Json}
    (h : expansion? table o visited m = some p) : expansion? table o [] m = some p := by
  rw [expansion?_eq_filter] at h
  exact (Option.filter_eq_some_iff.mp h).1

theorem expansion?_eq_some_iff {visited : List String} {m : Entries Json} {name : String}
    {body : Json} : expansion? table o visited m = some (name, body) ↔
      ∃ target, (Entries.get? m Node.refKey).bind Json.text? = some target ∧
        o.definitionName? target = some name ∧ name ∉ visited ∧
          Entries.get? table name = some body := by
  simp only [expansion?, Option.bind_eq_bind, Option.bind_eq_some_iff]
  refine exists_congr fun target => and_congr_right fun _ => ?_
  constructor
  · rintro ⟨name', hname, h⟩
    split at h
    next => cases h
    next hv =>
      obtain ⟨body', hbody, he⟩ := Option.map_eq_some_iff.mp h
      cases he
      exact ⟨hname, by simpa using hv, hbody⟩
  · rintro ⟨hname, hv, hbody⟩
    refine ⟨name, hname, ?_⟩
    rw [if_neg (by simpa using hv), hbody]
    rfl

/-- What a mapping refers to is up to its reference alone. -/
theorem expansion?_congr {m m' : Entries Json}
    (h : Entries.get? m Node.refKey = Entries.get? m' Node.refKey) (visited : List String) :
    expansion? table o visited m = expansion? table o visited m' := by
  rw [expansion?, expansion?, h]

theorem resolve_object_of_some {m : Entries Json} {visited : List String} {name : String}
    {body : Json} (h : expansion? table o visited m = some (name, body)) :
    resolve table o visited (.object m) =
      underSiblings (Entries.erase Node.refKey (resolveEntries table o (name :: visited) m))
        (resolve table o (name :: visited) body) := by
  rw [resolve]
  split
  next hs =>
    rw [h] at hs
    cases hs
    rfl
  next hs => rw [h] at hs; cases hs

theorem resolve_object_of_none {m : Entries Json} {visited : List String}
    (h : expansion? table o visited m = none) :
    resolve table o visited (.object m) =
      if hasReference m then .object m else .object (resolveEntries table o visited m) := by
  rw [resolve]
  split
  next hs => rw [h] at hs; cases hs
  next => rfl

theorem erase_map {α β : Type} (key : String) (f : String × α → β) (m : Entries α) :
    Entries.erase key (m.map fun p => (p.1, f p)) =
      (Entries.erase key m).map fun p => (p.1, f p) := by
  rw [Entries.erase, List.filter_map]
  rfl

theorem erase_resolveEntries (visited : List String) (key : String) (m : Entries Json) :
    Entries.erase key (resolveEntries table o visited m) =
      (Entries.erase key m).map fun p => (p.1, resolve table o visited p.2) := by
  rw [resolveEntries_eq_map, erase_map key fun p => resolve table o visited p.2]

theorem erase_resolveEntries_eq_nil_iff {visited : List String} {key : String} {m : Entries Json} :
    Entries.erase key (resolveEntries table o visited m) = [] ↔ Entries.erase key m = [] := by
  rw [erase_resolveEntries, List.map_eq_nil_iff]

theorem underSiblings_of_ne_object {v : Json} (hv : ∀ m, v ≠ .object m) (siblings : Entries Json) :
    underSiblings siblings v = if siblings.isEmpty then v else .object siblings := by
  cases v with
  | scalar => rfl
  | array => rfl
  | object m => exact absurd rfl (hv m)

/-- A mapping resolves to something else only where it is a reference alone to a definition that
does. -/
theorem resolve_ne_object {m : Entries Json} {visited : List String}
    (h : ∀ m', resolve table o visited (.object m) ≠ .object m') :
    ∃ name body, expansion? table o visited m = some (name, body) ∧
      Entries.erase Node.refKey m = [] ∧
        resolve table o visited (.object m) = resolve table o (name :: visited) body := by
  cases hexp : expansion? table o visited m with
  | none =>
    rw [resolve_object_of_none hexp] at h
    split at h <;> exact absurd rfl (h _)
  | some found =>
    obtain ⟨name, body⟩ := found
    have hresolve := resolve_object_of_some hexp
    rw [hresolve] at h
    have hbody : ∀ m', resolve table o (name :: visited) body ≠ .object m' := by
      intro m' he
      rw [he] at h
      exact absurd rfl (h _)
    rw [underSiblings_of_ne_object hbody] at h hresolve
    split at h
    next hnil =>
      have halone := erase_resolveEntries_eq_nil_iff.mp (List.isEmpty_iff.mp hnil)
      exact ⟨name, body, rfl, halone, hresolve.trans (if_pos hnil)⟩
    next => exact absurd rfl (h _)

/-- An object without a reference has the form that the forms of its values give. -/
theorem form_object {m : Entries Json} (h : hasReference m = false) (inTable : Bool)
    (visited : List String) :
    form table o inTable visited (.object m) = closed ((kept inTable m).map fun p =>
      (p.1, form table o (!inTable && p.1 == "properties") visited p.2)) := by
  rw [form, resolve_object_of_none (expansion?_of_not_hasReference h visited), h,
    if_neg Bool.false_ne_true, resolveEntries_eq_map, strip, stripEntries_eq_map, collapse_object,
    kept_map (f := fun p => resolve table o visited p.2), List.map_map, List.map_map]
  rfl

theorem form_empty (inTable : Bool) (visited : List String) :
    form table o inTable visited (.object []) = .object [] := by
  rw [form_object rfl]
  rfl

/-- Only a composition is replaced by a branch. -/
theorem closed_of_keys {m : Entries Json}
    (h : ∀ p ∈ m, Node.compositionKeys.contains p.1 = false) : closed m = .object m := by
  rw [closed, onlyBranch?.eq_def]
  split
  next key branch =>
    rw [h _ List.mem_cons_self]
    rfl
  next => rfl

theorem onlyBranch?_eq_some_iff {m : Entries Json} {branch : Json} :
    onlyBranch? m = some branch ↔
      ∃ key, m = [(key, .array [branch])] ∧ Node.compositionKeys.contains key = true := by
  constructor
  · intro h
    rw [onlyBranch?.eq_def] at h
    split at h
    next key b =>
      split at h
      next hkey => cases h; exact ⟨key, rfl, hkey⟩
      next => cases h
    next => cases h
  · rintro ⟨key, rfl, hkey⟩
    rw [onlyBranch?, if_pos hkey]

theorem closed_of_onlyBranch {m : Entries Json} {branch : Json} (h : onlyBranch? m = some branch) :
    closed m = branch := by
  rw [closed, h, Option.getD_some]

theorem closed_of_none {m : Entries Json} (h : onlyBranch? m = none) : closed m = .object m := by
  rw [closed, h, Option.getD_none]

/-! ## References that stand alone -/

def reference (target : String) : Json := .object [(Node.refKey, .scalar (.string target))]

theorem expansion?_reference (visited : List String) (target : String) :
    expansion? table o visited [(Node.refKey, .scalar (.string target))] =
      (o.definitionName? target).bind fun name =>
        if visited.contains name then none else (Entries.get? table name).map (name, ·) := by
  rw [expansion?, Entries.get?_cons, if_pos rfl]
  rfl

/-- A reference that leads to no definition, or to one that is being expanded, stays. -/
theorem form_reference_of_none {visited : List String} {target : String}
    (h : ∀ name, o.definitionName? target = some name → visited.contains name = false →
      Entries.get? table name = none) (inTable : Bool) :
    form table o inTable visited (reference target) = reference target := by
  have hn : expansion? table o visited [(Node.refKey, .scalar (.string target))] = none := by
    rw [expansion?_reference, Option.bind_eq_none_iff]
    intro name hname
    split
    next => rfl
    next hv => rw [h name hname (by simpa using hv), Option.map_none]
  have href : hasReference [(Node.refKey, .scalar (.string target))] = true := rfl
  rw [form, reference, resolve_object_of_none hn, href, if_pos rfl]
  cases inTable <;> rfl

theorem underSiblings_nil (v : Json) : underSiblings [] v = v := by
  cases v with
  | scalar => rfl
  | array => rfl
  | object m =>
    have hm : m.filter (fun p => !Entries.contains ([] : Entries Json) p.1) = m :=
      List.filter_eq_self.mpr fun _ _ => rfl
    exact congrArg Json.object hm

/-- Any other reference has the form of its definition. -/
theorem form_reference {visited : List String} {target name : String} {body : Json}
    (hname : o.definitionName? target = some name) (hv : visited.contains name = false)
    (hb : Entries.get? table name = some body) (inTable : Bool) :
    form table o inTable visited (reference target) =
      form table o inTable (name :: visited) body := by
  have he : expansion? table o visited [(Node.refKey, .scalar (.string target))] =
      some (name, body) := by
    rw [expansion?_reference, hname, Option.bind_some, hv, if_neg Bool.false_ne_true, hb]
    rfl
  have hsib : Entries.erase Node.refKey (resolveEntries table o (name :: visited)
      [(Node.refKey, .scalar (.string target))]) = [] := by
    rw [resolveEntries_eq_map]
    rfl
  rw [form, reference, resolve_object_of_some he, hsib, underSiblings_nil]
  rfl

/-! ## Forms have distinct keys -/

theorem nodup_kept {α : Type} {m : Entries α} (hm : (Entries.keys m).Nodup) (inTable : Bool) :
    (Entries.keys (kept inTable m)).Nodup :=
  hm.sublist (List.filter_sublist.map Prod.fst)

theorem nodup_erase {α : Type} {m : Entries α} (hm : (Entries.keys m).Nodup) (key : String) :
    (Entries.keys (Entries.erase key m)).Nodup :=
  hm.sublist (List.filter_sublist.map Prod.fst)

theorem distinct_erase {m : Entries Json} (h : (Json.object m).Distinct) (key : String) :
    (Json.object (Entries.erase key m)).Distinct :=
  .object (nodup_erase h.nodup key) fun p hp => h.values p (List.mem_filter.mp hp).1

theorem distinct_underSiblings {siblings : Entries Json} {v : Json}
    (hs : (Json.object siblings).Distinct) (hv : v.Distinct) :
    (underSiblings siblings v).Distinct := by
  cases hv with
  | scalar s =>
    simp only [underSiblings]
    split
    · exact .scalar s
    · exact hs
  | array h =>
    simp only [underSiblings]
    split
    · exact .array h
    · exact hs
  | @object m hm h =>
    cases hs with
    | object hsm hsh =>
      rw [underSiblings]
      refine .object ?_ fun p hp => ?_
      · rw [Entries.keys, List.map_append]
        refine List.nodup_append'.mpr ⟨hsm, hm.sublist (List.filter_sublist.map Prod.fst), ?_⟩
        intro k hk hk'
        obtain ⟨p, hp, rfl⟩ := List.mem_map.mp hk'
        have hnot : (!Entries.contains siblings p.1) = true := (List.mem_filter.mp hp).2
        rw [Entries.contains, Entries.get?_isSome_iff.mpr hk] at hnot
        cases hnot
      · rcases List.mem_append.mp hp with hp | hp
        · exact hsh p hp
        · exact h p (List.mem_filter.mp hp).1

theorem get?_of_expansion {visited : List String} {m : Entries Json} {name : String} {body : Json}
    (h : expansion? table o visited m = some (name, body)) : Entries.get? table name = some body := by
  obtain ⟨_, _, _, _, hbody⟩ := expansion?_eq_some_iff.mp h
  exact hbody

theorem distinct_resolveEntries {visited : List String} {m : Entries Json}
    (hm : (Entries.keys m).Nodup) (h : ∀ p ∈ m, (resolve table o visited p.2).Distinct) :
    (Json.object (resolveEntries table o visited m)).Distinct := by
  rw [resolveEntries_eq_map]
  exact Json.distinct_object_map hm h

/-- What holds while some definitions are being expanded, if it holds with one more of those that the
table still has, holds whichever are being expanded: a table has only so many. -/
theorem unvisited_induct (table : Entries Json) {motive : List String → Prop}
    (step : ∀ visited, (∀ name, unvisited table (name :: visited) < unvisited table visited →
      motive (name :: visited)) → motive visited) (visited : List String) : motive visited :=
  step visited fun name _ => unvisited_induct table step (name :: visited)
termination_by unvisited table visited

theorem distinct_resolve (htable : ∀ p ∈ table, p.2.Distinct) (visited : List String) {v : Json}
    (hv : v.Distinct) : (resolve table o visited v).Distinct := by
  induction visited using unvisited_induct table generalizing v with
  | step visited ihk =>
    induction hv with
    | scalar s =>
      rw [resolve]
      exact .scalar s
    | array _ ih =>
      rw [resolve, resolveItems_eq_map]
      exact .array (List.forall_mem_map.mpr ih)
    | @object m hm h ih =>
      cases he : expansion? table o visited m with
      | none =>
        rw [resolve_object_of_none he]
        split
        · exact .object hm h
        · exact distinct_resolveEntries hm ih
      | some found =>
        obtain ⟨name, body⟩ := found
        have hless := unvisited_expansion_lt he
        rw [resolve_object_of_some he]
        have hbody := htable _ (Entries.mem_of_get? (get?_of_expansion he))
        have hbeside := distinct_resolveEntries hm fun p hp => ihk _ hless (h p hp)
        exact distinct_underSiblings (distinct_erase hbeside _) (ihk _ hless hbody)

theorem distinct_strip {v : Json} (hv : v.Distinct) : ∀ inTable, (strip inTable v).Distinct := by
  induction hv with
  | scalar s => exact fun _ => .scalar s
  | array _ ih =>
    intro inTable
    rw [strip, stripItems_eq_map]
    exact .array (List.forall_mem_map.mpr fun x hx => ih x hx false)
  | @object m hm _ ih =>
    intro inTable
    rw [strip, stripEntries_eq_map]
    exact Json.distinct_object_map (nodup_kept hm inTable) fun p hp =>
      ih p (List.mem_filter.mp hp).1 _

theorem distinct_closed {m : Entries Json} (hm : (Json.object m).Distinct) :
    (closed m).Distinct := by
  rw [closed, onlyBranch?.eq_def]
  split
  next key branch =>
    split
    · cases hm with
      | object _ h =>
        cases h _ List.mem_cons_self with
        | array h => exact h _ List.mem_cons_self
    · exact hm
  next => exact hm

theorem distinct_collapse {v : Json} (hv : v.Distinct) : (collapse v).Distinct := by
  induction hv with
  | scalar s => exact .scalar s
  | array _ ih =>
    rw [collapse, collapseItems_eq_map]
    exact .array (List.forall_mem_map.mpr ih)
  | @object m hm _ ih =>
    rw [collapse_object]
    exact distinct_closed (Json.distinct_object_map hm ih)

theorem distinct_form (htable : ∀ p ∈ table, p.2.Distinct) {v : Json} (hv : v.Distinct)
    (inTable : Bool) (visited : List String) : (form table o inTable visited v).Distinct :=
  distinct_collapse (distinct_strip (distinct_resolve htable visited hv) _)

end InlineSchema.Equivalence
