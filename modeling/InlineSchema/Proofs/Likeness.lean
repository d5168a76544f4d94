import InlineSchema.Proofs.Divergence

/-! # Alike values stay alike

Every pass that prepares a value for comparison takes alike values to alike values, although it
reads the entries of an object in their order: what it does with an entry depends on the key and
the value, and on other entries only through what their keys find. So documents that are alike do
not diverge.
-/
namespace InlineSchema

namespace Entries

variable {α β γ : Type}

/-- Two lists that have a third list between them. -/
theorem exists_between_of_mem_zip {xs : List α} {ys : List β} {zs : List γ}
    (hl : xs.length = ys.length) {p : α × γ} (hp : p ∈ xs.zip zs) :
    ∃ y, (p.1, y) ∈ xs.zip ys ∧ (y, p.2) ∈ ys.zip zs := by
  obtain ⟨y, hx, hz⟩ := exists_mem_zip_zip hl.symm hp
  refine ⟨y, ?_, hz⟩
  rw [← List.zip_swap]
  exact List.mem_map_of_mem (f := Prod.swap) hx

end Entries

namespace Equivalence

variable {o : Options} {table table' : Entries Json}

/-! ## Laws of likeness -/

theorem same_trans {s t u : Scalar} (h : s.same t = true) (h' : t.same u = true) :
    s.same u = true := by
  cases s with
  | number x =>
    cases t with
    | number y =>
      cases u with
      | number z =>
        cases x with
        | integer => cases y <;> cases z <;> simp_all [Scalar.same, Number.same]
        | float x =>
          cases y with
          | integer => simp [Scalar.same, Number.same] at h
          | float y =>
            cases z with
            | integer => simp [Scalar.same, Number.same] at h'
            | float z =>
              simp only [Scalar.same, Number.same] at h h' ⊢
              unfold Double.same at h h' ⊢
              grind
      | _ => simp [Scalar.same] at h'
    | _ => simp [Scalar.same] at h
  | _ => cases t <;> cases u <;> simp_all [Scalar.same]

theorem Alike.trans {u v w : Json} (h : Alike u v) (h' : Alike v w) : Alike u w := by
  induction h generalizing w with
  | scalar h =>
    cases h' with
    | scalar h' => exact .scalar (same_trans h h')
  | array hl _ ih =>
    cases h' with
    | array hl' h' =>
      refine .array (hl.trans hl') fun p hp => ?_
      obtain ⟨y, hxy, hyz⟩ := Entries.exists_between_of_mem_zip hl hp
      exact ih _ hxy (h' _ hyz)
  | object hk _ ih =>
    cases h' with
    | object hk' h' =>
      refine .object (fun k => (hk k).trans (hk' k)) fun k v w hv hw => ?_
      obtain ⟨u, hu⟩ := Option.isSome_iff_exists.mp (Entries.get?_isSome_iff.mpr
        ((hk k).mp (List.mem_map_of_mem (f := Prod.fst) hv)))
      exact ih k v u hv hu (h' k u w (Entries.mem_of_get? hu) hw)

/-- What an optional value is mapped to is related if the values are. -/
theorem rel_map {α β γ δ : Type} {r : α → β → Prop} {s : γ → δ → Prop} {f : α → γ} {g : β → δ}
    {x : Option α} {y : Option β} (h : Option.Rel r x y)
    (hfg : ∀ v w, x = some v → y = some w → r v w → s (f v) (g w)) :
    Option.Rel s (x.map f) (y.map g) := by
  cases h with
  | some h => exact .some (hfg _ _ rfl rfl h)
  | none => exact .none

theorem Alike.array_map {α β : Type} {xs : List α} {ys : List β} (hl : xs.length = ys.length)
    {f : α → Json} {g : β → Json} (h : ∀ p ∈ xs.zip ys, Alike (f p.1) (g p.2)) :
    Alike (.array (xs.map f)) (.array (ys.map g)) := by
  refine .array (by rw [List.length_map, List.length_map, hl]) fun p hp => ?_
  rw [List.zip_map] at hp
  obtain ⟨q, hq, rfl⟩ := List.mem_map.mp hp
  exact h q hq

/-- Every key finds alike values in two objects that are alike. -/
theorem alike_object_iff {a b : Entries Json} (ha : (Entries.keys a).Nodup) :
    Alike (.object a) (.object b) ↔
      ∀ k, Option.Rel Alike (Entries.get? a k) (Entries.get? b k) := by
  constructor
  · rintro (_ | _ | ⟨hk, h⟩) k
    have hk := hk k
    rw [← Entries.get?_isSome_iff, ← Entries.get?_isSome_iff] at hk
    cases ha' : Entries.get? a k with
    | none =>
      cases hb : Entries.get? b k with
      | none => exact .none
      | some w => simp [ha', hb] at hk
    | some v =>
      cases hb : Entries.get? b k with
      | none => simp [ha', hb] at hk
      | some w => exact .some (h k v w (Entries.mem_of_get? ha') hb)
  · intro h
    refine .object (fun k => ?_) fun k v w hv hw => ?_
    · have hrel := h k
      rw [← Entries.get?_isSome_iff, ← Entries.get?_isSome_iff]
      generalize Entries.get? a k = x at hrel ⊢
      generalize Entries.get? b k = y at hrel ⊢
      cases hrel <;> simp
    · have hrel := h k
      rw [Entries.get?_of_mem ha hv, hw] at hrel
      exact Option.rel_some_some.mp hrel

/-- Alike values under the same keys, one after the other. -/
theorem Alike.object_of_zip {a b : Entries Json} (ha : (Entries.keys a).Nodup)
    (hk : Entries.keys a = Entries.keys b) (h : ∀ p ∈ a.zip b, Alike p.1.2 p.2.2) :
    Alike (.object a) (.object b) := by
  refine .object (fun k => by rw [hk]) fun k v w hv hw => ?_
  obtain ⟨w', hw', hz⟩ := Entries.exists_mem_zip_of_get? hk (Entries.get?_of_mem ha hv)
  cases hw.symm.trans hw'
  exact h _ hz

theorem Alike.text?_eq {v w : Json} (h : Alike v w) : v.text? = w.text? := by
  cases h with
  | @scalar s t h =>
    cases s with
    | string => rw [(Alike.scalar h).eq_string]
    | null => cases t <;> simp_all [Scalar.same, Json.text?]
    | bool => cases t <;> simp_all [Scalar.same, Json.text?]
    | number => cases t <;> simp_all [Scalar.same, Json.text?]
  | array => rfl
  | object => rfl

theorem Alike.get? {v w : Json} (h : Alike v w) (hv : v.Distinct) (key : String) :
    Option.Rel Alike (v.get? key) (w.get? key) := by
  cases h with
  | scalar => exact .none
  | array => exact .none
  | object hk h => exact (alike_object_iff hv.nodup).mp (.object hk h) key

theorem Alike.lookup {v w : Json} (h : Alike v w) (hv : v.Distinct) (path : List String) :
    Option.Rel Alike (v.lookup path) (w.lookup path) := by
  induction path generalizing v w with
  | nil => exact .some h
  | cons key path ih =>
    rw [Json.lookup_cons, Json.lookup_cons]
    have hkey := h.get? hv key
    have hdistinct : ∀ x, v.get? key = some x → x.Distinct := fun x hx => hv.get? hx
    generalize v.get? key = x at hkey hdistinct ⊢
    generalize w.get? key = y at hkey ⊢
    cases hkey with
    | none => exact .none
    | some hxy => exact ih hxy (hdistinct _ rfl)

/-! ## Resolving -/

/-- Alike objects refer to the same. -/
theorem refKey_alike {m m' : Entries Json} (hm : (Entries.keys m).Nodup)
    (h : Alike (.object m) (.object m')) :
    (Entries.get? m Node.refKey).bind Json.text? =
      (Entries.get? m' Node.refKey).bind Json.text? := by
  have hrel := (alike_object_iff hm).mp h Node.refKey
  generalize Entries.get? m Node.refKey = x at hrel ⊢
  generalize Entries.get? m' Node.refKey = y at hrel ⊢
  cases hrel with
  | none => rfl
  | some hxy => exact hxy.text?_eq

/-- Alike objects are replaced by definitions of one name, which are alike if the tables are. -/
theorem expansion?_alike (htable : (Entries.keys table).Nodup)
    (ht : Alike (.object table) (.object table')) {m m' : Entries Json}
    (hm : (Entries.keys m).Nodup) (h : Alike (.object m) (.object m')) (visited : List String) :
    Option.Rel (fun p q => p.1 = q.1 ∧ Alike p.2 q.2) (expansion? table o visited m)
      (expansion? table' o visited m') := by
  rw [expansion?, expansion?, ← refKey_alike hm h]
  cases (Entries.get? m Node.refKey).bind Json.text? with
  | none => exact .none
  | some target =>
    simp only [Option.bind_eq_bind, Option.bind_some]
    cases o.definitionName? target with
    | none => exact .none
    | some name =>
      simp only [Option.bind_some]
      split
      · exact .none
      · exact rel_map ((alike_object_iff htable).mp ht name) fun _ _ _ _ hvw => ⟨rfl, hvw⟩

theorem isEmpty_alike {m m' : Entries Json} (h : Alike (.object m) (.object m')) :
    m.isEmpty = m'.isEmpty := by
  cases h with
  | object hk _ =>
    cases m with
    | nil =>
      cases m' with
      | nil => rfl
      | cons p m' => exact absurd ((hk p.1).mpr List.mem_cons_self) List.not_mem_nil
    | cons p m =>
      cases m' with
      | nil => exact absurd ((hk p.1).mp List.mem_cons_self) List.not_mem_nil
      | cons p' m' => rfl

theorem contains_alike {m m' : Entries Json} (h : Alike (.object m) (.object m')) (key : String) :
    Entries.contains m key = Entries.contains m' key := by
  cases h with
  | object hk _ =>
    rw [Entries.contains, Entries.contains, Bool.eq_iff_iff, Entries.get?_isSome_iff,
      Entries.get?_isSome_iff]
    exact hk key

theorem Alike.underSiblings {siblings siblings' : Entries Json} {v w : Json}
    (hs : (Json.object siblings).Distinct)
    (hsiblings : Alike (.object siblings) (.object siblings')) (hv : v.Distinct) (h : Alike v w) :
    Alike (Equivalence.underSiblings siblings v) (Equivalence.underSiblings siblings' w) := by
  have hempty := isEmpty_alike hsiblings
  cases h with
  | scalar h =>
    rw [Equivalence.underSiblings, Equivalence.underSiblings, ← hempty]
    · split
      · exact .scalar h
      · exact hsiblings
    · simp
    · simp
  | array hl h =>
    rw [Equivalence.underSiblings, Equivalence.underSiblings, ← hempty]
    · split
      · exact .array hl h
      · exact hsiblings
    · simp
    · simp
  | @object a b hk h =>
    have hunder := distinct_underSiblings hs hv
    rw [Equivalence.underSiblings] at hunder ⊢
    rw [Equivalence.underSiblings]
    refine (alike_object_iff hunder.nodup).mpr fun k => ?_
    have hbeside := (alike_object_iff hs.nodup).mp hsiblings k
    have hbody := (alike_object_iff hv.nodup).mp (.object hk h) k
    rw [Entries.get?_append, Entries.get?_append,
      Entries.get?_filter fun k => !Entries.contains siblings k,
      Entries.get?_filter fun k => !Entries.contains siblings' k, contains_alike hsiblings]
    generalize Entries.get? siblings k = x at hbeside ⊢
    generalize Entries.get? siblings' k = y at hbeside ⊢
    cases hbeside with
    | some hxy => exact .some hxy
    | none =>
      rw [Option.none_or, Option.none_or]
      split
      · exact hbody
      · exact .none

/-- Resolving the values of alike objects, if it keeps what each key finds alike. -/
theorem resolveEntries_alike {m m' : Entries Json} (hm : (Entries.keys m).Nodup)
    (h : Alike (.object m) (.object m')) {visited : List String}
    (ih : ∀ k v w, (k, v) ∈ m → Entries.get? m' k = some w →
      Alike (resolve table o visited v) (resolve table' o visited w)) (k : String) :
    Option.Rel Alike (Entries.get? (resolveEntries table o visited m) k)
      (Entries.get? (resolveEntries table' o visited m') k) := by
  rw [resolveEntries_eq_map, resolveEntries_eq_map, Entries.get?_map, Entries.get?_map]
  exact rel_map ((alike_object_iff hm).mp h k) fun v w hv hw _ =>
    ih k v w (Entries.mem_of_get? hv) hw

/-- Objects that stay, or refer to nothing. -/
theorem resolve_alike_of_none {m m' : Entries Json} {visited : List String}
    (htable : ∀ p ∈ table, p.2.Distinct) (hm : (Json.object m).Distinct)
    (h : Alike (.object m) (.object m'))
    (he : expansion? table o visited m = none) (he' : expansion? table' o visited m' = none)
    (ih : ∀ k v w, (k, v) ∈ m → Entries.get? m' k = some w →
      Alike (resolve table o visited v) (resolve table' o visited w)) :
    Alike (resolve table o visited (.object m)) (resolve table' o visited (.object m')) := by
  rw [resolve_object_of_none he, resolve_object_of_none he', hasReference, hasReference,
    ← refKey_alike hm.nodup h]
  split
  · exact h
  · have hresolved := distinct_resolveEntries (o := o) hm.nodup fun p hp =>
      distinct_resolve htable visited (hm.values p hp)
    exact (alike_object_iff hresolved.nodup).mpr (resolveEntries_alike hm.nodup h ih)

/-- Objects that are replaced by a definition. -/
theorem resolve_alike_of_some {m m' : Entries Json} {visited : List String} {name : String}
    {body body' : Json} (htable : ∀ p ∈ table, p.2.Distinct) (hm : (Json.object m).Distinct)
    (h : Alike (.object m) (.object m')) (he : expansion? table o visited m = some (name, body))
    (he' : expansion? table' o visited m' = some (name, body'))
    (hbody : Alike (resolve table o (name :: visited) body)
      (resolve table' o (name :: visited) body'))
    (ih : ∀ k v w, (k, v) ∈ m → Entries.get? m' k = some w →
      Alike (resolve table o (name :: visited) v) (resolve table' o (name :: visited) w)) :
    Alike (resolve table o visited (.object m)) (resolve table' o visited (.object m')) := by
  have hdistinct : body.Distinct := htable _ (Entries.mem_of_get? (get?_of_expansion he))
  have hresolved := distinct_resolveEntries (o := o) hm.nodup fun p hp =>
    distinct_resolve htable (name :: visited) (hm.values p hp)
  have hbeside := distinct_erase hresolved Node.refKey
  rw [resolve_object_of_some he, resolve_object_of_some he']
  refine Alike.underSiblings hbeside ((alike_object_iff hbeside.nodup).mpr fun k => ?_)
    (distinct_resolve htable _ hdistinct) hbody
  rw [Entries.get?_erase, Entries.get?_erase]
  split
  · exact .none
  · exact resolveEntries_alike hm.nodup h ih k

/-- Each expansion leaves one definition less to expand, and otherwise the values get smaller. -/
theorem alike_resolve (htable : (Json.object table).Distinct)
    (ht : Alike (.object table) (.object table')) (visited : List String) {v w : Json}
    (hv : v.Distinct) (h : Alike v w) :
    Alike (resolve table o visited v) (resolve table' o visited w) := by
  have hbodies := htable.values
  induction visited using unvisited_induct table generalizing v w with
  | step visited ihk =>
    induction h with
    | scalar h =>
      rw [resolve, resolve]
      exact .scalar h
    | array hl h ih =>
      rw [resolve, resolve, resolveItems_eq_map, resolveItems_eq_map]
      cases hv with
      | array hv => exact .array_map hl fun p hp => ih p hp (hv _ (List.of_mem_zip hp).1)
    | @object m m' hk h ih =>
      have hobject := Alike.object hk h
      have hexp := expansion?_alike (o := o) htable.nodup ht hv.nodup hobject visited
      generalize he : expansion? table o visited m = found at hexp
      generalize he' : expansion? table' o visited m' = found' at hexp
      cases hexp with
      | none =>
        exact resolve_alike_of_none hbodies hv hobject he he' fun k v w hmem hw =>
          ih k v w hmem hw (hv.values _ hmem)
      | @some p p' hp =>
        obtain ⟨name, body⟩ := p
        obtain ⟨name', body'⟩ := p'
        obtain ⟨rfl, hbody⟩ := hp
        have hless := unvisited_expansion_lt he
        exact resolve_alike_of_some hbodies hv hobject he he'
          (ihk _ hless (hbodies _ (Entries.mem_of_get? (get?_of_expansion he))) hbody)
          fun k v w hmem hw => ihk _ hless (hv.values _ hmem) (h k v w hmem hw)

/-! ## Documentation and compositions -/

theorem Alike.strip {v w : Json} (h : Alike v w) (hv : v.Distinct) (inTable : Bool) :
    Alike (Equivalence.strip inTable v) (Equivalence.strip inTable w) := by
  induction h generalizing inTable with
  | scalar h => exact .scalar h
  | array hl h ih =>
    cases hv with
    | array hv =>
      rw [Equivalence.strip, Equivalence.strip, stripItems_eq_map, stripItems_eq_map]
      exact .array_map hl fun p hp => ih p hp (hv _ (List.of_mem_zip hp).1) false
  | @object m m' hk h ih =>
    have hstripped := distinct_strip hv inTable
    rw [Equivalence.strip] at hstripped ⊢
    rw [Equivalence.strip]
    refine (alike_object_iff hstripped.nodup).mpr fun k => ?_
    rw [get?_stripEntries, get?_stripEntries]
    split
    · exact rel_map ((alike_object_iff hv.nodup).mp (.object hk h) k) fun v w hv' hw _ =>
        ih k v w (Entries.mem_of_get? hv') hw (hv.values _ (Entries.mem_of_get? hv')) _
    · exact .none

/-- An object that is like a composition of one branch is one, with a branch like that. -/
theorem onlyBranch?_alike {m m' : Entries Json} (hm' : (Entries.keys m').Nodup)
    (h : Alike (.object m) (.object m')) {branch : Json} (hbranch : onlyBranch? m = some branch) :
    ∃ branch', onlyBranch? m' = some branch' ∧ Alike branch branch' := by
  obtain ⟨key, rfl, hkey⟩ := onlyBranch?_eq_some_iff.mp hbranch
  cases h with
  | object hk h =>
    obtain ⟨v, rfl⟩ := Entries.exists_eq_singleton hm' hk
    have hv := h key _ v List.mem_cons_self (by rw [Entries.get?_cons, if_pos rfl])
    cases hv with
    | @array _ ys hl hitems =>
      obtain ⟨branch', rfl⟩ := List.length_eq_one_iff.mp hl.symm
      exact ⟨branch', onlyBranch?_eq_some_iff.mpr ⟨key, rfl, hkey⟩,
        hitems (branch, branch') List.mem_cons_self⟩

theorem Alike.closed {m m' : Entries Json} (h : Alike (.object m) (.object m'))
    (hm : (Json.object m).Distinct) (hm' : (Json.object m').Distinct) :
    Alike (Equivalence.closed m) (Equivalence.closed m') := by
  cases hb : onlyBranch? m with
  | some branch =>
    obtain ⟨branch', hb', hbranch⟩ := onlyBranch?_alike hm'.nodup h hb
    rwa [closed_of_onlyBranch hb, closed_of_onlyBranch hb']
  | none =>
    have hb' : onlyBranch? m' = none := by
      rw [Option.eq_none_iff_forall_not_mem]
      intro branch hbranch
      obtain ⟨_, hsome, -⟩ := onlyBranch?_alike hm.nodup (h.symm hm hm') hbranch
      rw [hb] at hsome
      cases hsome
    rwa [closed_of_none hb, closed_of_none hb']

theorem Alike.collapse {v w : Json} (h : Alike v w) (hv : v.Distinct) (hw : w.Distinct) :
    Alike (Equivalence.collapse v) (Equivalence.collapse w) := by
  induction h with
  | scalar h => exact .scalar h
  | array hl h ih =>
    cases hv with
    | array hv =>
      cases hw with
      | array hw =>
        rw [Equivalence.collapse, Equivalence.collapse, collapseItems_eq_map, collapseItems_eq_map]
        exact .array_map hl fun p hp =>
          ih p hp (hv _ (List.of_mem_zip hp).1) (hw _ (List.of_mem_zip hp).2)
  | @object m m' hk h ih =>
    have hcollapsed := Json.distinct_object_map hv.nodup fun p hp =>
      distinct_collapse (hv.values p hp)
    have hcollapsed' := Json.distinct_object_map hw.nodup fun p hp =>
      distinct_collapse (hw.values p hp)
    rw [collapse_object, collapse_object]
    refine Alike.closed ((alike_object_iff hcollapsed.nodup).mpr fun k => ?_) hcollapsed hcollapsed'
    rw [Entries.get?_map, Entries.get?_map]
    exact rel_map ((alike_object_iff hv.nodup).mp (.object hk h) k) fun v w hv' hw' _ =>
      ih k v w (Entries.mem_of_get? hv') hw' (hv.values _ (Entries.mem_of_get? hv'))
        (hw.values _ (Entries.mem_of_get? hw'))

/-! ## Documents -/

theorem Alike.normalForm {v w : Json} (h : Alike v w) (hv : v.Distinct) (hw : w.Distinct)
    (htable : (Json.object table).Distinct) (htable' : (Json.object table').Distinct)
    (ht : Alike (.object table) (.object table')) (visited : List String) :
    Alike (Equivalence.normalForm table o visited v)
      (Equivalence.normalForm table' o visited w) := by
  have hrv := distinct_resolve (o := o) htable.values visited hv
  have hrw := distinct_resolve (o := o) htable'.values visited hw
  have hresolve := alike_resolve (o := o) htable ht visited hv h
  exact (hresolve.strip hrv false).collapse (distinct_strip hrv false) (distinct_strip hrw false)

theorem definitions_alike {v w : Json} (h : Alike v w) (hv : v.Distinct) :
    Alike (.object (definitions o v)) (.object (definitions o w)) := by
  have hnil : Alike (.object []) (.object []) := .refl (.object List.nodup_nil nofun)
  rw [definitions_eq, definitions_eq]
  have htable := h.lookup hv o.definitionsPath
  generalize v.lookup o.definitionsPath = x at htable ⊢
  generalize w.lookup o.definitionsPath = y at htable ⊢
  cases htable with
  | none => exact hnil
  | some hxy =>
    cases hxy with
    | scalar => exact hnil
    | array => exact hnil
    | object hk h => exact .object hk h

theorem preparedPaths_alike {v w : Json} (h : Alike v w) (hv : v.Distinct) (hw : w.Distinct) :
    Alike (preparedPaths o v) (preparedPaths o w) := by
  have hpaths := h.get? hv "paths"
  rw [preparedPaths, preparedPaths]
  cases hx : v.get? "paths" with
  | none =>
    rw [hx] at hpaths
    generalize w.get? "paths" = y at hpaths ⊢
    cases hpaths
    exact .scalar rfl
  | some x =>
    rw [hx] at hpaths
    generalize hy : w.get? "paths" = y at hpaths ⊢
    cases hpaths with
    | some hxy =>
      exact hxy.normalForm (hv.get? hx) (hw.get? hy) (distinct_definitions hv)
        (distinct_definitions hw) (definitions_alike h hv) []

/-- Documents that are alike do not diverge. -/
theorem divergence?_of_alike {v w : Json} (h : Alike v w) (hv : v.Distinct) (hw : w.Distinct) :
    divergence? o v w = none := by
  refine (divergence?_eq_none_iff o v w).mpr ⟨preparedPaths_alike h hv hw, fun p hp => ?_⟩
  have htables := definitions_alike (o := o) h hv
  have hp' := Entries.get?_of_mem (nodup_definitions hv) hp
  have hrel := (alike_object_iff (nodup_definitions hv)).mp htables p.1
  rw [hp'] at hrel
  generalize hbody : Entries.get? (definitions o w) p.1 = y at hrel ⊢
  cases hrel with
  | some hpw =>
    exact ⟨_, rfl, hpw.normalForm (distinct_of_mem_definitions hv p hp)
      (distinct_of_mem_definitions hw _ (Entries.mem_of_get? hbody)) (distinct_definitions hv)
      (distinct_definitions hw) htables _⟩

theorem divergence?_trans {u v w : Json} (h : divergence? o u v = none)
    (h' : divergence? o v w = none) : divergence? o u w = none := by
  rw [divergence?_eq_none_iff] at h h' ⊢
  obtain ⟨hpaths, hdefinitions⟩ := h
  obtain ⟨hpaths', hdefinitions'⟩ := h'
  refine ⟨hpaths.trans hpaths', fun p hp => ?_⟩
  obtain ⟨body, hbody, hpb⟩ := hdefinitions p hp
  obtain ⟨body', hbody', hbb⟩ := hdefinitions' (p.1, body) (Entries.mem_of_get? hbody)
  exact ⟨body', hbody', hpb.trans hbb⟩

end Equivalence
end InlineSchema
