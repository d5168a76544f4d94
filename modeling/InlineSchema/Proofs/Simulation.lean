import InlineSchema.Proofs.Unfolding

/-! # Two documents side by side

Two values with forms that are alike come down to values with forms that are alike again. Where one
form ends in a closed reference, so does the other, and both go on in the definition of that name. So
the one shows what the other shows, along paths of any length.
-/
namespace InlineSchema.Equivalence

variable {o : Options} {table table' : Entries Json} {known known' : String → Prop}

/-- Two values have forms that are alike, whatever is being expanded in the one and the other. -/
def Related (o : Options) (table table' : Entries Json) (b : Bool) (v : Json) (c : Bool) (w : Json) :
    Prop :=
  ∃ visited visited', Alike (form table o b visited v) (form table' o c visited' w)

/-- The definitions of two documents. Where one document has a definition of a name that is known to
the other, the other has one too, and the two are related. -/
structure Paired (o : Options) (table table' : Entries Json) (known known' : String → Prop) :
    Prop where
  left : ∀ p ∈ table, Readable o table known false p.2
  right : ∀ p ∈ table', Readable o table' known' false p.2
  forth : ∀ name body, Entries.get? table name = some body → known' name →
    ∃ body', Entries.get? table' name = some body' ∧ Related o table table' false body false body'
  back : ∀ name body', Entries.get? table' name = some body' → known name →
    ∃ body, Entries.get? table name = some body ∧ Related o table table' false body false body'

variable {b c d : Bool} {v w u : Json}

theorem Related.symm (hp : Paired o table table' known known') (hv : v.Distinct) (hw : w.Distinct)
    (h : Related o table table' b v c w) : Related o table' table c w b v := by
  obtain ⟨visited, visited', h⟩ := h
  exact ⟨visited', visited, h.symm
    (distinct_form (fun p hmem => (hp.left p hmem).distinct) hv b visited)
    (distinct_form (fun p hmem => (hp.right p hmem).distinct) hw c visited')⟩

theorem Paired.symm (hp : Paired o table table' known known') :
    Paired o table' table known' known where
  left := hp.right
  right := hp.left
  forth name body' hbody' hname := by
    obtain ⟨body, hbody, h⟩ := hp.back name body' hbody' hname
    exact ⟨body, hbody, h.symm hp (hp.left _ (Entries.mem_of_get? hbody)).distinct
      (hp.right _ (Entries.mem_of_get? hbody')).distinct⟩
  back name body hbody hname := by
    obtain ⟨body', hbody', h⟩ := hp.forth name body hbody hname
    exact ⟨body', hbody', h.symm hp (hp.left _ (Entries.mem_of_get? hbody)).distinct
      (hp.right _ (Entries.mem_of_get? hbody')).distinct⟩

/-- A value related to an array comes down to an array. -/
theorem Related.exists_array (hp : Paired o table table' known known') {xs : List Json}
    (hw : Readable o table' known' c w) (h : Related o table table' b (.array xs) c w) :
    ∃ d ys, ComesDown table' o c w d (.array ys) ∧ xs.length = ys.length ∧
      ∀ p ∈ xs.zip ys, Related o table table' false p.1 false p.2 := by
  obtain ⟨visited, visited', h⟩ := h
  obtain ⟨d, visited'', u, hu, hformed, he, -⟩ := exists_formed hp.right c visited' w hw
  rw [← he, form_array] at h
  cases harray : form table' o d visited'' u with
  | scalar =>
    rw [harray] at h
    cases h
  | object =>
    rw [harray] at h
    cases h
  | array zs =>
    obtain ⟨ys, rfl, rfl⟩ := hformed.of_array harray
    rw [harray] at h
    cases h with
    | array hl h =>
      refine ⟨d, ys, hu, by simpa using hl, fun p hmem => ⟨visited, visited'', ?_⟩⟩
      refine h (Prod.map (form table o false visited) (form table' o false visited'') p) ?_
      rw [List.zip_map]
      exact List.mem_map_of_mem hmem

/-- What one value comes down to, a related value comes down to as well. -/
theorem Related.comesDown (hp : Paired o table table' known known')
    (h : ComesDown table o b v c w) : ∀ {b' : Bool} {v' : Json}, Readable o table known b v →
      Readable o table' known' b' v' → Related o table table' b v b' v' →
      ∃ c' w', ComesDown table' o b' v' c' w' ∧ Related o table table' c w c' w' := by
  induction h with
  | refl =>
    intro b' v' _ _ h
    exact ⟨b', v', .refl b' v', h⟩
  | @definition b c m name body w hm _ ih =>
    intro b' v' hv hv' h
    obtain ⟨visited, visited', h⟩ := h
    obtain ⟨rfl, target, htarget, hname⟩ := hv.reference hm
    have hbody := get?_of_expansion hm
    have hread := hp.left _ (Entries.mem_of_get? hbody)
    by_cases hvisited : name ∈ visited
    · -- The form is the closed reference. The definitions of that name are related.
      rw [htarget, form_reference_of_none] at h
      · obtain ⟨hknown, hdown⟩ := hv'.comesDown_of_form hp.right h hname
        obtain ⟨body', hbody', hrelated⟩ := hp.forth name body hbody hknown
        obtain ⟨c', w', hw', hrelated'⟩ :=
          ih hread (hp.right _ (Entries.mem_of_get? hbody')) hrelated
        exact ⟨c', w', (hdown body' hbody').trans hw', hrelated'⟩
      · intro name' hname' hnot
        rw [Option.some.inj (hname'.symm.trans hname), List.contains_iff_mem.mpr hvisited] at hnot
        cases hnot
    · rw [htarget, form_reference hname (by simpa using hvisited) hbody] at h
      exact ih hread hv' ⟨name :: visited, visited', h⟩
  | @branch b c d m key u x w hm hkey hu _ ihu ih =>
    intro b' v' hv hv' h
    obtain ⟨visited, visited', h⟩ := h
    have hread := hv.branches hm hkey
    have hreadx := (hread.comesDown hp.left hu).item List.mem_cons_self
    rw [form_of_kept hm hkey] at h
    by_cases hy : ∃ y, form table o false visited u = .array [y]
    · -- The branch is all that is left in the form.
      obtain ⟨y, hy⟩ := hy
      rw [hy, closed_of_onlyBranch (onlyBranch?_eq_some_iff.mpr ⟨key, rfl, hkey⟩)] at h
      obtain ⟨e, visited'', a, ha, hformed, hform, -⟩ := exists_formed hp.left false visited u hread
      obtain ⟨xs, rfl, hxs⟩ := hformed.of_array (hform.trans hy)
      have heq : Json.array xs = .array [x] := by
        rcases ha.total hu with harray | harray
        · exact ((Stands.array _ _).eq_of_comesDown harray).2
        · exact ((Stands.array _ _).eq_of_comesDown harray).2.symm
      cases heq
      rw [List.map_singleton] at hxs
      rw [List.singleton_inj.mp hxs] at h
      exact ih hreadx hv' ⟨visited'', visited', h⟩
    · -- In the form the composition is left, and so it is in the other.
      have hnone : onlyBranch? [(key, form table o false visited u)] = none := by
        refine Option.eq_none_iff_forall_ne_some.mpr fun y hbranch => hy ⟨y, ?_⟩
        obtain ⟨_, he, -⟩ := onlyBranch?_eq_some_iff.mp hbranch
        exact (Prod.mk.inj (List.singleton_inj.mp he)).2
      rw [closed_of_none hnone] at h
      obtain ⟨c', m', inner, hw', hkeys, hvalues⟩ := hv'.exists_object hp.right
        (e := [(key, u)]) (f := fun _ x => form table o false visited x) h
      have hread' := hv'.comesDown hp.right hw'
      have hnodup : (Entries.keys (kept c' m')).Nodup := by
        cases hread'.distinct with
        | object hm' => exact nodup_kept hm' c'
      obtain ⟨u', hm'⟩ := Entries.exists_eq_singleton hnodup hkeys
      have hvalue := hvalues key u u' (by rw [Entries.get?_cons, if_pos rfl])
        (by rw [hm', Entries.get?_cons, if_pos rfl])
      rw [beq_false_of_ne (compositionKeys_ne hkey).2, Bool.and_false] at hvalue
      have hreadu := hread'.branches hm' hkey
      obtain ⟨d', a, ha, hrelated⟩ := ihu hread hreadu ⟨visited, inner, hvalue⟩
      obtain ⟨d'', ys, hys, hl, hitems⟩ :=
        hrelated.exists_array hp (hreadu.comesDown hp.right ha)
      obtain ⟨y, rfl⟩ := List.length_eq_one_iff.mp hl.symm
      have hdown := ha.trans hys
      have hready := (hreadu.comesDown hp.right hdown).item List.mem_cons_self
      obtain ⟨e, z, hz, hrelated'⟩ := ih hreadx hready (hitems (x, y) List.mem_cons_self)
      exact ⟨e, z, hw'.trans (.branch hm' hkey hdown hz), hrelated'⟩

/-! ## What is seen -/

/-- Two values of the same shape, and what they hold is related. -/
inductive Matched (o : Options) (table table' : Entries Json) : Bool → Json → Bool → Json → Prop
  | scalar {b c : Bool} {s t : Scalar} (h : s.same t = true) :
      Matched o table table' b (.scalar s) c (.scalar t)
  | array {b c : Bool} {xs ys : List Json} (hl : xs.length = ys.length)
      (h : ∀ p ∈ xs.zip ys, Related o table table' false p.1 false p.2) :
      Matched o table table' b (.array xs) c (.array ys)
  | object {b c : Bool} {m m' : Entries Json}
      (hk : ∀ key, key ∈ Entries.keys (kept b m) ↔ key ∈ Entries.keys (kept c m'))
      (h : ∀ key x y, Entries.get? (kept b m) key = some x → Entries.get? (kept c m') key = some y →
        Related o table table' (!b && key == "properties") x (!c && key == "properties") y) :
      Matched o table table' b (.object m) c (.object m')

theorem Matched.matches (h : Matched o table table' b v c w) : Matches b v c w := by
  cases h with
  | scalar h => exact h
  | array hl => exact hl
  | object hk => exact hk

/-- A value that stands for itself and one that is related to it come to the same shape. -/
theorem Related.exists_matched (hp : Paired o table table' known known')
    (hv : Readable o table known b v) (hw : Readable o table' known' c w) (hs : Stands table o b v)
    (h : Related o table table' b v c w) :
    ∃ d u, ComesDown table' o c w d u ∧ Matched o table table' b v d u := by
  obtain ⟨visited, visited', h⟩ := h
  obtain ⟨e, inner, x, hx, hformed, he, -⟩ := exists_formed hp.left b visited v hv
  obtain ⟨rfl, rfl⟩ := hs.eq_of_comesDown hx
  rw [← he] at h
  cases hformed with
  | scalar =>
    obtain ⟨d, inner', u, hu, hformed', he', -⟩ := exists_formed hp.right c visited' w hw
    rw [← he', form_scalar] at h
    cases hscalar : form table' o d inner' u with
    | scalar =>
      obtain rfl := hformed'.of_scalar hscalar
      rw [hscalar] at h
      cases h with
      | scalar h => exact ⟨d, _, hu, .scalar h⟩
    | array =>
      rw [hscalar] at h
      cases h
    | object =>
      rw [hscalar] at h
      cases h
  | array =>
    obtain ⟨d, ys, hys, hl, hitems⟩ := Related.exists_array hp hw ⟨_, visited', h⟩
    exact ⟨d, _, hys, .array hl hitems⟩
  | @object inner' m hform =>
    rw [hform] at h
    obtain ⟨d, m', inner'', hm', hkeys, hvalues⟩ := hw.exists_object hp.right (e := kept b m)
      (f := fun k => form table o (!b && k == "properties") inner') h
    exact ⟨d, _, hm', .object hkeys fun key x y hx hy => ⟨inner', inner'', hvalues key x y hx hy⟩⟩

/-- Of two values of the same shape the second stands for itself if the first does. -/
theorem Matched.stands (hp : Paired o table table' known known') (hv : Readable o table known b v)
    (hw : Readable o table' known' c w) (h : Matched o table table' b v c w)
    (hs : Stands table o b v) : Stands table' o c w := by
  cases h with
  | scalar => exact .scalar c _
  | array => exact .array c _
  | @object _ m m' hk h =>
    have hrefKey : (Node.refKey == "properties") = false := rfl
    cases hs with
    | object hm hbranch =>
      refine .object ?_ fun key u' d x hm' hkey hdown => ?_
      · -- A reference to a definition would be one in both.
        refine Option.eq_none_iff_forall_ne_some.mpr ?_
        rintro ⟨name, body'⟩ hexp
        obtain ⟨rfl, target, htarget, hname⟩ := hw.reference hexp
        cases htarget
        obtain ⟨y, hy⟩ := Option.isSome_iff_exists.mp
          (Entries.get?_isSome_iff.mpr ((hk Node.refKey).mpr List.mem_cons_self))
        obtain ⟨visited, visited', hvalue⟩ := h Node.refKey y _ hy rfl
        rw [hrefKey, Bool.and_false, form_scalar] at hvalue
        have hpointed := hv.pointed?_of_form hp.left hy hvalue.string_eq hname
        obtain ⟨body, hbody, -⟩ := hp.back name body' (get?_of_expansion hexp)
          (hv.known m name .self hpointed)
        have hsome : expansion? table o [] m = some (name, body) :=
          expansion?_eq_some_iff_pointed.mpr ⟨hpointed, List.not_mem_nil, hbody⟩
        rw [hm] at hsome
        cases hsome
      · -- A composition of one branch would be one in both.
        have hnodup : (Entries.keys (kept b m)).Nodup := by
          cases hv.distinct with
          | object hm => exact nodup_kept hm b
        obtain ⟨u, hu⟩ := Entries.exists_eq_singleton hnodup fun k => (hm' ▸ hk k).symm
        have hvalue := h key u u' (by rw [hu, Entries.get?_cons, if_pos rfl])
          (by rw [hm', Entries.get?_cons, if_pos rfl])
        rw [beq_false_of_ne (compositionKeys_ne hkey).2, Bool.and_false, Bool.and_false] at hvalue
        have hreadu := hv.branches hu hkey
        have hreadu' := hw.branches hm' hkey
        obtain ⟨e, a, ha, harray⟩ := Related.comesDown hp.symm hdown hreadu' hreadu
          (hvalue.symm hp hreadu.distinct hreadu'.distinct)
        obtain ⟨e', ys, hys, hl, -⟩ := harray.exists_array hp.symm (hreadu.comesDown hp.left ha)
        obtain ⟨y, rfl⟩ := List.length_eq_one_iff.mp hl.symm
        exact hbranch key u e' y hu hkey (ha.trans hys)

/-- What the one value shows, a related value shows as well. -/
theorem Related.exists_shows (hp : Paired o table table' known known')
    (hv : Readable o table known b v) (hw : Readable o table' known' c w)
    (h : Related o table table' b v c w) {d : Bool} {x : Json} (hx : Shows table o b v d x) :
    ∃ e y, Shows table' o c w e y ∧ Matched o table table' d x e y := by
  obtain ⟨hdown, hstands⟩ := hx
  obtain ⟨c₁, w₁, hw₁, h₁⟩ := Related.comesDown hp hdown hv hw h
  have hread := hv.comesDown hp.left hdown
  have hread₁ := hw.comesDown hp.right hw₁
  obtain ⟨e, y, hy, hmatched⟩ := h₁.exists_matched hp hread hread₁ hstands
  exact ⟨e, y, ⟨hw₁.trans hy, hmatched.stands hp hread (hread₁.comesDown hp.right hy) hstands⟩,
    hmatched⟩

theorem Readable.child {o : Options} {table : Entries Json} {known : String → Prop} {b c : Bool}
    {v x : Json} {step : Step} (h : Readable o table known b v) (hx : child? b v step = some (c, x)) :
    Readable o table known c x := by
  cases v with
  | scalar => cases step <;> cases hx
  | array xs =>
    cases step with
    | key => cases hx
    | index i =>
      obtain ⟨y, hy, he⟩ := Option.map_eq_some_iff.mp hx
      cases he
      exact h.item (List.mem_of_getElem? hy)
  | object m =>
    cases step with
    | index => cases hx
    | key key =>
      obtain ⟨y, hy, he⟩ := Option.map_eq_some_iff.mp hx
      cases he
      exact h.get?_kept hy

/-- Behind the same step stand related values. -/
theorem Matched.exists_child (h : Matched o table table' b v c w) {step : Step} {d : Bool} {x : Json}
    (hx : child? b v step = some (d, x)) :
    ∃ e y, child? c w step = some (e, y) ∧ Related o table table' d x e y := by
  cases h with
  | scalar => cases step <;> cases hx
  | @array _ xs ys hl h =>
    cases step with
    | key => cases hx
    | index i =>
      obtain ⟨z, hz, he⟩ := Option.map_eq_some_iff.mp hx
      cases he
      obtain ⟨hlt, -⟩ := List.getElem?_eq_some_iff.mp hz
      have hy : ys[i]? = some (ys[i]) := List.getElem?_eq_getElem (hl ▸ hlt)
      refine ⟨false, ys[i], ?_, h (x, ys[i]) ?_⟩
      · exact Option.map_eq_some_iff.mpr ⟨_, hy, rfl⟩
      · exact List.mem_of_getElem? (List.getElem?_zip_eq_some.mpr ⟨hz, hy⟩)
  | @object _ m m' hk h =>
    cases step with
    | index => cases hx
    | key key =>
      obtain ⟨z, hz, he⟩ := Option.map_eq_some_iff.mp hx
      cases he
      obtain ⟨y, hy⟩ := Option.isSome_iff_exists.mp (Entries.get?_isSome_iff.mpr
        ((hk key).mp (Entries.get?_isSome_iff.mp (by rw [hz]; rfl))))
      exact ⟨_, y, Option.map_eq_some_iff.mpr ⟨y, hy, rfl⟩, h key _ y hz hy⟩

/-- Where a path leads in the one document, it leads to the same in the other. -/
theorem Reaches.exists_matches (hp : Paired o table table' known known') {path : List Step}
    (h : Reaches table o b v path d u) : ∀ {c : Bool} {w : Json}, Readable o table known b v →
      Readable o table' known' c w → Related o table table' b v c w →
      ∃ e y, Reaches table' o c w path e y ∧ Matches d u e y := by
  induction h with
  | nil hx =>
    intro c w hv hw h
    obtain ⟨e, y, hy, hmatched⟩ := h.exists_shows hp hv hw hx
    exact ⟨e, y, .nil hy, hmatched.matches⟩
  | cons hx hchild _ ih =>
    intro c w hv hw h
    obtain ⟨e, y, hy, hmatched⟩ := h.exists_shows hp hv hw hx
    obtain ⟨f, z, hz, hrelated⟩ := hmatched.exists_child hchild
    have hreadx := (hv.comesDown hp.left hx.1).child hchild
    have hready := (hw.comesDown hp.right hy.1).child hz
    obtain ⟨f', z', hz', hmatches⟩ := ih hreadx hready hrelated
    exact ⟨f', z', .cons hy hz hz', hmatches⟩

/-- Related values cannot be told apart by following paths. -/
theorem Related.lookAlike (hp : Paired o table table' known known')
    (hv : Readable o table known false v) (hw : Readable o table' known' false w)
    (h : Related o table table' false v false w) : LookAlike o table table' v w := by
  intro path
  by_cases hreach : ∃ b x, Reaches table o false v path b x
  · obtain ⟨b, x, hx⟩ := hreach
    obtain ⟨c, y, hy, hmatches⟩ := hx.exists_matches hp hv hw h
    exact .inl ⟨b, x, c, y, hx, hy, hmatches⟩
  · refine .inr ⟨fun b x hx => hreach ⟨b, x, hx⟩, fun c y hy => hreach ?_⟩
    obtain ⟨b, x, hx, -⟩ :=
      hy.exists_matches hp.symm hw hv (h.symm hp hv.distinct hw.distinct)
    exact ⟨b, x, hx⟩

end InlineSchema.Equivalence
