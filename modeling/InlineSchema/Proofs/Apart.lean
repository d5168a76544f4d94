import InlineSchema.Proofs.Difference
import InlineSchema.Proofs.Path
import InlineSchema.Proofs.Preservation

/-! # Forms that stay apart

Two forms are apart if they differ in a way that nothing around them can undo: collapsing a
composition of one branch takes the difference along. A tree in which one scalar has been replaced is
apart from the tree that it was moved from, if the comparison keeps that scalar.
-/
namespace InlineSchema.Equivalence
open Extraction

/-- The values differ as scalars, in items at one place of arrays of one length, or as objects. -/
inductive Apart : Json → Json → Prop
  | scalar {s t : Scalar} (h : s.same t = false) : Apart (.scalar s) (.scalar t)
  | item {xs ys : List Json} (hl : xs.length = ys.length) {p : Json × Json} (hp : p ∈ xs.zip ys)
      (h : Apart p.1 p.2) : Apart (.array xs) (.array ys)
  | object {a b : Entries Json} (h : ¬Alike (.object a) (.object b)) : Apart (.object a) (.object b)

theorem Apart.not_alike {v w : Json} (h : Apart v w) : ¬Alike v w := by
  induction h with
  | scalar h =>
    intro ha
    cases ha with
    | scalar hs => exact absurd (hs.symm.trans h) (by decide)
  | item _ hp _ ih =>
    intro ha
    cases ha with
    | array _ hs => exact ih (hs _ hp)
  | object h => exact h

/-- Arrays of one item are apart in that item. -/
theorem Apart.branch {x w : Json} (h : Apart (.array [x]) w) : ∃ y, w = .array [y] ∧ Apart x y := by
  cases h with
  | @item _ ys hl p hp h =>
    obtain ⟨y, rfl⟩ := List.length_eq_one_iff.mp hl.symm
    obtain rfl := List.mem_singleton.mp hp
    exact ⟨y, rfl, h⟩

theorem Apart.branch' {y v : Json} (h : Apart v (.array [y])) : ∃ x, v = .array [x] ∧ Apart x y := by
  cases h with
  | @item xs _ hl p hp h =>
    obtain ⟨x, rfl⟩ := List.length_eq_one_iff.mp hl
    obtain rfl := List.mem_singleton.mp hp
    exact ⟨x, rfl, h⟩

/-- Objects with the same keys are apart if the values of one key are, also where the objects are
compositions of one branch. -/
theorem apart_closed {a b : Entries Json} (hk : Entries.keys a = Entries.keys b)
    (hb : (Entries.keys b).Nodup) {p : (String × Json) × (String × Json)} (hp : p ∈ a.zip b)
    (h : Apart p.1.2 p.2.2) : Apart (closed a) (closed b) := by
  have hpair : ∀ k v w, a = [(k, v)] → b = [(k, w)] → Apart v w := by
    rintro k v w rfl rfl
    obtain rfl := List.mem_singleton.mp hp
    exact h
  have hkey := Entries.fst_eq_of_mem_zip hk hp
  obtain ⟨hpa, hpb⟩ := List.of_mem_zip hp
  cases ha : onlyBranch? a with
  | some x =>
    obtain ⟨k, rfl, hcomp⟩ := onlyBranch?_eq_some_iff.mp ha
    obtain ⟨⟨k', w⟩, rfl, hk'⟩ := List.map_eq_singleton_iff.mp hk.symm
    obtain rfl : k' = k := hk'
    obtain ⟨y, rfl, hxy⟩ := (hpair _ _ _ rfl rfl).branch
    have hb' : onlyBranch? [(k', Json.array [y])] = some y :=
      onlyBranch?_eq_some_iff.mpr ⟨k', rfl, hcomp⟩
    rw [closed_of_onlyBranch ha, closed_of_onlyBranch hb']
    exact hxy
  | none =>
    cases hb' : onlyBranch? b with
    | some y =>
      obtain ⟨k, rfl, hcomp⟩ := onlyBranch?_eq_some_iff.mp hb'
      obtain ⟨⟨k', v⟩, rfl, hk'⟩ := List.map_eq_singleton_iff.mp hk
      obtain rfl : k' = k := hk'
      obtain ⟨x, rfl, -⟩ := (hpair _ _ _ rfl rfl).branch'
      rw [onlyBranch?_eq_some_iff.mpr ⟨k', rfl, hcomp⟩] at ha
      cases ha
    | none =>
      rw [closed_of_none ha, closed_of_none hb']
      refine .object fun hlike => ?_
      cases hlike with
      | object _ hs =>
        have hget : Entries.get? b p.1.1 = some p.2.2 := Entries.get?_of_mem hb (hkey ▸ hpb)
        exact h.not_alike (hs p.1.1 p.1.2 p.2.2 hpa hget)

/-! ## Forms of trees -/

section
variable {original transformed : Entries Json} {o : Options} {visited visited' : List String}

theorem apart_sequence {xs xs' : List Node} (hl : xs.length = xs'.length) {p : Node × Node}
    (hp : p ∈ xs.zip xs') (inTable : Bool)
    (h : Apart (form original o false visited (Json.ofNode p.1))
      (form transformed o false visited' (Json.ofNode p.2))) :
    Apart (form original o inTable visited (Json.ofNode (.sequence xs)))
      (form transformed o inTable visited' (Json.ofNode (.sequence xs'))) := by
  rw [Json.ofNode_sequence, Json.ofNode_sequence, form_array, form_array, List.map_map, List.map_map]
  have hzip := List.mem_map_of_mem (f := Prod.map (form original o false visited ∘ Json.ofNode)
    (form transformed o false visited' ∘ Json.ofNode)) hp
  rw [← List.zip_map] at hzip
  exact .item (by simpa using hl) hzip h

theorem form_mapping {m : Entries Node}
    (h : hasReference (m.map fun p => (p.1, Json.ofNode p.2)) = false) (inTable : Bool)
    (table : Entries Json) (visited : List String) :
    form table o inTable visited (Json.ofNode (.mapping m)) =
      closed ((kept inTable m).map fun p =>
        (p.1, form table o (!inTable && p.1 == "properties") visited (Json.ofNode p.2))) := by
  rw [Json.ofNode_mapping, form_object h, kept_map (f := fun p => Json.ofNode p.2), List.map_map]
  rfl

theorem apart_mapping {m m' : Entries Node} (hk : Entries.keys m = Entries.keys m')
    (hm : (Entries.keys m).Nodup) (href : hasReference (m.map fun p => (p.1, Json.ofNode p.2)) = false)
    (href' : hasReference (m'.map fun p => (p.1, Json.ofNode p.2)) = false) {inTable : Bool}
    {p : (String × Node) × (String × Node)} (hp : p ∈ m.zip m')
    (hkept : (inTable || !documentationKeys.contains p.1.1) = true)
    (h : Apart (form original o (!inTable && p.1.1 == "properties") visited (Json.ofNode p.1.2))
      (form transformed o (!inTable && p.1.1 == "properties") visited' (Json.ofNode p.2.2))) :
    Apart (form original o inTable visited (Json.ofNode (.mapping m)))
      (form transformed o inTable visited' (Json.ofNode (.mapping m'))) := by
  rw [form_mapping href, form_mapping href']
  have hkey := Entries.fst_eq_of_mem_zip hk hp
  let f (p : String × Node) :=
    (p.1, form original o (!inTable && p.1 == "properties") visited (Json.ofNode p.2))
  let f' (p : String × Node) :=
    (p.1, form transformed o (!inTable && p.1 == "properties") visited' (Json.ofNode p.2))
  have hkeys : Entries.keys ((kept inTable m).map f) = Entries.keys (kept inTable m) :=
    Entries.keys_map (fun p => form original o (!inTable && p.1 == "properties") visited
      (Json.ofNode p.2)) _
  have hkeys' : Entries.keys ((kept inTable m').map f') = Entries.keys (kept inTable m') :=
    Entries.keys_map (fun p => form transformed o (!inTable && p.1 == "properties") visited'
      (Json.ofNode p.2)) _
  have hzip := List.mem_map_of_mem (f := Prod.map f f') (mem_zip_kept hk hp hkept)
  rw [← List.zip_map] at hzip
  refine apart_closed ?_ ?_ hzip ?_
  · rw [hkeys, hkeys', keys_kept hk]
  · rw [hkeys', ← keys_kept hk]
    exact nodup_kept hm inTable
  · simp only [Prod.map_fst, Prod.map_snd, f, f', ← hkey]
    exact h

/-- One item of the second sequence may change alone. -/
theorem apart_sequence_modify {xs xs' : List Node} (hl : xs.length = xs'.length) {i : Nat}
    {x x' : Node} (hx : xs[i]? = some x) (hx' : xs'[i]? = some x') {f : Node → Node} (inTable : Bool)
    (h : Apart (form original o false visited (Json.ofNode x))
      (form transformed o false visited' (Json.ofNode (f x')))) :
    Apart (form original o inTable visited (Json.ofNode (.sequence xs)))
      (form transformed o inTable visited' (Json.ofNode (.sequence (xs'.modify i f)))) := by
  have hf : (xs'.modify i f)[i]? = some (f x') := by
    rw [List.getElem?_modify_eq, hx']
    rfl
  have hzip : (x, f x') ∈ xs.zip (xs'.modify i f) :=
    List.mem_of_getElem? (List.getElem?_zip_eq_some.mpr ⟨hx, hf⟩)
  exact apart_sequence (hl.trans (List.length_modify ..).symm) hzip inTable h

/-- The value of one key of the second mapping may change alone. -/
theorem apart_mapping_modify {m m' : Entries Node} (hk : Entries.keys m = Entries.keys m')
    (hm : (Entries.keys m).Nodup) {key : String} {v v' : Node} {f : Node → Node}
    (href : hasReference (m.map fun p => (p.1, Json.ofNode p.2)) = false)
    (href' : hasReference ((Entries.modify key f m').map fun p => (p.1, Json.ofNode p.2)) = false)
    (hv : Entries.get? m key = some v) (hv' : Entries.get? m' key = some v') {inTable : Bool}
    (hkept : (inTable || !documentationKeys.contains key) = true)
    (h : Apart (form original o (!inTable && key == "properties") visited (Json.ofNode v))
      (form transformed o (!inTable && key == "properties") visited' (Json.ofNode (f v')))) :
    Apart (form original o inTable visited (Json.ofNode (.mapping m)))
      (form transformed o inTable visited' (Json.ofNode (.mapping (Entries.modify key f m')))) := by
  have hkeys : Entries.keys m = Entries.keys (Entries.modify key f m') :=
    hk.trans (Entries.keys_modify ..).symm
  obtain ⟨w, hw, hzip⟩ := Entries.exists_mem_zip_of_get? hkeys hv
  rw [Entries.get?_modify_self, hv', Option.map_some] at hw
  cases hw
  exact apart_mapping hkeys hm href href' hzip hkept h

/-! ## A scalar that is replaced -/

/-- A value with a place in it is no text, and stays none if that place changes. -/
theorem text?_of_follow {n y : Node} {step : Step} {path : List Step}
    (h : n.follow (step :: path) = some y) (x : Node) :
    (Json.ofNode n).text? = none ∧ (Json.ofNode (n.replaceAt (step :: path) x)).text? = none := by
  cases step with
  | key =>
    obtain ⟨m, v, rfl, -, -⟩ := Node.follow_key_eq_some h
    exact ⟨rfl, rfl⟩
  | index =>
    obtain ⟨xs, v, rfl, -, -⟩ := Node.follow_index_eq_some h
    exact ⟨rfl, rfl⟩

/-- The only scalar in a reference is its text. -/
theorem getLast?_of_follow_reference {target : String} {s : Scalar} {path : List Step}
    (h : (Node.reference target).follow path = some (.scalar s)) :
    path.getLast? = some (.key Node.refKey) := by
  cases path with
  | nil => cases h
  | cons step path =>
    cases step with
    | index =>
      obtain ⟨_, _, he, -, -⟩ := Node.follow_index_eq_some h
      cases he
    | key key =>
      obtain ⟨m, v, he, hv, h⟩ := Node.follow_key_eq_some h
      cases he
      rw [Entries.get?_cons] at hv
      split at hv
      next hkey =>
        cases hv
        subst hkey
        cases path with
        | nil => rfl
        | cons step => cases step <;> cases h
      next => cases hv

/-- The only scalar in a reference beside a description, apart from the description. -/
theorem getLast?_of_follow_documented {d target : String} {key : String} {v : Node} {s : Scalar}
    {path : List Step} (hkey : key ≠ "description")
    (hv : (documented d (Node.reference target)).get? key = some v)
    (h : v.follow path = some (.scalar s)) : path.getLast? = some (.key Node.refKey) := by
  rw [documented, Node.get?_mapping, Entries.get?_cons, if_neg hkey, Entries.get?_cons] at hv
  split at hv
  next =>
    cases hv
    cases path with
    | nil => cases h
    | cons step path =>
      cases step with
      | key =>
        obtain ⟨_, _, he, -, -⟩ := Node.follow_key_eq_some h
        cases he
      | index i =>
        obtain ⟨xs, x, he, hx, h⟩ := Node.follow_index_eq_some h
        cases he
        obtain rfl := List.mem_singleton.mp (List.mem_of_getElem? hx)
        rw [List.getLast?_cons, getLast?_of_follow_reference h]
        rfl
  next => cases hv

/-- In a new reference nothing but its text is kept. -/
theorem getLast?_of_follow_new {target : String} {n : Node}
    (hn : n = Node.reference target ∨ ∃ d, n = documented d (Node.reference target)) {s : Scalar}
    {path : List Step} (h : n.follow path = some (.scalar s))
    (hkept : ((strip false (Json.ofNode n)).follow path).isSome = true) :
    path.getLast? = some (.key Node.refKey) := by
  rcases hn with rfl | ⟨d, rfl⟩
  · exact getLast?_of_follow_reference h
  · cases path with
    | nil => cases h
    | cons step path =>
      cases step with
      | index =>
        obtain ⟨_, _, he, -, -⟩ := Node.follow_index_eq_some h
        cases he
      | key key =>
        obtain ⟨m, v, he, hv, h⟩ := Node.follow_key_eq_some h
        cases he
        obtain ⟨w, hw⟩ := Option.isSome_iff_exists.mp hkept
        obtain ⟨hkey, -⟩ := follow_strip_mapping hv hw
        have hne : key ≠ "description" := by
          rintro rfl
          exact absurd hkey (by decide)
        rw [List.getLast?_cons, getLast?_of_follow_documented hne hv h]
        rfl

theorem hasReference_modify {m : Entries Node} {key : String} {f : Node → Node} {v : Node}
    (h : hasReference (m.map fun p => (p.1, Json.ofNode p.2)) = false)
    (hv : Entries.get? m key = some v) (hf : key = Node.refKey → (Json.ofNode (f v)).text? = none) :
    hasReference ((Entries.modify key f m).map fun p => (p.1, Json.ofNode p.2)) = false := by
  rw [hasReference_ofNode] at h ⊢
  by_cases hkey : key = Node.refKey
  · subst hkey
    rw [Entries.get?_modify_self, hv, Option.map_some, Option.map_some, Option.bind_some, hf rfl]
    rfl
  · rwa [Entries.get?_modify_of_ne m f (Ne.symm hkey)]

/-- A reference of the source holds nothing but its text. -/
theorem hasReference_of_mem {m : Entries Node} (hbare : (Json.ofNode (.mapping m)).BareReferences)
    {key : String} {v : Node} (hmem : (key, v) ∈ m)
    (h : key = Node.refKey → (Json.ofNode v).text? = none) :
    hasReference (m.map fun p => (p.1, Json.ofNode p.2)) = false := by
  by_contra href
  rw [Json.ofNode_mapping] at hbare
  obtain ⟨target, htarget⟩ := (hbare _ .self).1 (eq_true_of_ne_false href)
  have hp := List.mem_map_of_mem (f := fun p : String × Node => (p.1, Json.ofNode p.2)) hmem
  rw [Json.object.inj htarget, List.mem_singleton] at hp
  obtain ⟨hkey, hv⟩ := Prod.mk.inj hp
  rw [hv] at h
  cases h hkey

/-- A tree from which objects have been moved, and in which a scalar that the comparison keeps has
then been replaced, is apart from the tree that was found. No reference is on the way. -/
theorem apart_replaceAt {R : Registry} {s t : Scalar}
    (hst : (Json.ofScalar s).same (Json.ofScalar t) = false) {path : List Step} :
    ∀ {names : Set String} {entry : Bool} {g : ReadAs} {n n' : Node},
    Moved o R names entry g n n' → g ≠ .either → (Json.ofNode n).BareReferences → n.Distinct →
    n'.follow path = some (.scalar s) →
    ((strip (inTable g) (Json.ofNode n')).follow path).isSome = true →
    path.getLast? ≠ some (.key Node.refKey) →
    Apart (form original o (inTable g) visited (Json.ofNode n))
      (form transformed o (inTable g) visited' (Json.ofNode (n'.replaceAt path (.scalar t)))) := by
  induction path with
  | nil =>
    intro names entry g n n' h _ _ _ hleaf _ _
    cases hleaf
    cases h with
    | scalar =>
      rw [Node.replaceAt, Json.ofNode, Json.ofNode, form_scalar, form_scalar]
      exact .scalar hst
    | minted _ _ _ _ _ hn' => rcases hn' with hn' | ⟨d, hn'⟩ <;> cases hn'
  | cons step path ih =>
    intro names entry g n n' h hg hbare hdistinct hleaf hkept hlast
    have hlast' : path.getLast? ≠ some (.key Node.refKey) := fun hl =>
      hlast (by rw [List.getLast?_cons, hl]; rfl)
    cases h with
    | scalar => cases step <;> cases hleaf
    | minted hgt _ _ _ _ hn' =>
      rw [inTable_of_ne hgt] at hkept
      exact absurd (getLast?_of_follow_new hn' hleaf hkept) hlast
    | @sequence _ _ _ xs xs' hl h =>
      cases step with
      | key => cases hleaf
      | index i =>
        obtain ⟨_, x', he, hx', hrest⟩ := Node.follow_index_eq_some hleaf
        cases he
        obtain ⟨hlt, -⟩ := List.getElem?_eq_some_iff.mp hx'
        obtain ⟨x, hx⟩ : ∃ x, xs[i]? = some x := ⟨_, List.getElem?_eq_getElem (hl ▸ hlt)⟩
        have hitem : (x, x') ∈ xs.zip xs' :=
          List.mem_of_getElem? (List.getElem?_zip_eq_some.mpr ⟨hx, hx'⟩)
        have hmem := (List.of_mem_zip hitem).1
        have hkept' : ((strip false (Json.ofNode x')).follow path).isSome = true := by
          obtain ⟨w, hw⟩ := Option.isSome_iff_exists.mp hkept
          rw [follow_strip_sequence hx' hw]
          rfl
        have hmoved := h _ hitem
        rw [ReadAs.inside_of_ne hg] at hmoved
        have hapart := ih hmoved (by decide) (hbare.within (Json.within_ofNode_sequence hmem))
          (hdistinct.items x hmem) hrest hkept' hlast'
        rw [Node.replaceAt]
        exact apart_sequence_modify hl hx hx' _ hapart
    | @mapping _ _ _ m m' hk h =>
      cases step with
      | index => cases hleaf
      | key key =>
        obtain ⟨_, v', he, hv', hrest⟩ := Node.follow_key_eq_some hleaf
        cases he
        obtain ⟨w, hw⟩ := Option.isSome_iff_exists.mp hkept
        obtain ⟨hkey, hw⟩ := follow_strip_mapping hv' hw
        obtain ⟨v, hv, -⟩ := Entries.exists_mem_zip_of_get? hk.symm hv'
        obtain ⟨v₁, hv₁, hzip⟩ := Entries.exists_mem_zip_of_get? hk hv
        obtain rfl := Option.some.inj (hv₁.symm.trans hv')
        have hmem := Entries.mem_of_get? hv
        have hmoved := h _ hzip
        have hkept' : ((strip (inTable (g.under key)) (Json.ofNode v₁)).follow path).isSome = true := by
          rw [inTable_under hg, hw]
          rfl
        have hapart := ih hmoved (ReadAs.under_ne_either hg key)
          (hbare.within (Json.within_ofNode_mapping hmem)) (hdistinct.values _ hmem) hrest hkept' hlast'
        rw [inTable_under hg] at hapart
        -- The path goes on behind a reference key, so no text stands there.
        have htext : key = Node.refKey → (Json.ofNode v).text? = none ∧
            (Json.ofNode (v₁.replaceAt path (.scalar t))).text? = none := by
          rintro rfl
          cases path with
          | nil => exact absurd rfl hlast
          | cons =>
            obtain ⟨hnone, hnone'⟩ := text?_of_follow hrest (.scalar t)
            exact ⟨(text?_of_moved hmoved).symm.trans hnone, hnone'⟩
        have href := hasReference_of_mem hbare hmem fun he => (htext he).1
        rw [Node.replaceAt]
        exact apart_mapping_modify hk hdistinct.nodup href (hasReference_modify
          ((hasReference_of_moved hk h).trans href) hv' fun he => (htext he).2) hv hv' hkey hapart

end
end InlineSchema.Equivalence
