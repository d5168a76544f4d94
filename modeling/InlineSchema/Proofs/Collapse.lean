import InlineSchema.Proofs.NormalForm

/-! # Collapsed compositions

One pass from the inside out leaves no composition of one branch, because a branch that takes the
place of its composition has been collapsed before. What a value collapses to is made from what its
parts collapse to, so that a part may be replaced by any other that collapses to the same.
-/
namespace InlineSchema

namespace Json

inductive Context where
  | gap
  | item (before : List Json) (inner : Context) (after : List Json)
  | entry (before : Entries Json) (key : String) (inner : Context) (after : Entries Json)

def Context.fill : Context → Json → Json
  | .gap, x => x
  | .item before inner after, x => .array (before ++ inner.fill x :: after)
  | .entry before key inner after, x => .object (before ++ (key, inner.fill x) :: after)

theorem Context.within_fill (c : Context) (x : Json) : x.Within (c.fill x) := by
  induction c with
  | gap => exact .self
  | item before inner after ih => exact .item List.mem_append_cons_self ih
  | entry before key inner after ih => exact .value List.mem_append_cons_self ih

/-- What stands in a value stands in a context. -/
theorem within_iff_exists_context {x v : Json} : x.Within v ↔ ∃ c : Context, c.fill x = v := by
  constructor
  · intro h
    induction h with
    | self => exact ⟨.gap, rfl⟩
    | item hy _ ih =>
      obtain ⟨c, rfl⟩ := ih
      obtain ⟨before, after, rfl⟩ := List.append_of_mem hy
      exact ⟨.item before c after, rfl⟩
    | @value p _ hp _ ih =>
      obtain ⟨c, hc⟩ := ih
      obtain ⟨before, after, rfl⟩ := List.append_of_mem hp
      exact ⟨.entry before p.1 c after, by rw [Context.fill, hc]⟩
  · rintro ⟨c, rfl⟩
    exact c.within_fill x

end Json

namespace Equivalence

/-- Nowhere in the value a composition with a single branch is all there is to an object. -/
def Collapsed (v : Json) : Prop :=
  ∀ key ∈ Node.compositionKeys, ∀ branch, ¬(Json.object [(key, .array [branch])]).Within v

theorem onlyBranch?_eq_none_iff {m : Entries Json} : onlyBranch? m = none ↔
    ∀ key ∈ Node.compositionKeys, ∀ branch, m ≠ [(key, .array [branch])] := by
  rw [Option.eq_none_iff_forall_ne_some]
  constructor
  · intro h key hkey branch hm
    exact h branch (onlyBranch?_eq_some_iff.mpr ⟨key, hm, by simpa using hkey⟩)
  · intro h branch hbranch
    obtain ⟨key, hm, hkey⟩ := onlyBranch?_eq_some_iff.mp hbranch
    exact h key (by simpa using hkey) branch hm

theorem collapsed_iff_everywhere {v : Json} :
    Collapsed v ↔ v.Everywhere fun m => onlyBranch? m = none := by
  constructor
  · intro h m hm
    rw [onlyBranch?_eq_none_iff]
    rintro key hkey branch rfl
    exact h key hkey branch hm
  · intro h key hkey branch hw
    exact onlyBranch?_eq_none_iff.mp (h _ hw) key hkey branch rfl

theorem collapsed_scalar (s : Scalar) : Collapsed (.scalar s) := by
  simp [collapsed_iff_everywhere]

theorem collapsed_array_iff {xs : List Json} : Collapsed (.array xs) ↔ ∀ x ∈ xs, Collapsed x := by
  simp [collapsed_iff_everywhere]

theorem collapsed_object_iff {m : Entries Json} :
    Collapsed (.object m) ↔ onlyBranch? m = none ∧ ∀ p ∈ m, Collapsed p.2 := by
  simp [collapsed_iff_everywhere]

/-- If the values are collapsed, an object is after one step: either it is no composition of one
branch, or it becomes the branch, which is collapsed. -/
theorem collapsed_closed {m : Entries Json} (h : ∀ p ∈ m, Collapsed p.2) : Collapsed (closed m) := by
  cases hm : onlyBranch? m with
  | none =>
    rw [closed_of_none hm, collapsed_object_iff]
    exact ⟨hm, h⟩
  | some branch =>
    obtain ⟨key, rfl, -⟩ := onlyBranch?_eq_some_iff.mp hm
    have hbranches : Collapsed (.array [branch]) := h _ List.mem_cons_self
    rw [closed_of_onlyBranch hm]
    exact collapsed_array_iff.mp hbranches branch List.mem_cons_self

theorem collapsed_collapse (v : Json) : Collapsed (collapse v) := by
  induction v using Json.induct with
  | scalar s => exact collapsed_scalar s
  | array xs ih =>
    rw [collapse, collapseItems_eq_map, collapsed_array_iff]
    exact List.forall_mem_map.mpr ih
  | object m ih =>
    rw [collapse_object]
    exact collapsed_closed (List.forall_mem_map.mpr ih)

theorem collapse_of_collapsed {v : Json} (h : Collapsed v) : collapse v = v := by
  induction v using Json.induct with
  | scalar s => rfl
  | array xs ih =>
    rw [collapsed_array_iff] at h
    rw [collapse, collapseItems_eq_map, List.map_congr_left fun x hx => ih x hx (h x hx), List.map_id']
  | object m ih =>
    obtain ⟨hm, h⟩ := collapsed_object_iff.mp h
    have hvalues : (m.map fun p => (p.1, collapse p.2)) = m := by
      rw [List.map_congr_left fun p hp => by rw [ih p hp (h p hp)], List.map_id']
    rw [collapse_object, hvalues, closed_of_none hm]

/-- The collapsed values are the ones that collapsing leaves alone. -/
theorem collapse_eq_self_iff {v : Json} : collapse v = v ↔ Collapsed v :=
  ⟨fun h => h ▸ collapsed_collapse v, collapse_of_collapsed⟩

theorem collapse_composition {key : String} (hkey : key ∈ Node.compositionKeys) (x : Json) :
    collapse (.object [(key, .array [x])]) = collapse x := by
  have hbranch : onlyBranch? [(key, .array [collapse x])] = some (collapse x) :=
    onlyBranch?_eq_some_iff.mpr ⟨key, rfl, by simpa using hkey⟩
  rw [collapse_object]
  exact closed_of_onlyBranch hbranch

theorem collapse_fill_congr {x y : Json} (h : collapse y = collapse x) (c : Json.Context) :
    collapse (c.fill y) = collapse (c.fill x) := by
  induction c with
  | gap => exact h
  | item before inner after ih =>
    simp only [Json.Context.fill, collapse, collapseItems_eq_map, List.map_append, List.map_cons, ih]
  | entry before key inner after ih =>
    simp only [Json.Context.fill, collapse_object, List.map_append, List.map_cons, ih]

/-- Collapsing is done in one pass: nothing is left to collapse, at any depth, and a second pass
changes nothing. Anything that stands in the value may be replaced, where it stands, by what collapses
to the same, such as a composition of which it is the only branch. -/
theorem collapse_once (v : Json) :
    Collapsed (collapse v) ∧ collapse (collapse v) = collapse v ∧
      ∀ x, (x.Within v ↔ ∃ c : Json.Context, c.fill x = v) ∧
        ∀ c : Json.Context, c.fill x = v →
          (∀ y, collapse y = collapse x → collapse (c.fill y) = collapse v) ∧
            ∀ key ∈ Node.compositionKeys,
              collapse (c.fill (.object [(key, .array [x])])) = collapse v := by
  have hcollapsed := collapsed_collapse v
  refine ⟨hcollapsed, collapse_eq_self_iff.mpr hcollapsed, fun x => ?_⟩
  refine ⟨Json.within_iff_exists_context, ?_⟩
  rintro c rfl
  exact ⟨fun y hy => collapse_fill_congr hy c,
    fun key hkey => collapse_fill_congr (collapse_composition hkey x) c⟩

/-- A branch behind two compositions, in the place of the items of an array. -/
theorem collapse_once_items :
    let c : Json.Context := .entry [] "items" .gap [("type", .scalar (.string "array"))]
    let inner := Json.object [("allOf", .array [.scalar (.bool true)])]
    let x := Json.object [("oneOf", .array [inner])]
    x.Within (c.fill x) ∧ collapse (.scalar (.bool true)) = collapse x ∧
      collapse (c.fill (.scalar (.bool true))) = collapse (c.fill x) := by
  intro c inner x
  obtain ⟨-, -, h⟩ := collapse_once (c.fill x)
  obtain ⟨hwithin, hreplace⟩ := h x
  exact ⟨hwithin.mpr ⟨c, rfl⟩, rfl, (hreplace c rfl).1 _ rfl⟩

end Equivalence
end InlineSchema
