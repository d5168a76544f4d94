import InlineSchema.Equivalence.Difference
import InlineSchema.Proofs.Json

/-! # Values without a difference

The search for a difference finds none exactly if the two values are alike: the same scalars,
arrays of one length, and objects with the same keys, whatever their order.
-/
namespace InlineSchema.Equivalence

inductive Alike : Json → Json → Prop
  | scalar {s t : Scalar} (h : s.same t = true) : Alike (.scalar s) (.scalar t)
  | array {xs ys : List Json} (hl : xs.length = ys.length)
      (h : ∀ p ∈ xs.zip ys, Alike p.1 p.2) : Alike (.array xs) (.array ys)
  | object {a b : Entries Json} (hk : ∀ k, k ∈ Entries.keys a ↔ k ∈ Entries.keys b)
      (h : ∀ k v w, (k, v) ∈ a → Entries.get? b k = some w → Alike v w) :
      Alike (.object a) (.object b)

theorem differenceItems_eq_none_iff {xs ys : List Json} (hl : xs.length = ys.length)
    (path : String) (i : Nat) :
    differenceItems path i xs ys = none ↔
      ∀ (j : Nat) p, (xs.zip ys)[j]? = some p →
        difference (path ++ "/" ++ toString (i + j)) p.1 p.2 = none := by
  induction xs generalizing ys i with
  | nil => simp [differenceItems]
  | cons x xs ih =>
    cases ys with
    | nil => cases hl
    | cons y ys =>
      rw [differenceItems, Option.or_eq_none_iff, ih (Nat.succ.inj hl)]
      constructor
      · rintro ⟨hx, h⟩ j p hp
        cases j with
        | zero => cases hp; exact hx
        | succ j => rw [← Nat.add_assoc, Nat.add_right_comm]; exact h j p hp
      · intro h
        refine ⟨h 0 _ rfl, fun j p hp => ?_⟩
        have := h (j + 1) p hp
        rwa [← Nat.add_assoc, Nat.add_right_comm] at this

theorem differenceEntries_eq_none_iff {a b : Entries Json} (path : String) :
    differenceEntries path a b = none ↔
      ∀ p ∈ a, ∃ w, Entries.get? b p.1 = some w ∧ difference (childPath path p.1) p.2 w = none := by
  induction a with
  | nil => simp [differenceEntries]
  | cons p a ih =>
    obtain ⟨k, v⟩ := p
    rw [differenceEntries, Option.or_eq_none_iff, ih, List.forall_mem_cons]
    refine and_congr_left fun _ => ?_
    cases Entries.get? b k with
    | none => simp
    | some w => simp

theorem extraKey?_eq_none_iff (a b : Entries Json) :
    extraKey? a b = none ↔ ∀ k ∈ Entries.keys b, k ∈ Entries.keys a := by
  rw [extraKey?, List.find?_eq_none]
  refine forall₂_congr fun k _ => ?_
  rw [Entries.contains, ← Entries.get?_isSome_iff]
  cases Entries.get? a k <;> simp

theorem difference_object_eq_none_iff {a b : Entries Json} (path : String) :
    difference path (.object a) (.object b) = none ↔
      (∀ p ∈ a, ∃ w, Entries.get? b p.1 = some w ∧ difference (childPath path p.1) p.2 w = none) ∧
        ∀ k ∈ Entries.keys b, k ∈ Entries.keys a := by
  rw [difference, Option.or_eq_none_iff, Option.map_eq_none_iff, differenceEntries_eq_none_iff,
    extraKey?_eq_none_iff]

theorem difference_array_eq_none_iff {xs ys : List Json} (path : String) :
    difference path (.array xs) (.array ys) = none ↔ xs.length = ys.length ∧
      ∀ (j : Nat) p, (xs.zip ys)[j]? = some p →
        difference (path ++ "/" ++ toString (0 + j)) p.1 p.2 = none := by
  rw [difference]
  split
  next hl => rw [differenceItems_eq_none_iff hl]; exact (and_iff_right hl).symm
  next hl => simp [hl]

/-- The search finds no difference exactly if there is none. -/
theorem difference_eq_none_iff (a b : Json) (path : String) :
    difference path a b = none ↔ Alike a b := by
  constructor
  · intro h
    induction a using Json.induct generalizing b path with
    | scalar s =>
      cases b with
      | scalar t => exact .scalar (by simpa [difference] using h)
      | array => cases h
      | object => cases h
    | array xs ih =>
      cases b with
      | scalar => cases h
      | array ys =>
        obtain ⟨hl, h⟩ := (difference_array_eq_none_iff path).mp h
        refine .array hl fun p hp => ?_
        obtain ⟨j, hj⟩ := List.getElem?_of_mem hp
        exact ih p.1 (List.of_mem_zip hp).1 _ _ (h j p hj)
      | object => cases h
    | object a ih =>
      cases b with
      | scalar => cases h
      | array => cases h
      | object b =>
        obtain ⟨hab, hba⟩ := (difference_object_eq_none_iff path).mp h
        refine .object (fun k => ⟨fun hk => ?_, hba k⟩) fun k v w hv hw => ?_
        · obtain ⟨p, hp, rfl⟩ := List.mem_map.mp hk
          obtain ⟨w, hw, -⟩ := hab p hp
          exact Entries.get?_isSome_iff.mp (by rw [hw]; rfl)
        · obtain ⟨w', hw', hd⟩ := hab (k, v) hv
          cases hw.symm.trans hw'
          exact ih (k, v) hv _ _ hd
  · intro h
    induction h generalizing path with
    | scalar h => rw [difference, if_pos h]
    | array hl _ ih =>
      exact (difference_array_eq_none_iff path).mpr
        ⟨hl, fun j p hp => ih p (List.mem_of_getElem? hp) _⟩
    | object hk _ ih =>
      refine (difference_object_eq_none_iff path).mpr ⟨fun p hp => ?_, fun k => (hk k).mpr⟩
      have hmem := (hk p.1).mp (List.mem_map_of_mem hp)
      obtain ⟨w, hw⟩ := Option.isSome_iff_exists.mp (Entries.get?_isSome_iff.mpr hmem)
      exact ⟨w, hw, ih p.1 p.2 w hp hw _⟩

theorem same_self (s : Scalar) : s.same s = true := by
  cases s with
  | null => rfl
  | bool b => simp [Scalar.same]
  | string t => simp [Scalar.same]
  | number x =>
    cases x with
    | integer n => simp [Scalar.same, Number.same]
    | float x =>
      rw [Scalar.same, Number.same]
      unfold Double.same
      split
      · rfl
      · exact BEq.rfl

theorem Alike.refl {v : Json} (h : v.Distinct) : Alike v v := by
  induction h with
  | scalar s => exact .scalar (same_self s)
  | array _ ih =>
    refine .array rfl fun p hp => ?_
    rw [← Entries.eq_of_mem_zip_self hp]
    exact ih _ (List.of_mem_zip hp).1
  | object hm _ ih =>
    refine .object (fun _ => Iff.rfl) fun k v w hv hw => ?_
    rw [Entries.get?_of_mem hm hv] at hw
    cases hw
    exact ih _ hv

theorem same_comm (s t : Scalar) : s.same t = t.same s := by
  cases s with
  | number x =>
    cases t with
    | number y =>
      cases x with
      | integer => cases y <;> simp [Scalar.same, Number.same, eq_comm]
      | float x =>
        cases y with
        | integer => rfl
        | float y =>
          rw [Scalar.same, Scalar.same, Number.same, Number.same]
          unfold Double.same
          split
          next => rfl
          next hx =>
            split
            next => exact absurd rfl (hx _ _ _ _ rfl)
            next => exact BEq.comm
    | _ => rfl
  | _ => cases t <;> simp [Scalar.same, eq_comm]

theorem Alike.symm {v w : Json} (h : Alike v w) (hv : v.Distinct) (hw : w.Distinct) : Alike w v := by
  induction h with
  | scalar h => exact .scalar ((same_comm _ _).trans h)
  | @array xs ys hl _ ih =>
    refine .array hl.symm fun p hp => ?_
    rw [← List.zip_swap] at hp
    obtain ⟨q, hq, rfl⟩ := List.mem_map.mp hp
    obtain ⟨hq₁, hq₂⟩ := List.of_mem_zip hq
    cases hv with
    | array hv =>
      cases hw with
      | array hw => exact ih q hq (hv _ hq₁) (hw _ hq₂)
  | object hk _ ih =>
    cases hv with
    | object ha hv =>
      cases hw with
      | object hb hw =>
        refine .object (fun k => (hk k).symm) fun k v w hmem hget => ?_
        have hmem' := Entries.mem_of_get? hget
        exact ih k w v hmem' (Entries.get?_of_mem hb hmem) (hv _ hmem') (hw _ hmem)

/-- A text is like no other value. -/
theorem Alike.eq_string {t : String} {v : Json} (h : Alike (.scalar (.string t)) v) :
    v = .scalar (.string t) := by
  cases h with
  | @scalar _ s h =>
    cases s <;> simp_all [Scalar.same]

theorem Alike.string_eq {t : String} {v : Json} (h : Alike v (.scalar (.string t))) :
    v = .scalar (.string t) := by
  cases h with
  | @scalar s _ h =>
    cases s <;> simp_all [Scalar.same]

end InlineSchema.Equivalence
