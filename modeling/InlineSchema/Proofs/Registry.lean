import InlineSchema.Proofs.Entries
import InlineSchema.Registry

/-! # Laws of the registry

Defining a name changes that entry alone, and a reserved name was free before. A name that is made
from a text is that text or an extension of it. Merging gives the union of the table and the
registry, in which every name keeps its body.
-/
namespace InlineSchema

namespace Entries
variable {α : Type}

theorem insertSorted_cons (key : String) (value : α) (p : String × α) (m : Entries α) :
    insertSorted key value (p :: m) =
      if p.1 < key then p :: insertSorted key value m
      else if p.1 = key then (key, value) :: m else (key, value) :: p :: m := rfl

theorem get?_insertSorted {m : Entries α} (key : String) (value : α) (k : String) :
    get? (insertSorted key value m) k = if k = key then some value else get? m k := by
  induction m with
  | nil => simp [insertSorted]
  | cons p m ih =>
    rw [insertSorted_cons]
    split
    next hlt =>
      have hne : p.1 ≠ key := fun he => String.lt_irrefl key (he ▸ hlt)
      rw [get?_cons, get?_cons, ih]
      by_cases hk : k = p.1
      · rw [if_pos hk, if_pos hk, if_neg (hk ▸ hne)]
      · rw [if_neg hk, if_neg hk]
    next =>
      split
      next he =>
        rw [get?_cons, get?_cons, he]
        split <;> rfl
      next => rw [get?_cons]

theorem Sorted.nodup {m : Entries α} (hm : Sorted m) : (keys m).Nodup := by
  refine List.Pairwise.map Prod.fst (fun a b hab he => ?_) hm
  exact String.lt_irrefl b.1 (he ▸ hab)

theorem sorted_sort (l : List (String × α)) : Sorted (sort l) := by
  suffices h : ∀ m : Entries α, Sorted m →
      Sorted (l.foldl (fun m p => insertSorted p.1 p.2 m) m) from h [] .nil
  induction l with
  | nil => exact fun m hm => hm
  | cons p l ih => exact fun m hm => ih _ (hm.insertSorted p.1 p.2)

/-- Sorting finds the last entry of a key, which with distinct keys is its only one. -/
theorem get?_sort {l : List (String × α)} (h : (keys l).Nodup) (k : String) :
    get? (sort l) k = get? l k := by
  suffices hs : ∀ m : Entries α, (keys l).Nodup →
      get? (l.foldl (fun m p => insertSorted p.1 p.2 m) m) k = (get? l k).or (get? m k) from
    (hs [] h).trans (by simp)
  clear h
  induction l with
  | nil => exact fun _ _ => rfl
  | cons p l ih =>
    intro m hd
    obtain ⟨hp, hd⟩ := List.nodup_cons.mp hd
    change get? (l.foldl _ (insertSorted p.1 p.2 m)) k = _
    rw [ih _ hd, get?_insertSorted, get?_cons]
    split
    next hk =>
      have hn : get? l k = none := get?_eq_none_iff.mpr (hk ▸ hp)
      rw [hn, Option.none_or, Option.some_or]
    next => rfl

theorem mem_of_mem_sort {l : List (String × α)} {p : String × α} (h : p ∈ sort l) : p ∈ l := by
  suffices hs : ∀ m : Entries α,
      p ∈ l.foldl (fun m p => insertSorted p.1 p.2 m) m → p ∈ l ∨ p ∈ m from
    (hs [] h).resolve_right List.not_mem_nil
  clear h
  induction l with
  | nil => exact fun _ h => .inr h
  | cons q l ih =>
    intro m h
    rcases ih _ h with h | h
    · exact .inl (List.mem_cons_of_mem _ h)
    · have h : p ∈ insertSorted q.1 q.2 m := h
      rcases mem_insertSorted h with rfl | h
      · exact .inl List.mem_cons_self
      · exact .inr h

theorem sort_perm {l : List (String × α)} (h : (keys l).Nodup) : (sort l).Perm l := by
  have hsort := (sorted_sort l).nodup
  refine (List.perm_ext_iff_of_nodup (hsort.of_map _) (h.of_map _)).mpr fun p => ?_
  rw [mem_iff_get? hsort, mem_iff_get? h, get?_sort h]

end Entries

namespace Registry

theorem get?_define (r : Registry) (name : String) (body : Node) (x : String) :
    (r.define name body).get? x = if x = name then some body else r.get? x :=
  Entries.get?_insertSorted name body x

@[simp] theorem get?_empty (name : String) : empty.get? name = none := rfl

theorem contains_eq_false {r : Registry} {name : String} :
    r.contains name = false ↔ r.get? name = none := by
  simp [contains]

theorem mem_names {r : Registry} {name : String} :
    name ∈ r.names ↔ (r.get? name).isSome = true := Entries.get?_isSome_iff.symm

theorem names_of_isEmpty {r : Registry} (h : r.isEmpty = true) : r.names = [] := by
  rw [names, List.isEmpty_iff.mp h]
  rfl

/-! ## Free names -/

theorem mem_suffixed {r : Registry} {base name : String} (h : name ∈ r.suffixed base) :
    ∃ n : Nat, name = base ++ (n + 2).repr := by
  obtain ⟨n, -, rfl⟩ := List.mem_map.mp h
  exact ⟨n, rfl⟩

theorem nodup_suffixed (r : Registry) (base : String) : (base :: r.suffixed base).Nodup := by
  refine List.nodup_cons.mpr ⟨?_, ?_⟩
  · intro h
    obtain ⟨n, hn⟩ := mem_suffixed h
    exact Nat.repr_ne_empty (String.append_eq_left_iff.mp hn.symm)
  · refine List.nodup_range.map ?_
    intro m n h
    have hr : (m + 2).repr = (n + 2).repr := (String.append_right_inj base).mp h
    have := Nat.repr_injective hr
    omega

/-- There are more candidates for a name than names that are taken. -/
theorem exists_free (r : Registry) (base : String) :
    ∃ name ∈ base :: r.suffixed base, r.contains name = false := by
  by_contra hall
  simp only [not_exists, not_and, Bool.not_eq_false] at hall
  have hsub : base :: r.suffixed base ⊆ r.names := fun x hx => mem_names.mpr (hall x hx)
  have hle := ((nodup_suffixed r base).subperm hsub).length_le
  simp only [suffixed, names, size, Entries.keys, List.length_cons, List.length_map,
    List.length_range] at hle
  omega

theorem uniqueName_free (r : Registry) (base : String) : r.contains (r.uniqueName base) = false := by
  rw [uniqueName]
  split
  next hb =>
    obtain ⟨name, hmem, hfree⟩ := exists_free r base
    have hne : name ≠ base := by
      rintro rfl
      rw [hb] at hfree
      cases hfree
    have hmem := (List.mem_cons.mp hmem).resolve_left hne
    cases hf : (r.suffixed base).find? (!r.contains ·) with
    | none =>
      have := List.find?_eq_none.mp hf name hmem
      simp [hfree] at this
    | some n => simpa using List.find?_some hf
  next hb => simpa using hb

theorem uniqueName_eq (r : Registry) (base : String) :
    r.uniqueName base = base ∨ ∃ n : Nat, r.uniqueName base = base ++ (n + 2).repr := by
  rw [uniqueName]
  split
  · cases hf : (r.suffixed base).find? (!r.contains ·) with
    | none => exact .inl rfl
    | some n => exact .inr (mem_suffixed (List.mem_of_find?_eq_some hf))
  · exact .inl rfl

theorem reserve_free (r : Registry) (base : String) : r.get? (r.reserve base).1 = none :=
  contains_eq_false.mp (uniqueName_free r base)

theorem get?_reserve (r : Registry) (base x : String) :
    (r.reserve base).2.get? x =
      if x = (r.reserve base).1 then some Node.emptyMapping else r.get? x :=
  get?_define _ _ _ _

/-! ## The merged table -/

theorem nodup_table_append {r : Registry} {table : Entries Node} (ht : (Entries.keys table).Nodup)
    (hfree : ∀ name ∈ r.names, Entries.get? table name = none) :
    (Entries.keys (table ++ r.entries)).Nodup := by
  rw [Entries.keys, List.map_append]
  refine List.nodup_append'.mpr ⟨ht, r.sorted.nodup, fun k hk hk' => ?_⟩
  exact Entries.get?_eq_none_iff.mp (hfree k hk') hk

theorem get?_mergedTable {r : Registry} {table : Entries Node} (ht : (Entries.keys table).Nodup)
    (hfree : ∀ name ∈ r.names, Entries.get? table name = none) (name : String) :
    Entries.get? (r.mergedTable table) name = (Entries.get? table name).or (r.get? name) := by
  rw [mergedTable, Entries.get?_sort (nodup_table_append ht hfree), Entries.get?_append]
  rfl

theorem mergedTable_perm {r : Registry} {table : Entries Node} (ht : (Entries.keys table).Nodup)
    (hfree : ∀ name ∈ r.names, Entries.get? table name = none) :
    (r.mergedTable table).Perm (table ++ r.entries) :=
  Entries.sort_perm (nodup_table_append ht hfree)

end Registry
end InlineSchema
