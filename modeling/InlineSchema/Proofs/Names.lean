import Mathlib
import InlineSchema.Proofs.Registry

/-! # Free names

A taken name gets the least number from 2 on that makes it free. There are more candidates than
names that are taken, so the search for it ends, however the counter is bounded, if only it can count
one beyond the definitions. What is reserved is free until then, and so no name is given twice,
in whatever order names are reserved, defined and asked for.
-/
namespace InlineSchema

/-- A new key makes a sorted mapping longer by one entry. -/
theorem Entries.length_insertSorted {α : Type} {m : Entries α} {key : String} (h : get? m key = none)
    (value : α) : (insertSorted key value m).length = m.length + 1 := by
  induction m with
  | nil => rfl
  | cons p m ih =>
    rw [get?_cons] at h
    split at h
    next => cases h
    next hne =>
      rw [insertSorted_cons, if_neg (Ne.symm hne)]
      split
      · simp [ih h]
      · rfl

namespace Registry

/-- The first free name among those that end in a number from 2 to `last`. -/
def search? (r : Registry) (base : String) (last : Nat) : Option String :=
  ((List.range' 2 (last - 1)).map fun n => base ++ toString n).find? (!r.contains ·)

variable {r : Registry} {base : String}

theorem uniqueName_of_free (h : r.contains base = false) : r.uniqueName base = base := by
  simp [uniqueName, h]

/-- The number that a taken name gets is bounded by the number of definitions. -/
theorem exists_suffix (h : r.contains base = true) :
    ∃ n, IsLeast {n | 2 ≤ n ∧ r.contains (base ++ toString n) = false} n ∧ n ≤ r.size + 1 ∧
      r.uniqueName base = base ++ toString n := by
  obtain ⟨name, hmem, hfree⟩ := exists_free r base
  have hne : name ≠ base := by
    rintro rfl
    rw [h] at hfree
    cases hfree
  have hsome : ((r.suffixed base).find? (!r.contains ·)).isSome = true := by
    rw [List.find?_isSome]
    exact ⟨name, (List.mem_cons.mp hmem).resolve_left hne, by simp [hfree]⟩
  obtain ⟨found, hfound⟩ := Option.isSome_iff_exists.mp hsome
  have hunique : r.uniqueName base = found := by simp [uniqueName, h, hfound]
  rw [suffixed, List.find?_map] at hfound
  obtain ⟨i, hi, rfl⟩ := Option.map_eq_some_iff.mp hfound
  obtain ⟨hifree, hlt, hleast⟩ := List.find?_range_eq_some.mp hi
  refine ⟨i + 2, ⟨⟨by omega, by simpa using hifree⟩, fun n hn => ?_⟩, ?_, hunique⟩
  · obtain ⟨htwo, hnfree⟩ := hn
    by_contra hless
    have htaken : (!!r.contains (base ++ toString (n - 2 + 2))) = true :=
      hleast (n - 2) (by omega)
    have hn : n - 2 + 2 = n := by omega
    rw [hn, hnfree] at htaken
    cases htaken
  · have := List.mem_range.mp hlt
    omega

example : ((empty.define "Bar" .emptyMapping).define "Bar2" .emptyMapping).uniqueName "Bar" =
    "Bar3" := by decide

/-- A counter that can count one beyond the definitions does not run out. -/
theorem search?_eq_some (h : r.contains base = true) {last : Nat} (hlast : r.size < last) :
    r.search? base last = some (r.uniqueName base) := by
  obtain ⟨n, ⟨⟨htwo, hfree⟩, hleast⟩, hle, he⟩ := exists_suffix h
  have hfind : (List.range' 2 (last - 1)).find? (fun n => !r.contains (base ++ toString n)) =
      some n := by
    rw [List.find?_range'_eq_some]
    refine ⟨by rw [hfree]; rfl, ?_, fun j hj hjn => ?_⟩
    · rw [List.mem_range'_1]
      omega
    · by_contra hjfree
      have := hleast ⟨hj, by simpa using hjfree⟩
      omega
  rw [search?, List.find?_map, he]
  change Option.map _ ((List.range' 2 (last - 1)).find? fun n => !r.contains (base ++ toString n)) = _
  rw [hfind, Option.map_some]

/-! ## Requests in sequence -/

inductive Request where
  | reserve (base : String)
  | define (name : String) (body : Node)
  | uniqueName (base : String)

/-- The registry after a request. -/
def Request.after (r : Registry) : Request → Registry
  | .reserve base => (r.reserve base).2
  | .define name body => r.define name body
  | .uniqueName _ => r

def after (r : Registry) (requests : List Request) : Registry := requests.foldl Request.after r

/-- The names that are reserved by the requests, in their order. -/
def reserved (r : Registry) : List Request → List String
  | [] => []
  | .reserve base :: requests => (r.reserve base).1 :: reserved (r.reserve base).2 requests
  | request :: requests => reserved (request.after r) requests

/-- The names that the requests define. -/
def defined (requests : List Request) : List String :=
  requests.filterMap fun
    | .define name _ => some name
    | _ => none

theorem contains_define (r : Registry) (name : String) (body : Node) (x : String) :
    (r.define name body).contains x = (x == name || r.contains x) := by
  rw [contains, get?_define]
  by_cases h : x = name <;> simp [h, contains]

theorem contains_reserve (r : Registry) (base x : String) :
    (r.reserve base).2.contains x = (x == (r.reserve base).1 || r.contains x) :=
  contains_define ..

/-- No request takes a name away. -/
theorem Request.contains_after {name : String} (h : r.contains name = true) (request : Request) :
    (request.after r).contains name = true := by
  cases request with
  | reserve base => rw [Request.after, contains_reserve, h, Bool.or_true]
  | define x body => rw [Request.after, contains_define, h, Bool.or_true]
  | uniqueName base => exact h

theorem contains_after {name : String} (h : r.contains name = true) (requests : List Request) :
    (r.after requests).contains name = true := by
  induction requests generalizing r with
  | nil => exact h
  | cons request requests ih => exact ih (request.contains_after h)

theorem contains_of_mem_defined {name : String} {requests : List Request}
    (h : name ∈ defined requests) (r : Registry) : (r.after requests).contains name = true := by
  induction requests generalizing r with
  | nil => cases h
  | cons request requests ih =>
    cases request with
    | reserve base => exact ih h _
    | uniqueName base => exact ih h _
    | define x body =>
      rcases List.mem_cons.mp h with rfl | h
      · exact contains_after (by simp [Request.after, contains_define]) requests
      · exact ih h _

theorem contains_of_mem_reserved {name : String} {requests : List Request}
    (h : name ∈ r.reserved requests) : (r.after requests).contains name = true := by
  induction requests generalizing r with
  | nil => cases h
  | cons request requests ih =>
    cases request with
    | define x body => exact ih h
    | uniqueName base => exact ih h
    | reserve base =>
      rcases List.mem_cons.mp h with rfl | h
      · exact contains_after (by simp [Request.after, contains_reserve]) requests
      · exact ih h

/-- What the requests reserve was free before all of them. -/
theorem free_of_mem_reserved {name : String} {requests : List Request}
    (h : name ∈ r.reserved requests) : r.contains name = false := by
  induction requests generalizing r with
  | nil => cases h
  | cons request requests ih =>
    have hrest (h : name ∈ (request.after r).reserved requests) : r.contains name = false := by
      by_contra hcontains
      have hstill := request.contains_after (Bool.eq_true_of_not_eq_false hcontains)
      rw [ih h] at hstill
      cases hstill
    cases request with
    | define x body => exact hrest h
    | uniqueName base => exact hrest h
    | reserve base =>
      rcases List.mem_cons.mp h with rfl | h
      · exact uniqueName_free r base
      · exact hrest h

theorem nodup_reserved (r : Registry) (requests : List Request) : (r.reserved requests).Nodup := by
  induction requests generalizing r with
  | nil => exact List.nodup_nil
  | cons request requests ih =>
    cases request with
    | define x body => exact ih _
    | uniqueName base => exact ih r
    | reserve base =>
      refine List.nodup_cons.mpr ⟨fun h => ?_, ih _⟩
      have hfree := free_of_mem_reserved h
      simp [contains_reserve] at hfree

/-- A free name is the text itself, or else the text with the least number from 2 on that makes it
free, which a counter finds that can count one beyond the definitions. Reserving adds the free name,
with an empty body, and nothing else. After any requests, and in any order of them, what is reserved
is a name that was neither in the registry before them nor defined or reserved by one of them. -/
theorem names_distinct (r : Registry) :
    (∀ base, r.contains (r.uniqueName base) = false ∧
      (r.contains base = false → r.uniqueName base = base) ∧
      (r.contains base = true →
        (∃ n, IsLeast {n | 2 ≤ n ∧ r.contains (base ++ toString n) = false} n ∧ n ≤ r.size + 1 ∧
          r.uniqueName base = base ++ toString n) ∧
        ∀ last, r.size < last → r.search? base last = some (r.uniqueName base))) ∧
    (∀ base, (r.reserve base).1 = r.uniqueName base ∧ (r.reserve base).2.size = r.size + 1 ∧
      ∀ name, (r.reserve base).2.get? name =
        if name = r.uniqueName base then some Node.emptyMapping else r.get? name) ∧
    (∀ requests, (r.reserved requests).Nodup) ∧
    ∀ requests base,
      let name := ((r.after requests).reserve base).1
      r.contains name = false ∧ name ∉ defined requests ∧ name ∉ r.reserved requests := by
  refine ⟨fun base => ⟨uniqueName_free r base, uniqueName_of_free, fun h => ⟨exists_suffix h,
    fun last hlast => search?_eq_some h hlast⟩⟩, fun base => ⟨rfl, ?_, get?_reserve r base⟩,
    nodup_reserved r, fun requests base => ?_⟩
  · exact Entries.length_insertSorted (reserve_free r base) Node.emptyMapping
  · have hfree : ∀ {x}, (r.after requests).contains x = true →
        ((r.after requests).reserve base).1 ≠ x := by
      rintro _ hcontains rfl
      exact Bool.false_ne_true ((uniqueName_free (r.after requests) base).symm.trans hcontains)
    refine ⟨?_, fun h => hfree (contains_of_mem_defined h r) rfl,
      fun h => hfree (contains_of_mem_reserved h) rfl⟩
    by_contra hcontains
    exact hfree (contains_after (Bool.eq_true_of_not_eq_false hcontains) requests) rfl

end Registry
end InlineSchema
