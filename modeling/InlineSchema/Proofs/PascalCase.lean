import InlineSchema.Naming.PascalCase
import Mathlib

/-! # Words in Pascal case

A word in Pascal case does not start with a small letter from `a` to `z`.
-/
namespace InlineSchema.Naming

theorem toUpper_isLower (c : Char) (hc : c.toNat < 0x80) : c.toUpper.isLower = false := by
  have h : ∀ n < 0x80, (Char.ofNat n).toUpper.isLower = false := by decide
  have := h c.toNat hc
  rwa [Char.ofNat_toNat] at this

theorem isLower_iff (c : Char) : c.isLower = true ↔ 97 ≤ c.toNat ∧ c.toNat ≤ 122 := by
  simp only [Char.isLower, Bool.and_eq_true, decide_eq_true_eq]
  exact Iff.rfl

/-- No row of the table leads to a small letter. -/
theorem upperShifts_range : ∀ row ∈ upperShifts,
    122 < (row.1 : Int) + row.2.2.2 ∨ (row.2.1 : Int) + row.2.2.2 < 97 := by
  have hall : (upperShifts.all fun row =>
      decide (122 < (row.1 : Int) + row.2.2.2) ||
        decide ((row.2.1 : Int) + row.2.2.2 < 97)) = true := by
    decide +kernel
  intro row hrow
  simpa using List.all_eq_true.mp hall row hrow

theorem upperExpansions_head : ∀ row ∈ upperExpansions,
    ∃ c ∈ (row.2.map Char.ofNat).head?, c.isLower = false := by
  have hall : (upperExpansions.all fun row =>
      (row.2.map Char.ofNat).head?.any (!Char.isLower ·)) = true := by
    decide +kernel
  intro row hrow
  have hhead := List.all_eq_true.mp hall row hrow
  rw [Option.any_eq_true] at hhead
  obtain ⟨c, hc, hlower⟩ := hhead
  exact ⟨c, hc, by simpa using hlower⟩

theorem isLower_ofNat {n : Nat} (h : n < 97 ∨ 122 < n) : (Char.ofNat n).isLower = false := by
  rw [← Bool.not_eq_true, isLower_iff, Char.ofNat]
  split
  next hn =>
    have he : (Char.ofNatAux n hn).toNat = n := by
      simp only [Char.toNat, Char.ofNatAux, UInt32.toNat, BitVec.toNat_ofNatLT]
    rw [he]
    omega
  next => decide

theorem toUppercase_head (c : Char) : ∃ d ∈ (toUppercase c).head?, d.isLower = false := by
  rw [toUppercase]
  split
  next hc => exact ⟨_, rfl, toUpper_isLower c hc⟩
  next hc =>
    rw [mapCase]
    split
    next cs hcs =>
      obtain ⟨l₁, l₂, hl, -⟩ := List.lookup_eq_some_iff.mp hcs
      exact upperExpansions_head (c.toNat, cs) (hl ▸ by simp)
    next =>
      split
      next first last step shift hrow =>
        have hmem := List.mem_of_find?_eq_some hrow
        have hrange := List.find?_some hrow
        simp only [Bool.and_eq_true, decide_eq_true_eq] at hrange
        refine ⟨_, rfl, isLower_ofNat ?_⟩
        rcases upperShifts_range _ hmem with h | h
        · simp only at h
          omega
        · simp only at h
          omega
      next =>
        refine ⟨c, rfl, ?_⟩
        rw [← Bool.not_eq_true, isLower_iff]
        omega

/-- A text in Pascal case is empty or does not start with a small letter. -/
theorem pascalCase_head (text : String) :
    ∀ c ∈ (pascalCase text).toList.head?, c.isLower = false := by
  rw [pascalCase, String.toList_ofList]
  induction words text with
  | nil => exact fun _ h => nomatch h
  | cons word rest ih =>
    rw [List.flatMap_cons]
    cases word with
    | nil => exact ih
    | cons c cs =>
      obtain ⟨d, hd, hlower⟩ := toUppercase_head c
      intro x hx
      have hhead : (capitalize (c :: cs) ++ rest.flatMap capitalize).head? = some d := by
        rw [capitalize, List.append_assoc, List.head?_append, Option.mem_def.mp hd]
        rfl
      rw [hhead] at hx
      cases hx
      exact hlower

end InlineSchema.Naming
