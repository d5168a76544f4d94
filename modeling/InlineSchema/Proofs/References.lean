import InlineSchema.Options
import Mathlib.Data.List.Basic

/-! # References and names

Escaping a name for a pointer loses nothing and leaves no slash, so a reference to a definition
says which definition it is.
-/
namespace InlineSchema

namespace Pointer

theorem unescapeChars_cons_of_ne {c : Char} (h : c ≠ '~') (cs : List Char) :
    unescapeChars (c :: cs) = c :: unescapeChars cs := by
  rw [unescapeChars]
  · rintro _ rfl; exact absurd rfl h
  · rintro _ rfl; exact absurd rfl h

theorem unescapeChars_escapeChars (cs : List Char) : unescapeChars (escapeChars cs) = cs := by
  fun_induction escapeChars cs with
  | case1 => rfl
  | case2 cs ih => rw [unescapeChars, ih]
  | case3 cs ih => rw [unescapeChars, ih]
  | case4 c cs hc _ ih => rw [unescapeChars_cons_of_ne hc, ih]

theorem escapeChars_injective {cs ds : List Char} (h : escapeChars cs = escapeChars ds) :
    cs = ds := by
  rw [← unescapeChars_escapeChars cs, h, unescapeChars_escapeChars]

theorem slash_not_mem_escapeChars (cs : List Char) : '/' ∉ escapeChars cs := by
  fun_induction escapeChars cs with
  | case1 => exact List.not_mem_nil
  | case2 cs ih => simpa using ih
  | case3 cs ih => simpa using ih
  | case4 c cs _ hc ih =>
    intro h
    rcases List.mem_cons.mp h with he | h
    · exact hc he.symm
    · exact ih h

theorem escapeChars_eq_nil {cs : List Char} (h : escapeChars cs = []) : cs = [] :=
  escapeChars_injective h

end Pointer

namespace Options

theorem refTo_injective (o : Options) {a b : String} (h : o.refTo a = o.refTo b) : a = b := by
  have h := String.ofList_injective h
  exact String.toList_injective (Pointer.escapeChars_injective (List.append_cancel_left h))

/-- The reference to a definition names the definition. Nothing refers to the empty name. -/
theorem definitionName?_refTo (o : Options) {name : String} (h : name ≠ "") :
    o.definitionName? (o.refTo name) = some name := by
  have hne : Pointer.escapeChars name.toList ≠ [] := fun he =>
    h (String.toList_injective (Pointer.escapeChars_eq_nil he))
  have hslash : (Pointer.escapeChars name.toList).contains '/' = false := by
    simpa using Pointer.slash_not_mem_escapeChars name.toList
  simp only [definitionName?, refTo, String.toList_ofList, List.drop_left, hslash]
  rw [if_pos, Pointer.unescapeChars_escapeChars, String.ofList_toList]
  simpa [List.isPrefixOf_iff_prefix] using hne

end Options
end InlineSchema
