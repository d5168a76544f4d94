import InlineSchema.Proofs.Accounted
import InlineSchema.Proofs.Marks

/-! # Calls in sequence

Walks and the two parts of an extraction may be run in any order on any trees, with one registry.
No call changes what it finds in the registry. Each definition that it adds is the complete body of
the object in whose place its reference stands, and has no other reference.
-/
namespace InlineSchema.Extraction
open Registry

variable {o : Options}

/-- A call with the tree that is given to it. -/
inductive Call where
  | walk (base : String) (n : Node)
  | schemas (doc : Node)
  | paths (doc : Node)

namespace Call

def tree : Call → Node
  | .walk _ n => n
  | .schemas doc => doc
  | .paths doc => doc

def run (o : Options) (r : Registry) : Call → Node × Registry
  | .walk base n => (Extraction.walk o base n).run r
  | .schemas doc => (Extraction.schemas o doc).run r
  | .paths doc => (Extraction.paths o doc).run r

theorem grows (c : Call) (r : Registry) : Grows r (c.run o r).2 := by
  cases c with
  | walk base n => exact (walked o base n r).grows
  | schemas doc => exact grows_schemas doc r
  | paths doc => exact accounted_paths.grows doc r

/-- The places that are met. -/
def places (o : Options) : Call → List Step → Place → Node → Prop
  | .walk _ n => Comes .definition n
  | .schemas doc => Definitions o doc
  | .paths doc => PayloadPlaces doc

theorem arranged (c : Call) (r : Registry) {R : Registry} (hR : Grows (c.run o r).2 R) :
    Arranged o R (c.places o) c.tree (c.run o r).1 := by
  cases c with
  | walk base n => exact (arranging_walk base n r).2 R hR
  | schemas doc => exact (arranging_schemas doc r).2 R hR
  | paths doc => exact ((arranging_paths doc r).2 R hR).congr fun _ _ _ => underPaths_iff.symm

theorem traced (c : Call) (r : Registry) : ∀ name ∈ fresh r (c.run o r).2,
    Traced o name r (c.run o r).2 fun new x => Marked o new name x c.tree (c.run o r).1 := by
  cases c with
  | walk base n => exact (tracing_walk base n r).2
  | schemas doc => exact (tracing_schemas doc r).2
  | paths doc => exact (tracing_paths doc r).2

theorem balanced (c : Call) (r : Registry) :
    Balanced o r (c.run o r).2 c.tree.references (c.run o r).1.references := by
  cases c with
  | walk base n => exact (walked o base n r).balanced
  | schemas doc => exact balanced_schemas doc r
  | paths doc => exact accounted_paths.balanced doc r

end Call

/-- The registry after calls in sequence. -/
def afterCalls (o : Options) (r : Registry) (calls : List Call) : Registry :=
  calls.foldl (fun r c => (c.run o r).2) r

theorem grows_afterCalls (r : Registry) (calls : List Call) : Grows r (afterCalls o r calls) := by
  induction calls generalizing r with
  | nil => exact Grows.refl r
  | cons c calls ih => exact (c.grows r).trans (ih _)

theorem Balanced.length_eq {r r' : Registry} {found left : List String}
    (h : Balanced o r r' found left) :
    left.length + ((added r r').map fun p => p.2.references.length).sum =
      found.length + (added r r').length := by
  have hlength := List.Perm.length_eq h
  rwa [List.length_append, List.length_append, List.length_map, List.length_flatMap] at hlength

/-- Between any calls before it and after it, a call keeps all definitions that are there, and those
that it adds are kept. At each place that it meets it leaves what its kind tells: where an object
was moved, the reference to a definition that has the body of this very object. Of the definitions
that it adds none is empty. Where the reference to one stands, an object stood, and the body is what
a walk under the name leaves of that object, with what is left at the places inside it. The
references in the tree and in the new bodies are those that the call was given, and one to each new
definition. -/
theorem calls_append_only (o : Options) (r₀ : Registry) (before : List Call) (c : Call)
    (after : List Call) :
    let r := afterCalls o r₀ before
    let left := (c.run o r).1
    let r' := (c.run o r).2
    let R := afterCalls o r' after
    Grows r r' ∧ Grows r' R ∧ Arranged o R (c.places o) c.tree left ∧
      (∀ p ∈ added r r', p.2 ≠ Node.emptyMapping ∧
        ∃ x, Marked o (added r r') p.1 x c.tree left ∧ Minted o x p.1 p.2 ∧ Copied o R p.1 x) ∧
      (left.references ++ (added r r').flatMap fun p => p.2.references).Perm
        (c.tree.references ++ (added r r').map fun p => o.refTo p.1) ∧
      left.references.length + ((added r r').map fun p => p.2.references.length).sum =
        c.tree.references.length + (added r r').length := by
  intro r left r' R
  have hlater : Grows r' R := grows_afterCalls r' after
  refine ⟨c.grows r, hlater, c.arranged r hlater, fun p hp => ?_, c.balanced r,
    (c.balanced r).length_eq⟩
  obtain ⟨hnone, hsome⟩ := mem_added.mp hp
  have hnew : r'.get? p.1 ≠ none := Option.ne_none_iff_exists'.mpr ⟨p.2, hsome⟩
  obtain ⟨x, hmints, hmarked⟩ := c.traced r p.1 ⟨hnone, hnew⟩
  have hplace := hmarked _ (List.Subset.refl _)
  have hbody := hmints.minted hsome
  exact ⟨(hbody.ne_emptyMapping hplace.movedFrom.2).2, x, hplace, hbody, hmints.copied hlater⟩

end InlineSchema.Extraction
