import InlineSchema.Proofs.Document
import InlineSchema.Proofs.Exposed

/-! # What an extraction leaves to a second one

The places of definitions and payloads are reached by changing the values of keys, and what holds of
the change of a value holds of the whole.
-/
namespace InlineSchema.Extraction
open Registry

variable {o : Options}

/-! ## The places of payloads -/

def AtChild (key : String) (P : Node → Prop) (n : Node) : Prop := ∀ v, n.get? key = some v → P v

def AtEntries (P : String → Node → Prop) (n : Node) : Prop :=
  ∀ m, n.entries? = some m → ∀ p ∈ m, P p.1 p.2

def AtContent (P : Node → Prop) (n : Node) : Prop :=
  n.isReference = false → AtChild "content" (AtEntries fun _ => AtChild "schema" P) n

def AtOperation (P : Node → Prop) (n : Node) : Prop :=
  (operationName? n).isSome →
    AtChild "responses" (AtEntries fun _ => AtContent P) n ∧ AtChild "requestBody" (AtContent P) n

def AtPayloads (P : Node → Prop) : Node → Prop :=
  AtEntries fun _ => AtEntries fun key op => methods.contains key → AtOperation P op

/-! ## Actions that settle what they find -/

/-- An action that takes no name exactly if `settled` holds of what it finds. It leaves it so, and
the registry settled, exactly if what it finds is `exposed`. -/
structure Settling (f : Node → StateM Registry Node) (exposed settled : Node → Prop) : Prop where
  grows : ∀ n r, Grows r ((f n).run r).2
  fresh_eq_empty_iff : ∀ n r, fresh r ((f n).run r).2 = ∅ ↔ settled n
  settled_iff : ∀ n r, SettledBodies ((f n).run r).2 ∧ settled ((f n).run r).1 ↔
    SettledBodies r ∧ exposed n

theorem settling_walk (base : String) : Settling (walk o base) Exposed Settled where
  grows n r := (walked o base n r).grows
  fresh_eq_empty_iff n r := (walked o base n r).fresh_eq_empty_iff trivial
  settled_iff n r := (walked o base n r).settled_iff trivial

/-- A payload is moved for being an object without a name or a composition. -/
def SettledPayload (n : Node) : Prop :=
  (n.isInlineObject || n.isComposition) = false ∧ Settled n

theorem settling_payload (name : String) : Settling (payload o name) Exposed SettledPayload := by
  constructor
  · intro n r
    rcases walked_payload (o := o) name n r with ⟨-, h, -⟩ | ⟨-, h⟩ <;> exact h.grows
  · intro n r
    rcases walked_payload (o := o) name n r with ⟨hi, h, -⟩ | ⟨hi, h⟩
    · rw [h.fresh_eq_empty_iff trivial, SettledPayload, hi]
      exact iff_of_false id (fun hs => Bool.noConfusion hs.1)
    · rw [h.fresh_eq_empty_iff trivial]
      exact (and_iff_right hi).symm
  · intro n r
    rcases walked_payload (o := o) name n r with ⟨-, h, he⟩ | ⟨hi, h⟩
    · have hreference : SettledPayload ((payload o name n).run r).1 := by
        rw [he]
        exact ⟨rfl, settled_reference _⟩
      exact (and_congr_right fun _ => iff_of_true hreference trivial).trans (h.settled_iff trivial)
    · have hagree : AgreeOutside Site.all n ((payload o name n).run r).1 := h.agreeOutside
      have hi' : (((payload o name n).run r).1.isInlineObject ||
          ((payload o name n).run r).1.isComposition) = false := by
        rw [hagree.isInlineObject, hagree.isComposition]
        exact hi
      exact (and_congr_right fun _ => and_iff_right hi').trans (h.settled_iff trivial)

variable {key : String} {f : Node → StateM Registry Node} {exposed settled : Node → Prop}

theorem Settling.onChild (hf : Settling f exposed settled) :
    Settling (Node.onChild key f) (AtChild key exposed) (AtChild key settled) := by
  have hsome {P : Node → Prop} {n v : Node} (hv : n.get? key = some v) : AtChild key P n ↔ P v := by
    constructor
    · exact fun h => h v hv
    · intro h w hw
      rw [hv] at hw
      cases hw
      exact h
  have hnone {P : Node → Prop} {n : Node} (hv : n.get? key = none) : AtChild key P n := by
    intro w hw
    rw [hv] at hw
    cases hw
  constructor
  · intro n r
    cases hv : n.get? key with
    | none =>
      rw [onChild_of_get?_eq_none hv]
      exact Grows.refl r
    | some v =>
      rw [(get?_onChild hv r).2]
      exact hf.grows v r
  · intro n r
    cases hv : n.get? key with
    | none =>
      rw [onChild_of_get?_eq_none hv]
      exact iff_of_true (fresh_refl r) (hnone hv)
    | some v =>
      rw [(get?_onChild hv r).2, hsome hv]
      exact hf.fresh_eq_empty_iff v r
  · intro n r
    cases hv : n.get? key with
    | none =>
      rw [onChild_of_get?_eq_none hv]
      exact and_congr_right fun _ => iff_of_true (hnone hv) (hnone hv)
    | some v =>
      obtain ⟨hvalue, hregistry⟩ := get?_onChild (f := f) hv r
      rw [hregistry, hsome hvalue, hsome hv]
      exact hf.settled_iff v r

theorem atEntries_mapping {P : String → Node → Prop} {m : Entries Node} :
    AtEntries P (.mapping m) ↔ ∀ p ∈ m, P p.1 p.2 := by
  constructor
  · exact fun h => h m rfl
  · intro h m' hm
    cases hm
    exact h

theorem atEntries_of_none {P : String → Node → Prop} {n : Node} (h : n.entries? = none) :
    AtEntries P n := by
  intro m hm
  rw [h] at hm
  cases hm

theorem Settling.onEntries {f : String → Node → StateM Registry Node}
    {exposed settled : String → Node → Prop} (hf : ∀ k, Settling (f k) (exposed k) (settled k)) :
    Settling (Node.onEntries f) (AtEntries exposed) (AtEntries settled) := by
  -- The run over the entries, one after the other.
  have hentries (m : Entries Node) (r : Registry) :
      let x := changed f m r
      Grows r x.2 ∧ (fresh r x.2 = ∅ ↔ ∀ p ∈ m, settled p.1 p.2) ∧
        (SettledBodies x.2 ∧ (∀ p ∈ x.1, settled p.1 p.2) ↔
          SettledBodies r ∧ ∀ p ∈ m, exposed p.1 p.2) := by
    induction m generalizing r with
    | nil =>
      refine ⟨Grows.refl r, iff_of_true (fresh_refl r) (List.forall_mem_nil _), ?_⟩
      exact and_congr_right fun _ => iff_of_true (List.forall_mem_nil _) (List.forall_mem_nil _)
    | cons p m ih =>
      obtain ⟨k, v⟩ := p
      intro x
      obtain ⟨hgrows, hfresh, hsettled⟩ := ih ((f k v).run r).2
      have hhead := (hf k).grows v r
      refine ⟨hhead.trans hgrows, ?_, ?_⟩
      · rw [List.forall_mem_cons, ← (hf k).fresh_eq_empty_iff v r, ← hfresh]
        exact fresh_trans_eq_empty hhead hgrows
      · have htrans := settledBodies_trans ((hf k).settled_iff v r) hsettled
        rw [List.forall_mem_cons]
        refine Iff.trans ?_ htrans
        exact and_congr_right fun _ => List.forall_mem_cons
  constructor
  · intro n r
    cases n with
    | scalar | sequence => exact Grows.refl r
    | mapping m =>
      rw [run_onEntries]
      exact (hentries m r).1
  · intro n r
    cases n with
    | scalar | sequence => exact iff_of_true (fresh_refl r) (atEntries_of_none rfl)
    | mapping m =>
      rw [atEntries_mapping, run_onEntries]
      exact (hentries m r).2.1
  · intro n r
    cases n with
    | scalar | sequence =>
      exact and_congr_right fun _ => iff_of_true (atEntries_of_none rfl) (atEntries_of_none rfl)
    | mapping m =>
      rw [atEntries_mapping, run_onEntries]
      refine Iff.trans ?_ (hentries m r).2.2
      exact and_congr_right fun _ => atEntries_mapping

/-- An action that leaves some nodes alone, and tells the others from them before and after. -/
theorem settling_when {p : Node → Prop} {g : Node → StateM Registry Node}
    (hskip : ∀ n, ¬p n → g n = pure n)
    (hact : ∀ n, p n → ∃ f, Settling f exposed settled ∧ g n = f n ∧ ∀ r, p ((f n).run r).1) :
    Settling g (fun n => p n → exposed n) (fun n => p n → settled n) := by
  constructor
  · intro n r
    by_cases hn : p n
    · obtain ⟨f, hf, he, -⟩ := hact n hn
      rw [he]
      exact hf.grows n r
    · rw [hskip n hn]
      exact Grows.refl r
  · intro n r
    by_cases hn : p n
    · obtain ⟨f, hf, he, -⟩ := hact n hn
      rw [he, forall_prop_of_true hn]
      exact hf.fresh_eq_empty_iff n r
    · rw [hskip n hn]
      exact iff_of_true (fresh_refl r) fun h => absurd h hn
  · intro n r
    by_cases hn : p n
    · obtain ⟨f, hf, he, hp⟩ := hact n hn
      rw [he, forall_prop_of_true hn, forall_prop_of_true (hp r)]
      exact hf.settled_iff n r
    · rw [hskip n hn]
      exact and_congr_right fun _ => iff_of_true (fun h => absurd h hn) fun h => absurd h hn

/-- Two changes of different keys. -/
theorem Settling.onChild_onChild (key₁ key₂ : String) (hne : key₁ ≠ key₂)
    {f₁ f₂ : Node → StateM Registry Node} {exposed₁ settled₁ exposed₂ settled₂ : Node → Prop}
    (h₁ : Settling f₁ exposed₁ settled₁) (h₂ : Settling f₂ exposed₂ settled₂) :
    Settling (fun n => n.onChild key₁ f₁ >>= Node.onChild key₂ f₂)
      (fun n => AtChild key₁ exposed₁ n ∧ AtChild key₂ exposed₂ n)
      (fun n => AtChild key₁ settled₁ n ∧ AtChild key₂ settled₂ n) := by
  have h₁ : Settling (Node.onChild key₁ f₁) (AtChild key₁ exposed₁) (AtChild key₁ settled₁) :=
    h₁.onChild
  have h₂ : Settling (Node.onChild key₂ f₂) (AtChild key₂ exposed₂) (AtChild key₂ settled₂) :=
    h₂.onChild
  have hsecond {P : Node → Prop} (n : Node) (r : Registry) :
      AtChild key₂ P ((n.onChild key₁ f₁).run r).1 ↔ AtChild key₂ P n := by
    rw [AtChild, AtChild, get?_onChild_of_ne (Ne.symm hne)]
  have hfirst {P : Node → Prop} (n : Node) (r : Registry) :
      AtChild key₁ P ((n.onChild key₂ f₂).run r).1 ↔ AtChild key₁ P n := by
    rw [AtChild, AtChild, get?_onChild_of_ne hne]
  constructor
  · intro n r
    exact (h₁.grows n r).trans (h₂.grows _ _)
  · intro n r
    rw [run_bind, fresh_trans_eq_empty (h₁.grows n r) (h₂.grows _ _), h₁.fresh_eq_empty_iff,
      h₂.fresh_eq_empty_iff, hsecond]
  · intro n r
    rw [run_bind, hfirst]
    refine settledBodies_trans (h₁.settled_iff n r) ?_
    rw [h₂.settled_iff, hsecond]

theorem settling_content (name : String) :
    Settling (content o name) (AtContent Exposed) (AtContent SettledPayload) := by
  have htypes : Settling (Node.onEntries fun _ media =>
      media.onChild "schema" (payload o name)) (AtEntries fun _ => AtChild "schema" Exposed)
      (AtEntries fun _ => AtChild "schema" SettledPayload) :=
    .onEntries fun _ => (settling_payload name).onChild
  refine settling_when (p := fun n => n.isReference = false) (fun n hn => ?_) fun n hn => ?_
  · rw [content, if_pos (Bool.eq_true_of_not_eq_false hn)]
  · refine ⟨_, htypes.onChild, ?_, fun r => ?_⟩
    · rw [content, hn, if_neg Bool.false_ne_true]
    · rw [Node.isReference, get?_onChild_of_ne (by decide)]
      exact hn

theorem settling_operation :
    Settling (operation o) (AtOperation Exposed) (AtOperation SettledPayload) := by
  refine settling_when (p := fun n => (operationName? n).isSome) (fun n hn => ?_) fun n hn => ?_
  · rw [operation, Option.not_isSome_iff_eq_none.mp hn]
  · obtain ⟨name, hname⟩ := Option.isSome_iff_exists.mp hn
    have hboth := Settling.onChild_onChild "responses" "requestBody" (by decide)
      (.onEntries fun status => settling_content (o := o) (responseName name status))
      (settling_content (o := o) (requestName name))
    refine ⟨_, hboth, ?_, fun r => ?_⟩
    · rw [operation, hname]
    · -- Neither change touches the identifier of the operation.
      rw [operationName?, run_bind, get?_onChild_of_ne (by decide), get?_onChild_of_ne (by decide)]
      exact hn

theorem settling_pathItems :
    Settling (pathItems o) (AtPayloads Exposed) (AtPayloads SettledPayload) := by
  refine .onEntries fun _ => .onEntries fun key => ?_
  refine settling_when (p := fun _ => methods.contains key) (fun n hn => ?_) fun n hn => ?_
  · exact if_neg hn
  · exact ⟨operation o, settling_operation, if_pos hn, fun _ => hn⟩

theorem settling_paths :
    Settling (paths o) (AtChild "paths" (AtPayloads Exposed))
      (AtChild "paths" (AtPayloads SettledPayload)) := settling_pathItems.onChild

theorem settling_definitions :
    Settling (Node.onEntries (walk o)) (AtEntries fun _ => Exposed) (AtEntries fun _ => Settled) :=
  .onEntries settling_walk

end InlineSchema.Extraction
