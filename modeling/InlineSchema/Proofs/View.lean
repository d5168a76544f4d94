import InlineSchema.Proofs.NormalForm
import InlineSchema.Proofs.Path

/-! # What a reader of a document sees

A reader follows references one at a time and only as far as it looks. A reference to a definition
stands for the definition, documentation is not seen, and a composition of one branch is seen as the
branch. Definitions that refer back to themselves can be followed for ever, and where that leads to
nothing else there is no value to see.
-/
namespace InlineSchema.Equivalence

variable {table : Entries Json} {o : Options}

/-- The name of the definition that a mapping refers to, whether or not there is one. -/
def pointed? (o : Options) (m : Entries Json) : Option String :=
  ((Entries.get? m Node.refKey).bind Json.text?).bind o.definitionName?

theorem expansion?_eq_some_iff_pointed {visited : List String} {m : Entries Json} {name : String}
    {body : Json} : expansion? table o visited m = some (name, body) ↔
      pointed? o m = some name ∧ name ∉ visited ∧ Entries.get? table name = some body := by
  rw [expansion?_eq_some_iff, pointed?, Option.bind_eq_some_iff]
  constructor
  · rintro ⟨target, htarget, hname, h⟩
    exact ⟨⟨target, htarget, hname⟩, h⟩
  · rintro ⟨⟨target, htarget, hname⟩, h⟩
    exact ⟨target, htarget, hname, h⟩

/-- A value comes down to another by following references to definitions and by stepping into the
only branch of a composition. The array of branches can stand behind references too. Each value comes
with the answer whether it is a table of properties. -/
inductive ComesDown (table : Entries Json) (o : Options) : Bool → Json → Bool → Json → Prop
  | refl (b : Bool) (v : Json) : ComesDown table o b v b v
  | definition {b c : Bool} {m : Entries Json} {name : String} {body w : Json}
      (hm : expansion? table o [] m = some (name, body)) (h : ComesDown table o b body c w) :
      ComesDown table o b (.object m) c w
  | branch {b c d : Bool} {m : Entries Json} {key : String} {u x w : Json}
      (hm : kept b m = [(key, u)]) (hkey : Node.compositionKeys.contains key = true)
      (hu : ComesDown table o false u d (.array [x])) (h : ComesDown table o false x c w) :
      ComesDown table o b (.object m) c w

/-- The value is neither a reference to a definition nor a composition of one branch. -/
inductive Stands (table : Entries Json) (o : Options) : Bool → Json → Prop
  | scalar (b : Bool) (s : Scalar) : Stands table o b (.scalar s)
  | array (b : Bool) (xs : List Json) : Stands table o b (.array xs)
  | object {b : Bool} {m : Entries Json} (hm : expansion? table o [] m = none)
      (hbranch : ∀ key u d x, kept b m = [(key, u)] → Node.compositionKeys.contains key = true →
        ¬ComesDown table o false u d (.array [x])) : Stands table o b (.object m)

/-- The value is seen as another. -/
def Shows (table : Entries Json) (o : Options) (b : Bool) (v : Json) (c : Bool) (w : Json) : Prop :=
  ComesDown table o b v c w ∧ Stands table o c w

/-- The value behind a key or an index of a value, with the answer whether it is a table of
properties. -/
def child? : Bool → Json → Step → Option (Bool × Json)
  | _, .array xs, .index i => xs[i]?.map (false, ·)
  | b, .object m, .key key =>
    (Entries.get? (kept b m) key).map (!b && key == "properties", ·)
  | _, _, _ => none

/-- A path leads from a value to what is seen at its end. -/
inductive Reaches (table : Entries Json) (o : Options) :
    Bool → Json → List Step → Bool → Json → Prop
  | nil {b c : Bool} {v w : Json} (h : Shows table o b v c w) : Reaches table o b v [] c w
  | cons {b c d e : Bool} {v w x y : Json} {step : Step} {path : List Step}
      (h : Shows table o b v c w) (hx : child? c w step = some (d, x))
      (hpath : Reaches table o d x path e y) : Reaches table o b v (step :: path) e y

/-- The same scalar, arrays of one length, or mappings with the same keys. -/
def Matches : Bool → Json → Bool → Json → Prop
  | _, .scalar s, _, .scalar t => s.same t = true
  | _, .array xs, _, .array ys => xs.length = ys.length
  | b, .object m, c, .object m' =>
    ∀ key, key ∈ Entries.keys (kept b m) ↔ key ∈ Entries.keys (kept c m')
  | _, _, _, _ => False

/-- Two values of two documents cannot be told apart by a reader: along every path both show the same,
or neither shows anything. -/
def LookAlike (o : Options) (original transformed : Entries Json) (v w : Json) : Prop :=
  ∀ path, (∃ b x c y, Reaches original o false v path b x ∧
      Reaches transformed o false w path c y ∧ Matches b x c y) ∨
    (∀ b x, ¬Reaches original o false v path b x) ∧ ∀ c y, ¬Reaches transformed o false w path c y

/-! ## Only one thing is seen -/

theorem compositionKeys_ne {key : String} (h : Node.compositionKeys.contains key = true) :
    key ≠ Node.refKey ∧ key ≠ "properties" := by
  constructor <;>
  · rintro rfl
    exact absurd h (by decide)

/-- A composition has no reference beside its branches. -/
theorem get?_refKey_of_kept {α : Type} {b : Bool} {m : Entries α} {key : String} {u : α}
    (hm : kept b m = [(key, u)]) (hkey : Node.compositionKeys.contains key = true) :
    Entries.get? m Node.refKey = none := by
  have hkept : (b || !documentationKeys.contains Node.refKey) = true := by
    cases b <;> rfl
  rw [← get?_kept hkept, hm, Entries.get?_cons, if_neg (compositionKeys_ne hkey).1.symm,
    Entries.get?_nil]

theorem expansion?_of_kept {b : Bool} {m : Entries Json} {key : String} {u : Json}
    (hm : kept b m = [(key, u)]) (hkey : Node.compositionKeys.contains key = true)
    (visited : List String) : expansion? table o visited m = none := by
  refine expansion?_of_not_hasReference ?_ visited
  rw [hasReference, get?_refKey_of_kept hm hkey]
  rfl

theorem ComesDown.trans {b c d : Bool} {u v w : Json} (h : ComesDown table o b u c v)
    (h' : ComesDown table o c v d w) : ComesDown table o b u d w := by
  induction h with
  | refl => exact h'
  | definition hm _ ih => exact .definition hm (ih h')
  | branch hm hkey hu _ _ ih => exact .branch hm hkey hu (ih h')

theorem Stands.eq_of_comesDown {b c : Bool} {v w : Json} (h : Stands table o b v)
    (hw : ComesDown table o b v c w) : b = c ∧ v = w := by
  cases hw with
  | refl => exact ⟨rfl, rfl⟩
  | definition hm =>
    cases h with
    | object hnone =>
      rw [hnone] at hm
      cases hm
  | branch hm hkey hu =>
    cases h with
    | object _ hbranch => exact absurd hu (hbranch _ _ _ _ hm hkey)

/-- A mapping stands for itself if it is no reference to a definition and keeps no branches. -/
theorem Stands.of_keys {b : Bool} {m : Entries Json} (hm : expansion? table o [] m = none)
    (h : ∀ p ∈ kept b m, Node.compositionKeys.contains p.1 = false) : Stands table o b (.object m) := by
  refine .object hm fun key u _ _ hkept hkey => ?_
  rw [h (key, u) (hkept ▸ List.mem_cons_self)] at hkey
  cases hkey

/-- Of two values that a value comes down to, one comes down to the other. -/
theorem ComesDown.total {b c d : Bool} {u v w : Json} (h : ComesDown table o b u c v)
    (h' : ComesDown table o b u d w) :
    ComesDown table o c v d w ∨ ComesDown table o d w c v := by
  induction h generalizing d w with
  | refl => exact .inl h'
  | definition hm h ih =>
    cases h' with
    | refl => exact .inr (.definition hm h)
    | definition hm' h' =>
      rw [hm] at hm'
      cases hm'
      exact ih h'
    | branch hm' hkey' =>
      rw [expansion?_of_kept hm' hkey'] at hm
      cases hm
  | @branch _ _ _ _ _ _ x _ hm hkey hu h ihu ih =>
    cases h' with
    | refl => exact .inr (.branch hm hkey hu h)
    | definition hm' =>
      rw [expansion?_of_kept hm hkey] at hm'
      cases hm'
    | @branch _ _ _ _ _ _ y _ hm' _ hu' h' =>
      rw [hm] at hm'
      cases hm'
      -- An array stands for itself, so the branch is the same on both ways.
      have heq : Json.array [x] = .array [y] := by
        rcases ihu hu' with harray | harray
        · exact ((Stands.array _ _).eq_of_comesDown harray).2
        · exact ((Stands.array _ _).eq_of_comesDown harray).2.symm
      cases heq
      exact ih h'

theorem Shows.unique {b c d : Bool} {u v w : Json} (h : Shows table o b u c v)
    (h' : Shows table o b u d w) : c = d ∧ v = w := by
  rcases h.1.total h'.1 with hw | hv
  · exact h.2.eq_of_comesDown hw
  · obtain ⟨hb, hv⟩ := h'.2.eq_of_comesDown hv
    exact ⟨hb.symm, hv.symm⟩

/-- A path leads to one thing at most. -/
theorem Reaches.unique {b c d : Bool} {u v w : Json} {path : List Step}
    (h : Reaches table o b u path c v) (h' : Reaches table o b u path d w) : c = d ∧ v = w := by
  induction h with
  | nil h =>
    cases h' with
    | nil h' => exact h.unique h'
  | cons h hx _ ih =>
    cases h' with
    | cons h' hx' hpath' =>
      obtain ⟨rfl, rfl⟩ := h.unique h'
      rw [hx] at hx'
      cases hx'
      exact ih hpath'

end InlineSchema.Equivalence
