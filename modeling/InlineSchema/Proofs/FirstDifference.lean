import InlineSchema.Proofs.Difference
import InlineSchema.Proofs.Path
import InlineSchema.Proofs.References

/-! # Where the first difference is

The search finds no difference exactly if the two values are the same up to the order of entries.
What it finds otherwise stands at a pointer that can be read again: it leads to two places that do
differ, and everything that is compared before them is the same on both sides.
-/
namespace InlineSchema

namespace Entries
variable {α β : Type}

/-- If the keys of one mapping are keys of another that is no longer, they have the same keys. -/
theorem mem_keys_iff_of_subset {a : Entries α} {b : Entries β} (ha : (keys a).Nodup)
    (hsub : keys a ⊆ keys b) (hl : b.length ≤ a.length) (k : String) :
    k ∈ keys a ↔ k ∈ keys b := by
  have hsubperm := List.subperm_of_subset ha hsub
  have hlength : (keys b).length ≤ (keys a).length := by simpa [keys] using hl
  exact (hsubperm.perm_of_length_le hlength).mem_iff

theorem length_eq_of_mem_keys_iff {a : Entries α} {b : Entries β} (ha : (keys a).Nodup)
    (hb : (keys b).Nodup) (h : ∀ k, k ∈ keys a ↔ k ∈ keys b) : a.length = b.length := by
  have hperm := (List.perm_ext_iff_of_nodup ha hb).mpr h
  simpa [keys] using hperm.length_eq

end Entries

/-! ## Pointers to places -/

namespace Pointer

/-- A part without slashes stays together. -/
theorem splitChars_append {part tail : List Char} {parts : List (List Char)} (h : '/' ∉ part)
    (ht : splitChars tail = [] :: parts) : splitChars (part ++ tail) = part :: parts := by
  induction part with
  | nil => exact ht
  | cons c cs ih =>
    obtain ⟨hc, hcs⟩ := List.ne_and_not_mem_of_not_mem_cons h
    rw [List.cons_append, splitChars, ih hcs]
    exact fun hne => hc hne.symm

theorem splitChars_flatMap {parts : List (List Char)} (h : ∀ part ∈ parts, '/' ∉ part) :
    splitChars (parts.flatMap ('/' :: ·)) = [] :: parts := by
  induction parts with
  | nil => rfl
  | cons part parts ih =>
    obtain ⟨hpart, hparts⟩ := List.forall_mem_cons.mp h
    simp [splitChars, splitChars_append hpart (ih hparts)]

theorem unescape_escape (segment : String) : unescape (escape segment) = segment := by
  simp [unescape, escape, unescapeChars_escapeChars]

theorem slash_not_mem_escape (segment : String) : '/' ∉ (escape segment).toList := by
  simpa [escape] using slash_not_mem_escapeChars segment.toList

end Pointer

def Step.segment : Step → String
  | .key k => Pointer.escape k
  | .index i => toString i

def pointer : List Step → String
  | [] => ""
  | step :: path => "/" ++ step.segment ++ pointer path

theorem Step.slash_not_mem_segment (step : Step) : '/' ∉ step.segment.toList := by
  cases step with
  | key k => exact Pointer.slash_not_mem_escape k
  | index i =>
    intro h
    rw [segment, Nat.toString_eq_ofList_toDigits, String.toList_ofList] at h
    have hdigit : '/'.isDigit = true := Nat.isDigit_of_mem_toDigits (by decide) (by decide) h
    exact absurd hdigit (by decide)

theorem toList_pointer (path : List Step) :
    (pointer path).toList = (path.map (·.segment.toList)).flatMap ('/' :: ·) := by
  induction path with
  | nil => rfl
  | cons step path ih => simp [pointer, ih]

namespace Json

/-- The value that a segment of a pointer leads to: in an object the segment is a key with escapes,
in an array an index in decimal. -/
def point? : Json → String → Option Json
  | .object m, segment => Entries.get? m (Pointer.unescape segment)
  | .array xs, segment => segment.toNat?.bind (xs[·]?)
  | .scalar _, _ => none

/-- The value that a pointer leads to. -/
def atPointer? (v : Json) (text : String) : Option Json :=
  match Pointer.splitChars text.toList with
  | [] :: segments => (segments.map String.ofList).foldlM point? v
  | _ => none

theorem point?_segment {v w : Json} {step : Step} (h : v.child? step = some w) :
    v.point? step.segment = some w := by
  cases v with
  | scalar => cases h
  | array xs =>
    cases step with
    | key => cases h
    | index i => simpa [point?, Step.segment, child?] using h
  | object m =>
    cases step with
    | key k => simpa [point?, Step.segment, child?, Pointer.unescape_escape] using h
    | index => cases h

/-- The pointer of a path leads to the end of the path. -/
theorem atPointer?_pointer {v w : Json} {path : List Step} (h : v.follow path = some w) :
    v.atPointer? (pointer path) = some w := by
  have hsplit : Pointer.splitChars (pointer path).toList = [] :: path.map (·.segment.toList) := by
    rw [toList_pointer]
    apply Pointer.splitChars_flatMap
    simp [Step.slash_not_mem_segment]
  rw [atPointer?, hsplit]
  clear hsplit
  induction path generalizing v with
  | nil => exact h
  | cons step path ih =>
    rw [follow_cons] at h
    obtain ⟨u, hu, h⟩ := Option.bind_eq_some_iff.mp h
    simpa [point?_segment hu] using ih h

/-! ## Equality -/

theorem sameItems_iff (xs ys : List Json) :
    sameItems xs ys = true ↔ xs.length = ys.length ∧ ∀ p ∈ xs.zip ys, p.1.same p.2 = true := by
  induction xs generalizing ys with
  | nil => cases ys <;> simp [sameItems]
  | cons x xs ih =>
    cases ys with
    | nil => simp [sameItems]
    | cons y ys =>
      simp only [sameItems, Bool.and_eq_true, ih, List.zip_cons_cons, List.forall_mem_cons,
        List.length_cons, Nat.succ_inj]
      exact and_left_comm

theorem sameEntries_iff (a b : Entries Json) :
    sameEntries a b = true ↔ ∀ p ∈ a, ∃ w, Entries.get? b p.1 = some w ∧ p.2.same w = true := by
  induction a with
  | nil => simp [sameEntries]
  | cons p a ih =>
    obtain ⟨k, v⟩ := p
    simp only [sameEntries, Bool.and_eq_true, ih, List.forall_mem_cons]
    refine and_congr_left fun _ => ?_
    cases Entries.get? b k <;> simp

end Json

namespace Equivalence

/-- Values are alike if they are the same up to the order of entries. -/
theorem alike_iff_same {a b : Json} (ha : a.Distinct) (hb : b.Distinct) :
    Alike a b ↔ a.same b = true := by
  induction ha generalizing b with
  | scalar s =>
    cases b with
    | scalar t => exact ⟨fun | .scalar h => h, .scalar⟩
    | array => exact ⟨nofun, nofun⟩
    | object => exact ⟨nofun, nofun⟩
  | @array xs _ ih =>
    cases b with
    | scalar => exact ⟨nofun, nofun⟩
    | object => exact ⟨nofun, nofun⟩
    | array ys =>
      have hiff : ∀ p ∈ xs.zip ys, Alike p.1 p.2 ↔ p.1.same p.2 = true := fun p hp =>
        ih p.1 (List.of_mem_zip hp).1 (hb.items p.2 (List.of_mem_zip hp).2)
      rw [Json.same, Json.sameItems_iff]
      constructor
      · rintro (_ | ⟨hl, h⟩)
        exact ⟨hl, fun p hp => (hiff p hp).mp (h p hp)⟩
      · rintro ⟨hl, h⟩
        exact .array hl fun p hp => (hiff p hp).mpr (h p hp)
  | @object m hm _ ih =>
    cases b with
    | scalar => exact ⟨nofun, nofun⟩
    | array => exact ⟨nofun, nofun⟩
    | object m' =>
      have hm' := hb.nodup
      have hiff : ∀ p ∈ m, ∀ w, Entries.get? m' p.1 = some w → (Alike p.2 w ↔ p.2.same w = true) :=
        fun p hp w hw => ih p hp (hb.values _ (Entries.mem_of_get? hw))
      rw [Json.same, Bool.and_eq_true, beq_iff_eq, Json.sameEntries_iff]
      constructor
      · rintro (_ | _ | ⟨hk, h⟩)
        refine ⟨Entries.length_eq_of_mem_keys_iff hm hm' hk, fun p hp => ?_⟩
        have hkey := (hk p.1).mp (List.mem_map_of_mem hp)
        obtain ⟨w, hw⟩ := Option.isSome_iff_exists.mp (Entries.get?_isSome_iff.mpr hkey)
        exact ⟨w, hw, (hiff p hp w hw).mp (h p.1 p.2 w hp hw)⟩
      · rintro ⟨hl, h⟩
        have hsub : Entries.keys m ⊆ Entries.keys m' := by
          intro k hk
          obtain ⟨p, hp, rfl⟩ := List.mem_map.mp hk
          obtain ⟨w, hw, -⟩ := h p hp
          exact Entries.get?_isSome_iff.mp (by simp [hw])
        refine .object (Entries.mem_keys_iff_of_subset hm hsub hl.ge) fun k v w hv hw => ?_
        obtain ⟨w', hw', hsame⟩ := h (k, v) hv
        cases hw.symm.trans hw'
        exact (hiff (k, v) hv w hw).mpr hsame

theorem difference_eq_none_iff_same {a b : Json} (ha : a.Distinct) (hb : b.Distinct)
    (path : String) : difference path a b = none ↔ a.same b = true :=
  (difference_eq_none_iff a b path).trans (alike_iff_same ha hb)

theorem same_eq_false_of_difference {a b : Json} (ha : a.Distinct) (hb : b.Distinct)
    {path : String} {d : Divergence} (h : difference path a b = some d) : a.same b = false := by
  rw [← Bool.not_eq_true, ← difference_eq_none_iff_same ha hb path, h]
  exact Option.some_ne_none d

/-! ## The way to the difference -/

/-- The path leads from two values to `x` in the first and `y` in the second. At each step the
entries or items that come before it in the first value are the same in the second. -/
inductive Leads (x y : Json) : List Step → Json → Json → Prop
  | here : Leads x y [] x y
  | key {before after b : Entries Json} {k : String} {v w : Json} {way : List Step}
      (hbefore : Json.sameEntries before b = true) (hw : Entries.get? b k = some w)
      (h : Leads x y way v w) :
      Leads x y (.key k :: way) (.object (before ++ (k, v) :: after)) (.object b)
  | index {before after before' after' : List Json} {v w : Json} {way : List Step}
      (hbefore : Json.sameItems before before' = true) (hl : after.length = after'.length)
      (h : Leads x y way v w) :
      Leads x y (.index before.length :: way) (.array (before ++ v :: after))
        (.array (before' ++ w :: after'))

variable {x y a b : Json} {way : List Step}

theorem Leads.follow (h : Leads x y way a b) (ha : a.Distinct) :
    a.follow way = some x ∧ b.follow way = some y := by
  induction h with
  | here => exact ⟨rfl, rfl⟩
  | @key before after b k v w way _ hw _ ih =>
    have hmem : (k, v) ∈ before ++ (k, v) :: after := by simp
    obtain ⟨hx, hy⟩ := ih (ha.values _ hmem)
    have hv := Entries.get?_of_mem ha.nodup hmem
    simp only [Json.follow_cons, Json.child?, hv, hw, Option.bind_some]
    exact ⟨hx, hy⟩
  | @index before after before' after' v w way hbefore _ _ ih =>
    have hl := ((Json.sameItems_iff _ _).mp hbefore).1
    obtain ⟨hx, hy⟩ := ih (ha.items v (by simp))
    refine ⟨by simpa [Json.follow_cons, Json.child?] using hx, ?_⟩
    simpa [Json.follow_cons, Json.child?, hl] using hy

/-- The key stands on one side only, and all entries of the first mapping that are compared before
it are the same in the second. -/
def OnlyOn (key : String) (a b : Entries Json) : Side → Prop
  | .original => key ∉ Entries.keys b ∧
      ∃ before v after, a = before ++ (key, v) :: after ∧ Json.sameEntries before b = true
  | .transformed => key ∉ Entries.keys a ∧ key ∈ Entries.keys b ∧ Json.sameEntries a b = true

def Tells (start : String) (a b : Json) : Divergence → Prop
  | .missing path side => ∃ way key m m',
      path = start ++ pointer (way ++ [.key key]) ∧
      Leads (.object m) (.object m') way a b ∧ OnlyOn key m m' side
  | .mismatch path s t => ∃ way x y,
      path = start ++ pointer way ∧ Leads x y way a b ∧ x.same y = false ∧
      (∀ m m', x = .object m → y ≠ .object m') ∧
      (∀ xs ys, x = .array xs → y = .array ys → xs.length ≠ ys.length) ∧
      s = summary x ∧ t = summary y

/-! ## What the search finds -/

theorem differenceItems_eq_some {path : String} {xs ys : List Json} {i : Nat} {d : Divergence}
    (hl : xs.length = ys.length) (h : differenceItems path i xs ys = some d) :
    ∃ before v after before' w after', xs = before ++ v :: after ∧ ys = before' ++ w :: after' ∧
      before.length = before'.length ∧ differenceItems path i before before' = none ∧
      difference (path ++ "/" ++ toString (i + before.length)) v w = some d := by
  induction xs generalizing ys i with
  | nil => simp [differenceItems] at h
  | cons x xs ih =>
    cases ys with
    | nil => cases hl
    | cons y ys =>
      rw [differenceItems] at h
      rcases Option.or_eq_some_iff.mp h with hx | ⟨hx, h⟩
      · exact ⟨[], x, xs, [], y, ys, rfl, rfl, rfl, by simp [differenceItems], hx⟩
      · obtain ⟨before, v, after, before', w, after', rfl, rfl, hb, hnone, hd⟩ :=
          ih (Nat.succ.inj hl) h
        refine ⟨x :: before, v, after, y :: before', w, after', rfl, rfl, by simp [hb], ?_, ?_⟩
        · rw [differenceItems, hx, hnone, Option.or_none]
        · rwa [List.length_cons, ← Nat.add_assoc, Nat.add_right_comm]

theorem differenceEntries_eq_some {path : String} {a b : Entries Json} {d : Divergence}
    (h : differenceEntries path a b = some d) :
    ∃ before k v after, a = before ++ (k, v) :: after ∧ differenceEntries path before b = none ∧
      ((Entries.get? b k = none ∧ d = .missing (childPath path k) .original) ∨
        ∃ w, Entries.get? b k = some w ∧ difference (childPath path k) v w = some d) := by
  induction a with
  | nil => simp [differenceEntries] at h
  | cons p a ih =>
    obtain ⟨k, v⟩ := p
    rw [differenceEntries] at h
    rcases Option.or_eq_some_iff.mp h with hp | ⟨hp, h⟩
    · refine ⟨[], k, v, a, rfl, by simp [differenceEntries], ?_⟩
      cases hw : Entries.get? b k with
      | none => exact .inl ⟨rfl, by simpa [hw, eq_comm] using hp⟩
      | some w => exact .inr ⟨w, rfl, by simpa [hw] using hp⟩
    · obtain ⟨before, k', v', after, rfl, hnone, hd⟩ := ih h
      refine ⟨(k, v) :: before, k', v', after, rfl, ?_, hd⟩
      rw [differenceEntries, hp, hnone, Option.or_none]

theorem sameEntries_of_differenceEntries {path : String} {a b : Entries Json}
    (ha : ∀ p ∈ a, p.2.Distinct) (hb : ∀ p ∈ b, p.2.Distinct)
    (h : differenceEntries path a b = none) : Json.sameEntries a b = true := by
  rw [Json.sameEntries_iff]
  intro p hp
  obtain ⟨w, hw, hd⟩ := (differenceEntries_eq_none_iff path).mp h p hp
  exact ⟨w, hw, (difference_eq_none_iff_same (ha p hp) (hb _ (Entries.mem_of_get? hw)) _).mp hd⟩

theorem sameItems_of_differenceItems {path : String} {xs ys : List Json}
    (hx : ∀ x ∈ xs, x.Distinct) (hy : ∀ y ∈ ys, y.Distinct) (hl : xs.length = ys.length) {i : Nat}
    (h : differenceItems path i xs ys = none) : Json.sameItems xs ys = true := by
  refine (Json.sameItems_iff xs ys).mpr ⟨hl, fun p hp => ?_⟩
  obtain ⟨hpx, hpy⟩ := List.of_mem_zip hp
  obtain ⟨j, hj⟩ := List.getElem?_of_mem hp
  have hd := (differenceItems_eq_none_iff hl path i).mp h j p hj
  exact (difference_eq_none_iff_same (hx _ hpx) (hy _ hpy) _).mp hd

/-- What is told of two values below a step is told of the values that hold them, at the place
above the step. -/
theorem Tells.step {start : String} {v w : Json} {step : Step} {d : Divergence}
    (hlift : ∀ {x y way}, Leads x y way v w → Leads x y (step :: way) a b)
    (h : Tells (start ++ "/" ++ step.segment) v w d) : Tells start a b d := by
  have hpointer : ∀ way, start ++ "/" ++ step.segment ++ pointer way =
      start ++ pointer (step :: way) := fun way => by simp only [pointer, String.append_assoc]
  cases d with
  | missing path side =>
    obtain ⟨way, key, m, m', hpath, hway, honly⟩ := h
    exact ⟨step :: way, key, m, m', hpath.trans (hpointer _), hlift hway, honly⟩
  | mismatch path s t =>
    obtain ⟨way, x, y, hpath, hway, h⟩ := h
    exact ⟨step :: way, x, y, hpath.trans (hpointer _), hlift hway, h⟩

theorem Tells.missing {start : String} {m m' : Entries Json} {key : String} {side : Side}
    (h : OnlyOn key m m' side) :
    Tells start (.object m) (.object m') (.missing (childPath start key) side) := by
  refine ⟨[], key, m, m', ?_, .here, h⟩
  simp [pointer, childPath, Step.segment, String.append_assoc]

/-- Values of different kinds, scalars or arrays of different lengths are told of as they are. -/
theorem Tells.mismatch {start : String} (hne : a.same b = false)
    (hobject : ∀ m m', a = .object m → b ≠ .object m')
    (harray : ∀ xs ys, a = .array xs → b = .array ys → xs.length ≠ ys.length) :
    Tells start a b (.mismatch start (summary a) (summary b)) :=
  ⟨[], a, b, by simp [pointer], .here, hne, hobject, harray, rfl, rfl⟩

/-- The first items that differ tell of the arrays. -/
theorem tells_of_differenceItems {start : String} {xs ys : List Json} {d : Divergence}
    (hx : ∀ x ∈ xs, x.Distinct) (hy : ∀ y ∈ ys, y.Distinct) (hl : xs.length = ys.length)
    (ih : ∀ x ∈ xs, ∀ y ∈ ys, ∀ path, difference path x y = some d → Tells path x y d)
    (h : differenceItems start 0 xs ys = some d) : Tells start (.array xs) (.array ys) d := by
  obtain ⟨before, v, after, before', w, after', rfl, rfl, hl', hnone, hd⟩ :=
    differenceItems_eq_some hl h
  have hbefore := sameItems_of_differenceItems (fun x h => hx x (by simp [h]))
    (fun y h => hy y (by simp [h])) hl' hnone
  have hafter : after.length = after'.length := by
    simp only [List.length_append, List.length_cons] at hl
    omega
  rw [Nat.zero_add] at hd
  exact (ih v (by simp) w (by simp) _ hd).step fun hway => .index hbefore hafter hway

/-- The first entry of a mapping that is missing from the other or differs there tells of both. -/
theorem tells_of_differenceEntries {start : String} {m m' : Entries Json} {d : Divergence}
    (hm : ∀ p ∈ m, p.2.Distinct) (hm' : ∀ p ∈ m', p.2.Distinct)
    (ih : ∀ p ∈ m, ∀ q ∈ m', ∀ path, difference path p.2 q.2 = some d → Tells path p.2 q.2 d)
    (h : differenceEntries start m m' = some d) : Tells start (.object m) (.object m') d := by
  obtain ⟨before, k, v, after, rfl, hnone, hd⟩ := differenceEntries_eq_some h
  have hbefore := sameEntries_of_differenceEntries (fun p h => hm p (by simp [h])) hm' hnone
  rcases hd with ⟨hk, rfl⟩ | ⟨w, hw, hd⟩
  · exact .missing ⟨Entries.get?_eq_none_iff.mp hk, before, v, after, rfl, hbefore⟩
  · exact (ih (k, v) (by simp) _ (Entries.mem_of_get? hw) _ hd).step
      fun hway => .key hbefore hw hway

/-- A key that only the second mapping has is told of when all entries of the first are the same. -/
theorem tells_of_extraKey {start : String} {m m' : Entries Json} {k : String}
    (hm : ∀ p ∈ m, p.2.Distinct) (hm' : ∀ p ∈ m', p.2.Distinct)
    (hnone : differenceEntries start m m' = none) (hk : extraKey? m m' = some k) :
    Tells start (.object m) (.object m') (.missing (childPath start k) .transformed) := by
  refine .missing ⟨?_, List.mem_of_find?_eq_some hk, sameEntries_of_differenceEntries hm hm' hnone⟩
  have hnot := List.find?_some hk
  rw [← Entries.get?_eq_none_iff]
  simpa [Entries.contains] using hnot

/-- Whatever the search finds is so. -/
theorem tells_of_difference {start : String} {d : Divergence} (ha : a.Distinct) (hb : b.Distinct)
    (h : difference start a b = some d) : Tells start a b d := by
  have hne := same_eq_false_of_difference ha hb h
  induction a using Json.induct generalizing b start with
  | scalar s =>
    cases b with
    | scalar t =>
      have hst : ¬ s.same t = true := by simpa [Json.same] using hne
      rw [difference, if_neg hst] at h
      cases h
      exact .mismatch hne (by simp) (by simp)
    | array => cases h; exact .mismatch hne (by simp) (by simp)
    | object => cases h; exact .mismatch hne (by simp) (by simp)
  | array xs ih =>
    cases b with
    | scalar => cases h; exact .mismatch hne (by simp) (by simp)
    | object => cases h; exact .mismatch hne (by simp) (by simp)
    | array ys =>
      have hx := ha.items
      have hy := hb.items
      rw [difference] at h
      split at h
      next hl =>
        refine tells_of_differenceItems hx hy hl (fun x hmem y hmem' path hd => ?_) h
        exact ih x hmem (hx x hmem) (hy y hmem') hd
          (same_eq_false_of_difference (hx x hmem) (hy y hmem') hd)
      next hl =>
        cases h
        refine .mismatch hne (by simp) ?_
        rintro _ _ ⟨rfl⟩ ⟨rfl⟩
        exact hl
  | object m ih =>
    cases b with
    | scalar => cases h; exact .mismatch hne (by simp) (by simp)
    | array => cases h; exact .mismatch hne (by simp) (by simp)
    | object m' =>
      have hm := ha.values
      have hm' := hb.values
      rw [difference] at h
      rcases Option.or_eq_some_iff.mp h with h | ⟨hnone, h⟩
      · refine tells_of_differenceEntries hm hm' (fun p hp q hq path hd => ?_) h
        exact ih p hp (hm p hp) (hm' q hq) hd (same_eq_false_of_difference (hm p hp) (hm' q hq) hd)
      · obtain ⟨k, hk, rfl⟩ := Option.map_eq_some_iff.mp h
        exact tells_of_extraKey hm hm' hnone hk

/-- The search decides equality up to the order of entries, and what it finds is the first
difference. A missing key is missing from one of two mappings that the pointer before it leads to.
A mismatch is between the places that the pointer leads to: unequal values that are not both
mappings and not both arrays of one length. On the way there all that is compared before is the
same. -/
theorem difference_finds_first (start : String) (a b : Json) (ha : a.Distinct) (hb : b.Distinct) :
    (difference start a b = none ↔ a.same b = true) ∧
    (∀ path side, difference start a b = some (.missing path side) →
      ∃ way key m m', path = start ++ pointer (way ++ [.key key]) ∧
        a.atPointer? (pointer way) = some (.object m) ∧
        b.atPointer? (pointer way) = some (.object m') ∧
        OnlyOn key m m' side ∧ Leads (.object m) (.object m') way a b) ∧
    ∀ path s t, difference start a b = some (.mismatch path s t) →
      ∃ way x y, path = start ++ pointer way ∧
        a.atPointer? (pointer way) = some x ∧ b.atPointer? (pointer way) = some y ∧
        x.same y = false ∧ (∀ m m', x = .object m → y ≠ .object m') ∧
        (∀ xs ys, x = .array xs → y = .array ys → xs.length ≠ ys.length) ∧
        s = summary x ∧ t = summary y ∧ Leads x y way a b := by
  refine ⟨difference_eq_none_iff_same ha hb start, fun path side h => ?_, fun path s t h => ?_⟩
  · obtain ⟨way, key, m, m', hpath, hway, honly⟩ := tells_of_difference ha hb h
    obtain ⟨hm, hm'⟩ := hway.follow ha
    exact ⟨way, key, m, m', hpath, Json.atPointer?_pointer hm, Json.atPointer?_pointer hm', honly,
      hway⟩
  · obtain ⟨way, x, y, hpath, hway, hne, hobject, harray, hs, ht⟩ := tells_of_difference ha hb h
    obtain ⟨hx, hy⟩ := hway.follow ha
    exact ⟨way, x, y, hpath, Json.atPointer?_pointer hx, Json.atPointer?_pointer hy, hne, hobject,
      harray, hs, ht, hway⟩

def slashedValue (text : String) : Yaml.Value :=
  .mapping [(.string "a/b", .sequence [.string "0", .mapping [(.string "1", .string "0"),
    (.string "~", .string text)]])]

theorem difference_finds_first_slashedValue :
    (Json.ofValue (slashedValue "x")).Distinct ∧ (Json.ofValue (slashedValue "y")).Distinct ∧
    ∃ way x y, "/paths/a~1b/1/~0" = "/paths" ++ pointer way ∧
      (Json.ofValue (slashedValue "x")).atPointer? (pointer way) = some x ∧
      (Json.ofValue (slashedValue "y")).atPointer? (pointer way) = some y ∧
      x.same y = false ∧ "\"x\"" = summary x ∧ "\"y\"" = summary y := by
  have hx := Json.distinct_ofValue (slashedValue "x")
  have hy := Json.distinct_ofValue (slashedValue "y")
  obtain ⟨way, x, y, hpath, hwx, hwy, hne, -, -, hs, ht, -⟩ :=
    (difference_finds_first "/paths" _ _ hx hy).2.2 "/paths/a~1b/1/~0" "\"x\"" "\"y\"" (by cbv)
  exact ⟨hx, hy, way, x, y, hpath, hwx, hwy, hne, hs, ht⟩

end Equivalence
end InlineSchema
