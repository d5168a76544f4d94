import Mathlib
import InlineSchema.Proofs.Frame

/-! # Edits at the end of a chain of keys

An edit goes down a chain of mapping keys and changes the node that a lookup finds there. Chains
through that place then lead into what was put, and everything beside the place is as it was: the
values, the keys of the mappings and their order. A value that is put back restores the tree.
-/
namespace InlineSchema.Node

variable {n n' v v' x old : Node} {path : List String} {key : String} {m : Entries Node}
  {f : Node → Node}

/-! ## Changes and lookups -/

/-- A change is made exactly where a lookup leads. -/
theorem isSome_modifyAt? (n : Node) (f : Node → Node) (path : List String) :
    (n.modifyAt? f path).isSome = (n.lookup path).isSome := by
  induction path generalizing n with
  | nil => rfl
  | cons key path ih =>
    cases n with
    | scalar | sequence => rfl
    | mapping m =>
      rw [Extraction.lookup_cons, get?_mapping, modifyAt?]
      cases Entries.get? m key with
      | none => rfl
      | some child => exact Option.isSome_map.trans (ih child)

/-- A change further down is a change of the node on the way. -/
theorem modifyAt?_append (h : n.lookup path = some v) {rest : List String}
    (hv : v.modifyAt? f rest = some v') :
    n.modifyAt? f (path ++ rest) = n.modifyAt? (fun _ => v') path := by
  induction path generalizing n with
  | nil =>
    cases h
    exact hv
  | cons key path ih =>
    obtain ⟨m, child, rfl, hc, h⟩ := lookup_cons_eq_some h
    simp only [List.cons_append, modifyAt?, hc, ih h]

/-- What a change is given is the node that a lookup finds. -/
theorem modifyAt?_of_lookup (h : n.lookup path = some v) (f : Node → Node) :
    n.modifyAt? f path = n.modifyAt? (fun _ => f v) path := by
  have happend : n.modifyAt? f (path ++ []) = n.modifyAt? (fun _ => f v) path :=
    modifyAt?_append h rfl
  rwa [List.append_nil] at happend

theorem modifyAt?_self (h : n.lookup path = some v) : n.modifyAt? (fun _ => v) path = some n := by
  induction path generalizing n with
  | nil => exact h.symm
  | cons key path ih =>
    obtain ⟨m, child, rfl, hc, h⟩ := lookup_cons_eq_some h
    rw [modifyAt?_mapping_cons hc (ih h), Entries.modify_eq_self hc rfl]

theorem modifyAt?_modifyAt? (h : n.modifyAt? f path = some n') (g : Node → Node) :
    n'.modifyAt? g path = n.modifyAt? (fun v => g (f v)) path := by
  induction path generalizing n n' with
  | nil =>
    cases h
    rfl
  | cons key path ih =>
    obtain ⟨m, child, child', rfl, hc, hc', rfl⟩ := modifyAt?_cons_eq_some h
    have hget : Entries.get? (Entries.modify key (fun _ => child') m) key = some child' := by
      rw [Entries.get?_modify_self, hc, Option.map_some]
    simp only [modifyAt?, hget, hc, ih hc', Entries.modify_modify]

/-- A chain that parts from the path of a change leads where it led. -/
theorem lookup_modifyAt?_of_apart (h : n.modifyAt? f path = some n') {other : List String}
    (hpath : ¬path <+: other) (hother : ¬other <+: path) : n'.lookup other = n.lookup other := by
  induction path generalizing n n' other with
  | nil => exact absurd List.nil_prefix hpath
  | cons key path ih =>
    cases other with
    | nil => exact absurd List.nil_prefix hother
    | cons k other =>
      -- The chains go down together as long as their keys agree.
      by_cases hk : k = key
      · subst hk
        obtain ⟨m, child, child', rfl, hc, hc', rfl⟩ := modifyAt?_cons_eq_some h
        rw [List.cons_prefix_cons] at hpath hother
        rw [Extraction.lookup_cons, Extraction.lookup_cons, get?_mapping, get?_mapping,
          Entries.get?_modify_self, hc]
        exact ih hc' (fun he => hpath ⟨rfl, he⟩) (fun he => hother ⟨rfl, he⟩)
      · exact lookup_congr (get?_modifyAt?_of_ne h hk)

/-! ## What has been put at a place -/

/-- As far as chains of keys can tell, the tree `n'` holds `x` at the place and else what `n` holds:
chains through the place lead into `x`, and chains that part from it lead where they led. -/
structure HoldsAt (place : List String) (x n n' : Node) : Prop where
  through : ∀ rest, n'.lookup (place ++ rest) = x.lookup rest
  apart : ∀ other, ¬place <+: other → ¬other <+: place → n'.lookup other = n.lookup other

/-- The tree `n'` has `x` at the place and is the tree `n` everywhere else, also inside sequences,
where no chain of keys leads. -/
structure PutAt (place : List String) (x n n' : Node) : Prop extends HoldsAt place x n n' where
  frame : ∀ steps, ¬place.map Step.key <+: steps → n'.shapeAt steps = n.shapeAt steps

theorem HoldsAt.lookup_place {place : List String} (h : HoldsAt place x n n') :
    n'.lookup place = some x := by
  have hthrough := h.through []
  rwa [List.append_nil] at hthrough

theorem putAt_of_modifyAt? (h : n.lookup path = some v) (hm : n.modifyAt? f path = some n') :
    PutAt path (f v) n n' := by
  rw [modifyAt?_of_lookup h] at hm
  obtain ⟨_, hm', hl⟩ := exists_modifyAt? (fun _ => f v) h
  cases hm.symm.trans hm'
  refine ⟨⟨fun rest => ?_, fun _ => lookup_modifyAt?_of_apart hm⟩, ?_⟩
  · rw [lookup_append, hl, Option.bind_some]
  · exact Extraction.changesWithin_modifyAt? h hm fun rest hrest =>
      absurd (List.prefix_append ..) hrest

theorem exists_putAt (h : n.lookup path = some v) (f : Node → Node) :
    ∃ n', n.modifyAt? f path = some n' ∧ PutAt path (f v) n n' := by
  obtain ⟨n', hm, -⟩ := exists_modifyAt? f h
  exact ⟨n', hm, putAt_of_modifyAt? h hm⟩

/-- What is put under a key of a mapping is at the end of the longer chain. -/
theorem PutAt.holdsAt_insert (h : n.lookup path = some (.mapping m))
    (hput : PutAt path (.mapping (Entries.insert key x m)) n n') :
    HoldsAt (path ++ [key]) x n n' := by
  constructor
  · intro rest
    rw [List.append_assoc, hput.through, List.singleton_append, Extraction.lookup_cons,
      get?_mapping, Entries.get?_insert, if_pos rfl, Option.bind_some]
  · intro other hplace hother
    by_cases hpath : path <+: other
    · obtain ⟨rest, rfl⟩ := hpath
      -- The chain leads to the mapping itself or goes on from it by another key.
      cases rest with
      | nil =>
        rw [List.append_nil] at hother
        exact absurd (List.prefix_append ..) hother
      | cons k rest =>
        have hk : k ≠ key := by
          rintro rfl
          exact hplace ⟨rest, by rw [List.append_assoc, List.singleton_append]⟩
        rw [hput.through, lookup_append, h, Option.bind_some]
        apply lookup_congr
        rw [get?_mapping, get?_mapping, Entries.get?_insert, if_neg hk]
    · exact hput.apart other hpath fun he => hother (he.trans (List.prefix_append ..))

/-! ## Replacing a value -/

theorem lookup_concat_eq_some (h : n.lookup (path ++ [key]) = some old) :
    ∃ m, n.lookup path = some (.mapping m) ∧ Entries.get? m key = some old := by
  rw [lookup_concat] at h
  obtain ⟨holder, hholder, hold⟩ := Option.bind_eq_some_iff.mp h
  cases holder with
  | scalar | sequence => cases hold
  | mapping m => exact ⟨m, hholder, hold⟩

theorem replaceChildAt_of_none (h : n.lookup (path ++ [key]) = none) (x : Node) :
    n.replaceChildAt path key x = (none, n) := by
  have hnone : (n.lookup path).bind (·.replaceChild? key x) = none := by
    rw [lookup_concat, Option.bind_eq_none_iff] at h
    refine Option.bind_eq_none_iff.mpr fun holder hholder => ?_
    cases holder with
    | scalar | sequence => rfl
    | mapping m => exact Option.map_eq_none_iff.mpr (h _ hholder)
  rw [replaceChildAt, hnone]

/-- Replacing the value of a key is a change at the end of the longer chain. -/
theorem replaceChildAt_of_some (h : n.lookup (path ++ [key]) = some old) (x : Node) :
    ∃ n', n.modifyAt? (fun _ => x) (path ++ [key]) = some n' ∧
      n.replaceChildAt path key x = (some old, n') := by
  obtain ⟨n', hm, -⟩ := exists_modifyAt? (fun _ => x) h
  refine ⟨n', hm, ?_⟩
  obtain ⟨m, hholder, hold⟩ := lookup_concat_eq_some h
  rw [modifyAt?_append hholder (modifyAt?_mapping_cons hold rfl)] at hm
  simp only [replaceChildAt, replaceChild?, hholder, hold, Option.bind_some, Option.map_some, hm,
    Option.getD_some]

/-- It succeeds where the longer chain leads to a value, and gives that value. -/
theorem replaceChildAt_fst (n : Node) (path : List String) (key : String) (x : Node) :
    (n.replaceChildAt path key x).1 = n.lookup (path ++ [key]) := by
  cases h : n.lookup (path ++ [key]) with
  | none => rw [replaceChildAt_of_none h]
  | some old =>
    obtain ⟨n', -, hreplace⟩ := replaceChildAt_of_some h x
    rw [hreplace]

theorem putAt_replaceChildAt (h : n.lookup (path ++ [key]) = some old) (x : Node) :
    PutAt (path ++ [key]) x n (n.replaceChildAt path key x).2 := by
  obtain ⟨n', hm, hreplace⟩ := replaceChildAt_of_some h x
  rw [hreplace]
  exact putAt_of_modifyAt? h hm

theorem replaceChildAt_self (h : n.lookup (path ++ [key]) = some x) :
    n.replaceChildAt path key x = (some x, n) := by
  obtain ⟨n', hm, hreplace⟩ := replaceChildAt_of_some h x
  cases (modifyAt?_self h).symm.trans hm
  exact hreplace

/-- Putting the old value back restores the tree. -/
theorem replaceChildAt_replaceChildAt (h : n.lookup (path ++ [key]) = some old) (x : Node) :
    (n.replaceChildAt path key x).2.replaceChildAt path key old = (some x, n) := by
  obtain ⟨n', hm, hreplace⟩ := replaceChildAt_of_some h x
  obtain ⟨n'', hm', hrestore⟩ := replaceChildAt_of_some (putAt_of_modifyAt? h hm).lookup_place old
  rw [modifyAt?_modifyAt? hm, modifyAt?_self h] at hm'
  cases hm'
  rw [hreplace, hrestore]

/-! ## Putting a value under a key -/

/-- Where the key is there its value is replaced. -/
theorem insertAt_of_some (h : n.lookup (path ++ [key]) = some old) (x : Node) :
    n.insertAt path key x = (n.replaceChildAt path key x).2 := by
  obtain ⟨n', hm, hreplace⟩ := replaceChildAt_of_some h x
  obtain ⟨m, hholder, hold⟩ := lookup_concat_eq_some h
  have hkey : key ∈ Entries.keys m := Entries.get?_isSome_iff.mp (Option.isSome_of_eq_some hold)
  rw [modifyAt?_append hholder (modifyAt?_mapping_cons hold rfl)] at hm
  rw [hreplace, insertAt, modifyAt?_of_lookup hholder, insert, Entries.insert_of_mem hkey, hm,
    Option.getD_some]

theorem insertAt_insertAt (h : n.lookup (path ++ [key]) = some old) (x : Node) :
    (n.insertAt path key x).insertAt path key old = n := by
  have hx := (putAt_replaceChildAt h x).lookup_place
  rw [insertAt_of_some h, insertAt_of_some hx, replaceChildAt_replaceChildAt h]

theorem putAt_insertAt (h : n.lookup path = some (.mapping m)) (key : String) (x : Node) :
    PutAt path (.mapping (Entries.insert key x m)) n (n.insertAt path key x) := by
  obtain ⟨n', hm, hput⟩ := exists_putAt h (·.insert key x)
  rw [insertAt, hm]
  exact hput

/-- A new key goes last. -/
theorem putAt_insertAt_of_none (hm : n.lookup path = some (.mapping m))
    (h : n.lookup (path ++ [key]) = none) (x : Node) :
    PutAt path (.mapping (m ++ [(key, x)])) n (n.insertAt path key x) := by
  rw [lookup_concat, hm, Option.bind_some, get?_mapping, Entries.get?_eq_none_iff] at h
  rw [← Entries.insert_of_not_mem h]
  exact putAt_insertAt hm key x

theorem insertAt_of_not_mapping (h : ∀ m, n.lookup path ≠ some (.mapping m)) (key : String)
    (x : Node) : n.insertAt path key x = n := by
  cases hv : n.lookup path with
  | none =>
    have hnone : n.modifyAt? (·.insert key x) path = none := by
      rw [← Option.not_isSome_iff_eq_none, isSome_modifyAt?, hv]
      exact Bool.false_ne_true
    rw [insertAt, hnone, Option.getD_none]
  | some v =>
    have hinsert : v.insert key x = v := by
      cases v with
      | scalar | sequence => rfl
      | mapping m => exact absurd hv (h m)
    rw [insertAt, modifyAt?_of_lookup hv, hinsert, modifyAt?_self hv, Option.getD_some]

theorem insertAt_eq_self_iff (n : Node) (path : List String) (key : String) (x : Node) :
    n.insertAt path key x = n ↔
      (∀ m, n.lookup path ≠ some (.mapping m)) ∨ n.lookup (path ++ [key]) = some x := by
  constructor
  · intro h
    by_cases hmapping : ∃ m, n.lookup path = some (.mapping m)
    · obtain ⟨m, hm⟩ := hmapping
      have hplace := ((putAt_insertAt hm key x).holdsAt_insert hm).lookup_place
      rw [h] at hplace
      exact .inr hplace
    · exact .inl (not_exists.mp hmapping)
  · rintro (h | h)
    · exact insertAt_of_not_mapping h key x
    · rw [insertAt_of_some h, replaceChildAt_self h]

/-! ## The laws together -/

/-- The laws of edits. A change is made where a lookup leads, on the node that it finds, and nowhere
else. A value is replaced where the key is there: the old value is given back, the new one stands in
its place, and putting the old one back restores the tree; where the key is not there the tree
stays. Putting a value under a key is the same where the key is there, and a new key goes last. That
leaves the tree as it is exactly where no mapping takes the value or it already stood there. -/
theorem edits_obey_lookup (n : Node) (path : List String) (key : String) (x : Node) :
    let place := path ++ [key]
    let replaced := n.replaceChildAt path key x
    let inserted := n.insertAt path key x
    (∀ f, (n.modifyAt? f path).isSome = (n.lookup path).isSome ∧
      ∀ v, n.lookup path = some v → ∃ n', n.modifyAt? f path = some n' ∧ PutAt path (f v) n n') ∧
    replaced.1 = n.lookup place ∧
    (n.lookup place = none → replaced.2 = n) ∧
    (∀ old, n.lookup place = some old → PutAt place x n replaced.2 ∧
      replaced.2.replaceChildAt path key old = (some x, n) ∧
      inserted = replaced.2 ∧ inserted.insertAt path key old = n) ∧
    (∀ m, n.lookup path = some (.mapping m) → n.lookup place = none →
      HoldsAt place x n inserted ∧ PutAt path (.mapping (m ++ [(key, x)])) n inserted) ∧
    (inserted = n ↔ (∀ m, n.lookup path ≠ some (.mapping m)) ∨ n.lookup place = some x) := by
  intro place replaced inserted
  refine ⟨fun f => ⟨isSome_modifyAt? n f path, fun v hv => exists_putAt hv f⟩,
    replaceChildAt_fst n path key x, fun hnone => ?_, fun old hold => ?_, fun m hm hnone => ?_,
    insertAt_eq_self_iff n path key x⟩
  · exact congrArg Prod.snd (replaceChildAt_of_none hnone x)
  · exact ⟨putAt_replaceChildAt hold x, replaceChildAt_replaceChildAt hold x,
      insertAt_of_some hold x, insertAt_insertAt hold x⟩
  · exact ⟨(putAt_insertAt hm key x).holdsAt_insert hm, putAt_insertAt_of_none hm hnone x⟩

def shelfNode : Node :=
  .mapping [("a", .mapping [("b", .string "old"), ("c", .sequence [.mapping [("d", .string "e")]])]),
    ("f", .string "g")]

theorem edits_obey_lookup_shelfNode :
    let x := Node.mapping [("y", .string "z")]
    let replaced := shelfNode.replaceChildAt ["a"] "b" x
    let inserted := shelfNode.insertAt ["a"] "w" x
    replaced.1 = some (.string "old") ∧
      replaced.2.lookup ["a", "b", "y"] = some (.string "z") ∧
      replaced.2.lookup ["a", "c"] = shelfNode.lookup ["a", "c"] ∧
      replaced.2.shapeAt [.key "a", .key "c", .index 0] = some (.mapping ["d"]) ∧
      replaced.2.replaceChildAt ["a"] "b" (.string "old") = (some x, shelfNode) ∧
      inserted.lookup ["a", "w", "y"] = some (.string "z") ∧
      inserted.shapeAt [.key "f"] = shelfNode.shapeAt [.key "f"] ∧
      shelfNode.insertAt ["f"] "b" x = shelfNode := by
  intro x replaced inserted
  obtain ⟨-, hfirst, -, hpresent, -⟩ := edits_obey_lookup shelfNode ["a"] "b" x
  obtain ⟨hput, hrestore, -⟩ := hpresent (.string "old") rfl
  obtain ⟨-, -, -, -, habsent, -⟩ := edits_obey_lookup shelfNode ["a"] "w" x
  obtain ⟨hholds, hlast⟩ := habsent _ rfl rfl
  obtain ⟨-, -, -, -, -, hsame⟩ := edits_obey_lookup shelfNode ["f"] "b" x
  refine ⟨hfirst, hput.through ["y"], hput.apart ["a", "c"] (by decide) (by decide),
    hput.frame _ (by decide), hrestore, hholds.through ["y"], hlast.frame _ (by decide),
    hsame.mpr (.inl fun m hm => ?_)⟩
  cases hm

end InlineSchema.Node
