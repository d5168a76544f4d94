import Mathlib
import InlineSchema.Proofs.Documentation

/-! # Expansions in place

References can also be resolved with one set of definitions for the whole run, which every expansion
changes before it goes into a definition and changes back afterwards. Nothing bounds the recursion
of such a run beforehand. Yet it returns, with the value that resolving gives and with the set it
was called with, and the expansions that are open at any moment are of different definitions, none
of which was in that set.
-/
namespace InlineSchema.Equivalence

inductive Visit where
  | begins (name : String)
  | ends (name : String)
deriving DecidableEq, Repr

/-- The definitions that are not to be expanded now, and the expansions so far. -/
structure Expanding where
  names : Finset String
  history : List Visit

/-- Runs that may go on for ever, and then have no outcome. -/
abbrev Expander := StateT Expanding Option

def visiting : Expander (Finset String) := do
  return (← get).names

def enter (name : String) : Expander Unit :=
  modify fun s => ⟨insert name s.names, s.history ++ [.begins name]⟩

def leave (name : String) : Expander Unit :=
  modify fun s => ⟨s.names.erase name, s.history ++ [.ends name]⟩

abbrev Resolver := Json → Expander Json

section
variable (table : Entries Json) (o : Options)

abbrev Resolver.call (again : Resolver) (v : Json) : Expander Json := do
  let names ← visiting
  match v with
  | .scalar s => pure (.scalar s)
  | .array items => do
    let items ← items.mapM again
    pure (.array items)
  | .object m =>
    match (Entries.get? m Node.refKey).bind Json.text? with
    | none => do
      let m ← m.mapM fun p => do
        let v ← again p.2
        pure (p.1, v)
      pure (.object m)
    | some target =>
      match o.definitionName? target with
      | none => pure (.object m)
      | some name =>
        if name ∈ names then pure (.object m)
        else match Entries.get? table name with
          | none => pure (.object m)
          | some body => do
            enter name
            let body ← again body
            let siblings ← (Entries.erase Node.refKey m).mapM fun p => do
              let v ← again p.2
              pure (p.1, v)
            leave name
            pure (underSiblings siblings body)

/-- Replaces the references below a value. Nothing bounds how deep its calls go. -/
def resolveInPlace : Resolver := fun v => resolveInPlace.call table o v
partial_fixpoint

end

/-! ## Histories -/

/-- What is open after a visit, the innermost first. Only the innermost expansion can end. -/
def Visit.apply? : List String → Visit → Option (List String)
  | names, .begins name => some (name :: names)
  | [], .ends _ => none
  | n :: names, .ends name => if name = n then some names else none

/-- All expansions of the history end, inside whatever was open before it. At every moment of it
those that are open are of different definitions of the table, and of none in `visited`. -/
structure Nested (table : Entries Json) (visited : List String) (history : List Visit) : Prop where
  ends : ∀ outer, history.foldlM Visit.apply? outer = some outer
  moments : ∀ outer past, past <+: history →
    ∃ names, past.foldlM Visit.apply? outer = some (names ++ outer) ∧ names.Nodup ∧
      ∀ name ∈ names, name ∈ Entries.keys table ∧ name ∉ visited

variable {table : Entries Json} {o : Options} {visited : List String}

theorem nested_nil : Nested table visited [] where
  ends _ := rfl
  moments outer past hpast := by
    rw [List.prefix_nil.mp hpast]
    exact ⟨[], rfl, List.nodup_nil, by simp⟩

theorem Nested.append {h₁ h₂ : List Visit} (hfirst : Nested table visited h₁)
    (hsecond : Nested table visited h₂) : Nested table visited (h₁ ++ h₂) where
  ends outer := by
    rw [List.foldlM_append, hfirst.ends]
    exact hsecond.ends outer
  moments outer past hpast := by
    rcases List.prefix_or_prefix_of_prefix hpast (List.prefix_append h₁ h₂) with h | ⟨rest, rfl⟩
    · exact hfirst.moments outer past h
    · rw [List.foldlM_append, hfirst.ends]
      exact hsecond.moments outer rest ((List.prefix_append_right_inj h₁).mp hpast)

/-- Inside an expansion its definition counts as visited, so it is not opened again before the
end. -/
theorem Nested.expansion {name : String} {h : List Visit}
    (hinner : Nested table (name :: visited) h)
    (htable : name ∈ Entries.keys table) (hnew : name ∉ visited) :
    Nested table visited ((.begins name :: h) ++ [.ends name]) := by
  have hends : ∀ outer,
      ((Visit.begins name :: h) ++ [Visit.ends name]).foldlM Visit.apply? outer = some outer := by
    intro outer
    have hbody : h.foldlM Visit.apply? (name :: outer) = some (name :: outer) := hinner.ends _
    rw [List.foldlM_append, List.foldlM_cons, Visit.apply?]
    simp [hbody, Visit.apply?]
  refine ⟨hends, fun outer past hpast => ?_⟩
  rcases List.prefix_concat_iff.mp hpast with rfl | hprefix
  · exact ⟨[], hends outer, List.nodup_nil, by simp⟩
  · cases past with
    | nil => exact ⟨[], rfl, List.nodup_nil, by simp⟩
    | cons visit past =>
      obtain ⟨rfl, hinside⟩ := List.cons_prefix_cons.mp hprefix
      obtain ⟨names, hopen, hnodup, hnames⟩ := hinner.moments (name :: outer) past hinside
      refine ⟨names ++ [name], ?_, ?_, ?_⟩
      · rw [List.append_assoc, List.singleton_append]
        exact hopen
      · refine List.nodup_append'.mpr ⟨hnodup, List.nodup_singleton name, ?_⟩
        simpa using fun h => (hnames name h).2 List.mem_cons_self
      · intro n hn
        rcases List.mem_append.mp hn with hn | hn
        · exact ⟨(hnames n hn).1, fun hv => (hnames n hn).2 (List.mem_cons_of_mem _ hv)⟩
        · rw [List.mem_singleton.mp hn]
          exact ⟨htable, hnew⟩

/-- There are no more of them than there are such definitions. -/
theorem length_le_card {names : List String} (hnodup : names.Nodup)
    (h : ∀ name ∈ names, name ∈ Entries.keys table ∧ name ∉ visited) :
    names.length ≤ ((Entries.keys table).toFinset \ visited.toFinset).card := by
  rw [← List.toFinset_card_of_nodup hnodup]
  apply Finset.card_le_card
  intro name hname
  simpa using h name (List.mem_toFinset.mp hname)

/-! ## Runs that return -/

/-- The run returns `x` with the set that it was called with, after nested expansions. -/
def Returns {α : Type} (table : Entries Json) (visited : List String) (run : Expander α) (x : α) :
    Prop :=
  ∃ history, Nested table visited history ∧ ∀ past,
    run.run ⟨visited.toFinset, past⟩ = some (x, ⟨visited.toFinset, past ++ history⟩)

variable {α β : Type}

theorem returns_pure (x : α) : Returns table visited (pure x) x :=
  ⟨[], nested_nil, fun past => by simp [StateT.run_pure]⟩

theorem Returns.bind {run : Expander α} {next : α → Expander β} {x : α} {y : β}
    (h : Returns table visited run x) (hnext : Returns table visited (next x) y) :
    Returns table visited (run >>= next) y := by
  obtain ⟨h₁, hnested₁, hrun₁⟩ := h
  obtain ⟨h₂, hnested₂, hrun₂⟩ := hnext
  refine ⟨h₁ ++ h₂, hnested₁.append hnested₂, fun past => ?_⟩
  rw [StateT.run_bind, hrun₁, ← List.append_assoc]
  exact hrun₂ _

theorem returns_mapM {f : α → Expander β} {g : α → β} {xs : List α}
    (h : ∀ x ∈ xs, Returns table visited (f x) (g x)) :
    Returns table visited (xs.mapM f) (xs.map g) := by
  induction xs with
  | nil => exact returns_pure []
  | cons x xs ih =>
    obtain ⟨hx, hxs⟩ := List.forall_mem_cons.mp h
    rw [List.mapM_cons, List.map_cons]
    exact hx.bind ((ih hxs).bind (returns_pure _))

theorem returns_mapM_values {f : Json → Expander Json} {g : Json → Json} {m : Entries Json}
    (h : ∀ p ∈ m, Returns table visited (f p.2) (g p.2)) :
    Returns table visited (m.mapM fun p => do let v ← f p.2; pure (p.1, v))
      (m.map fun p => (p.1, g p.2)) :=
  returns_mapM fun p hp => (h p hp).bind (returns_pure _)

theorem returns_visiting : Returns table visited visiting visited.toFinset :=
  ⟨[], nested_nil, fun past => by rw [List.append_nil]; rfl⟩

theorem run_enter (name : String) (past : List Visit) :
    (enter name).run ⟨visited.toFinset, past⟩ =
      some ((), ⟨(name :: visited).toFinset, past ++ [.begins name]⟩) := by
  rw [List.toFinset_cons]
  rfl

theorem run_leave {name : String} (hnew : name ∉ visited) (past : List Visit) :
    (leave name).run ⟨(name :: visited).toFinset, past⟩ =
      some ((), ⟨visited.toFinset, past ++ [.ends name]⟩) := by
  have herase : ((name :: visited).toFinset).erase name = visited.toFinset := by
    rw [List.toFinset_cons]
    exact Finset.erase_insert (by simpa using hnew)
  rw [← herase]
  rfl

/-- What runs between the two changes of the set is called with one definition more. -/
theorem Returns.expansion {run : Expander α} {x : α} {name : String}
    (h : Returns table (name :: visited) run x) (htable : name ∈ Entries.keys table)
    (hnew : name ∉ visited) :
    Returns table visited (do enter name; let x ← run; leave name; pure x) x := by
  obtain ⟨h, hnested, hrun⟩ := h
  refine ⟨(.begins name :: h) ++ [.ends name], hnested.expansion htable hnew, fun past => ?_⟩
  simp only [StateT.run_bind, run_enter, Option.bind_eq_bind, Option.bind_some, hrun,
    run_leave hnew, StateT.run_pure, List.append_assoc, List.cons_append, List.nil_append]
  rfl

/-! ## Resolving returns -/

theorem returns_resolveInPlace_of_none {m : Entries Json}
    (hm : expansion? table o visited m = none)
    (h : ∀ p ∈ m,
      Returns table visited (resolveInPlace table o p.2) (resolve table o visited p.2)) :
    Returns table visited (resolveInPlace table o (.object m))
      (resolve table o visited (.object m)) := by
  rw [resolve_object_of_none hm, resolveInPlace]
  refine returns_visiting.bind ?_
  dsimp only
  cases htarget : (Entries.get? m Node.refKey).bind Json.text? with
  | none =>
    have href : hasReference m = false := by simp [hasReference, htarget]
    rw [href, if_neg Bool.false_ne_true, resolveEntries_eq_map]
    exact (returns_mapM_values h).bind (returns_pure _)
  | some target =>
    have href : hasReference m = true := by simp [hasReference, htarget]
    rw [href, if_pos rfl]
    cases hname : o.definitionName? target with
    | none => simpa only [hname] using returns_pure (Json.object m)
    | some name =>
      simp only [hname, List.mem_toFinset]
      split
      next => exact returns_pure _
      next hnew =>
        cases hbody : Entries.get? table name with
        | none => exact returns_pure _
        | some body =>
          have hsome := expansion?_eq_some_iff.mpr ⟨target, htarget, hname, hnew, hbody⟩
          rw [hm] at hsome
          cases hsome

theorem returns_resolveInPlace_of_some {m : Entries Json} {name : String} {body : Json}
    (hm : expansion? table o visited m = some (name, body))
    (h : ∀ v, Returns table (name :: visited) (resolveInPlace table o v)
      (resolve table o (name :: visited) v)) :
    Returns table visited (resolveInPlace table o (.object m))
      (resolve table o visited (.object m)) := by
  obtain ⟨target, htarget, hname, hnew, hbody⟩ := expansion?_eq_some_iff.mp hm
  rw [resolve_object_of_some hm, resolveInPlace, erase_resolveEntries]
  refine returns_visiting.bind ?_
  simp only [htarget, hname, List.mem_toFinset, if_neg hnew, hbody]
  have hinside : Returns table (name :: visited)
      (do
        let body ← resolveInPlace table o body
        let siblings ← (Entries.erase Node.refKey m).mapM fun p => do
          let v ← resolveInPlace table o p.2
          pure (p.1, v)
        pure (underSiblings siblings body))
      (underSiblings ((Entries.erase Node.refKey m).map fun p =>
        (p.1, resolve table o (name :: visited) p.2)) (resolve table o (name :: visited) body)) :=
    (h body).bind ((returns_mapM_values fun p _ => h p.2).bind (returns_pure _))
  have hkey : name ∈ Entries.keys table := List.mem_map_of_mem (Entries.mem_of_get? hbody)
  simpa only [bind_assoc, pure_bind] using hinside.expansion hkey hnew

/-- The induction is on the definitions that are not being expanded, and then on the value: a body
may be larger than the reference to it, but has one definition less to expand. -/
theorem returns_resolveInPlace (visited : List String) (v : Json) :
    Returns table visited (resolveInPlace table o v) (resolve table o visited v) := by
  induction visited using unvisited_induct table generalizing v with
  | step visited ihk =>
    induction v using Json.induct with
    | scalar s =>
      rw [resolveInPlace, resolve]
      exact returns_visiting.bind (returns_pure _)
    | array xs ih =>
      rw [resolveInPlace, resolve, resolveItems_eq_map]
      exact returns_visiting.bind ((returns_mapM ih).bind (returns_pure _))
    | object m ih =>
      cases hm : expansion? table o visited m with
      | none => exact returns_resolveInPlace_of_none hm ih
      | some found => exact returns_resolveInPlace_of_some hm (ihk _ (unvisited_expansion_lt hm))

/-- Resolving in place returns, whatever refers to what in the table. It gives the value that
resolving gives, and the set is again what it was at the call. All expansions have ended. At every
moment of the run those that are open are of different definitions of the table, and of none that
was in the set, so there are no more of them than there are such definitions. -/
theorem resolveInPlace_returns (table : Entries Json) (o : Options) (visited : List String)
    (v : Json) :
    ∃ history : List Visit,
      (resolveInPlace table o v).run ⟨visited.toFinset, []⟩ =
        some (resolve table o visited v, ⟨visited.toFinset, history⟩) ∧
      history.foldlM Visit.apply? [] = some [] ∧
      ∀ past, past <+: history → ∃ names, past.foldlM Visit.apply? [] = some names ∧
        names.Nodup ∧ (∀ name ∈ names, name ∈ Entries.keys table ∧ name ∉ visited) ∧
        names.length ≤ ((Entries.keys table).toFinset \ visited.toFinset).card := by
  have hreturns : Returns table visited (resolveInPlace table o v) (resolve table o visited v) :=
    returns_resolveInPlace visited v
  obtain ⟨history, hnested, hrun⟩ := hreturns
  refine ⟨history, hrun [], hnested.ends [], fun past hpast => ?_⟩
  obtain ⟨names, hopen, hnodup, hnames⟩ := hnested.moments [] past hpast
  rw [List.append_nil] at hopen
  exact ⟨names, hopen, hnodup, hnames, length_le_card hnodup hnames⟩

end InlineSchema.Equivalence
