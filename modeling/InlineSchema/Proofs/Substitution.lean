import InlineSchema.Proofs.NormalForm

/-! # What resolving substitutes

A reference to a definition is left where it stands in two places: inside a mapping whose own
reference leads to no definition, and beside a reference to the same definition. A reference also
arises where the text of one is a definition of its own. Wherever else references stand, they are
replaced, unless definitions refer back to themselves.
-/
namespace InlineSchema.Equivalence

variable {table : Entries Json} {o : Options}

/-- `w` stands in the value, or in a definition that the value refers to, or in one that this
definition refers to, and so on. -/
inductive Occurs (table : Entries Json) (o : Options) (w : Json) : Json → Prop
  | within {v : Json} (h : w.Within v) : Occurs table o w v
  | through {v : Json} {m : Entries Json} {name : String} {body : Json}
      (hm : (Json.object m).Within v) (hname : expansion? table o [] m = some (name, body))
      (h : Occurs table o w body) : Occurs table o w v

/-- The definition is referred to, directly or through other definitions. -/
def Refers (table : Entries Json) (o : Options) (v : Json) (name : String) : Prop :=
  ∃ m body, Occurs table o (.object m) v ∧ expansion? table o [] m = some (name, body)

theorem Occurs.trans {w u v : Json} (h : Occurs table o w u) (hu : u.Within v) :
    Occurs table o w v := by
  cases h with
  | within h => exact .within (h.trans hu)
  | through hm hname h => exact .through (hm.trans hu) hname h

theorem Refers.trans {u v : Json} {name : String} (h : Refers table o u name) (hu : u.Within v) :
    Refers table o v name := by
  obtain ⟨m, body, hm, hname⟩ := h
  exact ⟨m, body, hm.trans hu, hname⟩

/-- The value is the text, or a reference alone to a definition that is such a value. -/
inductive Spells (table : Entries Json) (o : Options) (text : String) : Json → Prop
  | scalar : Spells table o text (.scalar (.string text))
  | reference {m : Entries Json} {name : String} {body : Json}
      (hname : expansion? table o [] m = some (name, body)) (halone : Entries.erase Node.refKey m = [])
      (hbody : Spells table o text body) : Spells table o text (.object m)

/-- No references stand in the way of each other: the definitions that are referred to form no
cycle, no reference stands beside a reference to the same definition, a mapping whose reference
leads to no definition holds no other references, and where a mapping stands for the text of a
reference, it comes to no text that names a definition. -/
structure Unobstructed (table : Entries Json) (o : Options) (v : Json) : Prop where
  acyclic : ∀ m name body, Occurs table o (.object m) v →
    expansion? table o [] m = some (name, body) → ¬Refers table o body name
  beside : ∀ m name body, Occurs table o (.object m) v →
    expansion? table o [] m = some (name, body) → ∀ p ∈ m, ¬Refers table o p.2 name
  foreign : ∀ m, Occurs table o (.object m) v → hasReference m = true →
    expansion? table o [] m = none → ∀ p ∈ m, ∀ m', (Json.object m').Within p.2 →
      expansion? table o [] m' = none
  spelled : ∀ m m', Occurs table o (.object m) v → Entries.get? m Node.refKey = some (.object m') →
    ∀ target name, Spells table o target (.object m') → o.definitionName? target = some name →
      Entries.get? table name = none

theorem Unobstructed.of_occurs {v w : Json} (h : Unobstructed table o v)
    (hw : ∀ m, Occurs table o (.object m) w → Occurs table o (.object m) v) :
    Unobstructed table o w where
  acyclic m name body hm := h.acyclic m name body (hw m hm)
  beside m name body hm := h.beside m name body (hw m hm)
  foreign m hm := h.foreign m (hw m hm)
  spelled m m' hm := h.spelled m m' (hw m hm)

/-! ## One reference -/

/-- Only a value that comes to a text resolves to it. -/
theorem spells_of_resolve {text : String} (visited : List String) (v : Json)
    (h : (resolve table o visited v).text? = some text) : Spells table o text v := by
  induction visited using unvisited_induct table generalizing v with
  | step visited ihk =>
    cases v with
    | scalar s =>
      rw [resolve] at h
      obtain rfl : s = .string text := by
        cases s with
        | string => exact congrArg Scalar.string (Option.some.inj h)
        | null | bool | number => cases h
      exact .scalar
    | array xs =>
      rw [resolve] at h
      cases h
    | object m =>
      have hno : ∀ m', resolve table o visited (.object m) ≠ .object m' := by
        intro m' he
        rw [he] at h
        cases h
      obtain ⟨name, body, hexp, halone, he⟩ := resolve_ne_object hno
      rw [he] at h
      exact .reference (expansion?_nil_of_some hexp) halone
        (ihk _ (unvisited_expansion_lt hexp) body h)

/-- A mapping without a reference gets none to a definition when its values are resolved. -/
theorem expansion?_resolveEntries {m : Entries Json} (h : hasReference m = false)
    (hspelled : ∀ m', Entries.get? m Node.refKey = some (.object m') → ∀ target name,
      Spells table o target (.object m') → o.definitionName? target = some name →
        Entries.get? table name = none) (visited : List String) :
    expansion? table o [] (resolveEntries table o visited m) = none := by
  rw [Option.eq_none_iff_forall_ne_some]
  rintro ⟨name, body⟩ he
  obtain ⟨target, htarget, hname, -, hbody⟩ := expansion?_eq_some_iff.mp he
  rw [resolveEntries_eq_map, Entries.get?_map] at htarget
  cases hv : Entries.get? m Node.refKey with
  | none =>
    rw [hv] at htarget
    cases htarget
  | some v =>
    rw [hv, Option.map_some, Option.bind_some] at htarget
    cases spells_of_resolve visited v htarget with
    | scalar =>
      rw [hasReference, hv] at h
      cases h
    | reference hexp halone hspells =>
      rw [hspelled _ hv target name (.reference hexp halone hspells) hname] at hbody
      cases hbody

/-- A mapping in a definition under siblings is in either, or has the reference of the definition,
if any. -/
theorem within_underSiblings {siblings m : Entries Json} {v : Json}
    (hsib : Entries.get? siblings Node.refKey = none)
    (h : (Json.object m).Within (underSiblings siblings v)) :
    (∃ p ∈ siblings, (Json.object m).Within p.2) ∨ (Json.object m).Within v ∨
      Entries.get? m Node.refKey = none ∨
      ∃ body, v = .object body ∧ Entries.get? m Node.refKey = Entries.get? body Node.refKey := by
  have hother (h : (Json.object m).Within (if siblings.isEmpty then v else .object siblings)) :
      (∃ p ∈ siblings, (Json.object m).Within p.2) ∨ (Json.object m).Within v ∨
        Entries.get? m Node.refKey = none ∨
        ∃ body, v = .object body ∧ Entries.get? m Node.refKey = Entries.get? body Node.refKey := by
    split at h
    · exact .inr (.inl h)
    · cases h with
      | self => exact .inr (.inr (.inl hsib))
      | value hp h => exact .inl ⟨_, hp, h⟩
  cases v with
  | scalar => exact hother h
  | array => exact hother h
  | object body =>
    rw [underSiblings] at h
    cases h with
    | self =>
      refine .inr (.inr (.inr ⟨body, rfl, ?_⟩))
      rw [Entries.get?_append, hsib, Option.none_or,
        Entries.get?_filter (fun k => !Entries.contains siblings k), Entries.contains, hsib]
      rfl
    | value hp h =>
      rcases List.mem_append.mp hp with hp | hp
      · exact .inl ⟨_, hp, h⟩
      · exact .inr (.inl (.value (List.mem_filter.mp hp).1 h))

/-! ## Values in which no reference is in the way -/

theorem refers_scalar (s : Scalar) (name : String) : ¬Refers table o (.scalar s) name := by
  rintro ⟨m, body, hm, -⟩
  cases hm with
  | within h => cases h
  | through h => cases h

theorem occurs_object_iff {w : Json} {m : Entries Json} :
    Occurs table o w (.object m) ↔ w = .object m ∨ (∃ p ∈ m, Occurs table o w p.2) ∨
      ∃ name body, expansion? table o [] m = some (name, body) ∧ Occurs table o w body := by
  constructor
  · intro h
    cases h with
    | within h =>
      cases h with
      | self => exact .inl rfl
      | value hp h => exact .inr (.inl ⟨_, hp, .within h⟩)
    | through hm hname h =>
      cases hm with
      | self => exact .inr (.inr ⟨_, _, hname, h⟩)
      | value hp hm => exact .inr (.inl ⟨_, hp, .through hm hname h⟩)
  · rintro (rfl | ⟨p, hp, h⟩ | ⟨name, body, hname, h⟩)
    · exact .within .self
    · exact h.trans (.value hp .self)
    · exact .through .self hname h

theorem refers_object_iff {m : Entries Json} {name : String} :
    Refers table o (.object m) name ↔ (∃ body, expansion? table o [] m = some (name, body)) ∨
      (∃ p ∈ m, Refers table o p.2 name) ∨
      ∃ name' body, expansion? table o [] m = some (name', body) ∧ Refers table o body name := by
  constructor
  · rintro ⟨m', body, hm, hname⟩
    rcases occurs_object_iff.mp hm with he | ⟨p, hp, h⟩ | ⟨name', body', hname', h⟩
    · cases he
      exact .inl ⟨body, hname⟩
    · exact .inr (.inl ⟨p, hp, m', body, h, hname⟩)
    · exact .inr (.inr ⟨name', body', hname', m', body, h, hname⟩)
  · rintro (⟨body, hname⟩ | ⟨p, hp, h⟩ | ⟨name', body', hname', m', body, h, hname⟩)
    · exact ⟨m, body, .within .self, hname⟩
    · exact h.trans (.value hp .self)
    · exact ⟨m', body, .through .self hname' h, hname⟩

theorem refers_reference_iff {target name : String} :
    Refers table o (reference target) name ↔
      ∃ name' body, expansion? table o [] [(Node.refKey, .scalar (.string target))] =
        some (name', body) ∧ (name' = name ∨ Refers table o body name) := by
  rw [reference, refers_object_iff]
  constructor
  · rintro (⟨body, h⟩ | ⟨p, hp, h⟩ | ⟨name', body, hname, h⟩)
    · exact ⟨name, body, h, .inl rfl⟩
    · rw [List.mem_singleton.mp hp] at h
      exact absurd h (refers_scalar _ _)
    · exact ⟨name', body, hname, .inr h⟩
  · rintro ⟨name', body, hname, rfl | h⟩
    · exact .inl ⟨body, hname⟩
    · exact .inr (.inr ⟨name', body, hname, h⟩)

theorem not_refers_empty (name : String) : ¬Refers table o (.object []) name := by
  rw [refers_object_iff]
  rintro (⟨_, h⟩ | ⟨_, h, _⟩ | ⟨_, _, h, _⟩) <;> cases h

theorem Unobstructed.scalar (s : Scalar) : Unobstructed table o (.scalar s) := by
  have hnot (m : Entries Json) : ¬Occurs table o (.object m) (.scalar s) := by
    intro h
    cases h with
    | within h => cases h
    | through h => cases h
  exact ⟨fun m _ _ hm => absurd hm (hnot m), fun m _ _ hm => absurd hm (hnot m),
    fun m hm => absurd hm (hnot m), fun m _ hm => absurd hm (hnot m)⟩

/-- A mapping whose values are unobstructed, and whose reference leads to an unobstructed definition
that is referred to neither by itself nor beside the reference. -/
theorem Unobstructed.object {m : Entries Json}
    (hname : ∀ name body, expansion? table o [] m = some (name, body) →
      Unobstructed table o body ∧ ¬Refers table o body name ∧ ∀ p ∈ m, ¬Refers table o p.2 name)
    (hforeign : hasReference m = true → expansion? table o [] m = none → ∀ p ∈ m, ∀ m',
      (Json.object m').Within p.2 → expansion? table o [] m' = none)
    (hspelled : ∀ m', Entries.get? m Node.refKey = some (.object m') → ∀ target name,
      Spells table o target (.object m') → o.definitionName? target = some name →
        Entries.get? table name = none)
    (hvalues : ∀ p ∈ m, Unobstructed table o p.2) : Unobstructed table o (.object m) := by
  constructor
  · intro m' name body hm' hexp
    rcases occurs_object_iff.mp hm' with he | ⟨p, hp, h⟩ | ⟨name', body', hname', h⟩
    · cases he
      exact (hname name body hexp).2.1
    · exact (hvalues p hp).acyclic m' name body h hexp
    · exact (hname name' body' hname').1.acyclic m' name body h hexp
  · intro m' name body hm' hexp
    rcases occurs_object_iff.mp hm' with he | ⟨p, hp, h⟩ | ⟨name', body', hname', h⟩
    · cases he
      exact (hname name body hexp).2.2
    · exact (hvalues p hp).beside m' name body h hexp
    · exact (hname name' body' hname').1.beside m' name body h hexp
  · intro m' hm' href hexp
    rcases occurs_object_iff.mp hm' with he | ⟨p, hp, h⟩ | ⟨name', body', hname', h⟩
    · cases he
      exact hforeign href hexp
    · exact (hvalues p hp).foreign m' h href hexp
    · exact (hname name' body' hname').1.foreign m' h href hexp
  · intro m' m'' hm'
    rcases occurs_object_iff.mp hm' with he | ⟨p, hp, h⟩ | ⟨name', body', hname', h⟩
    · cases he
      exact hspelled m''
    · exact (hvalues p hp).spelled m' m'' h
    · exact (hname name' body' hname').1.spelled m' m'' h

def chain : Entries Json := [("A", .object [("items", reference "#/d/B")]), ("B", .object [])]

theorem not_refers_chain {name : String} {body : Json} (h : Entries.get? chain name = some body) :
    ¬Refers chain ⟨["d"], .yaml⟩ body name := by
  have hbody : expansion? chain ⟨["d"], .yaml⟩ [] [("items", reference "#/d/B")] = none := rfl
  have hB : expansion? chain ⟨["d"], .yaml⟩ [] [(Node.refKey, .scalar (.string "#/d/B"))] =
      some ("B", .object []) := rfl
  have hmem : (name, body) ∈ chain := Entries.mem_of_get? h
  rw [chain, List.mem_pair] at hmem
  rcases hmem with hA | hB
  · cases hA
    rw [refers_object_iff]
    simp [refers_reference_iff, not_refers_empty, hbody, hB]
  · cases hB
    exact not_refers_empty "B"

/-! ## Resolving -/

/-- A value whose references are not among those being expanded is resolved throughout. The
definitions being expanded are one more in the body of a definition and beside a reference to it,
where it is not referred to. -/
theorem expansion?_of_within_resolve (visited : List String) (v : Json)
    (hv : Unobstructed table o v) (hvisited : ∀ name ∈ visited, ¬Refers table o v name)
    (m : Entries Json) (hm : (Json.object m).Within (resolve table o visited v)) :
    expansion? table o [] m = none := by
  induction visited using unvisited_induct table generalizing v m with
  | step visited ihk =>
    induction v using Json.induct generalizing m with
    | scalar s =>
      rw [resolve] at hm
      cases hm
    | array xs ih =>
      rw [resolve, resolveItems_eq_map] at hm
      cases hm with
      | item hmem hm =>
        obtain ⟨x, hx, rfl⟩ := List.mem_map.mp hmem
        have hw : x.Within (.array xs) := .item hx .self
        exact ih x hx (hv.of_occurs fun _ h => h.trans hw)
          (fun name hname h => hvisited name hname (h.trans hw)) m hm
    | object m₀ ih =>
      cases hexp : expansion? table o [] m₀ with
      | none =>
        rw [resolve_object_of_none (by rw [expansion?_eq_filter, hexp]; rfl)] at hm
        split at hm
        next href =>
          cases hm with
          | self => exact hexp
          | value hp hm => exact hv.foreign m₀ (.within .self) href hexp _ hp m hm
        next href =>
          rw [Bool.not_eq_true] at href
          cases hm with
          | self =>
            exact expansion?_resolveEntries href (fun m' => hv.spelled m₀ m' (.within .self)) visited
          | value hmem hm =>
            rw [resolveEntries_eq_map] at hmem
            obtain ⟨p, hp, rfl⟩ := List.mem_map.mp hmem
            have hw : p.2.Within (.object m₀) := .value hp .self
            exact ih p hp (hv.of_occurs fun _ h => h.trans hw)
              (fun name hname h => hvisited name hname (h.trans hw)) m hm
      | some found =>
        obtain ⟨name, body⟩ := found
        have hself : Occurs table o (.object m₀) (.object m₀) := .within .self
        have hnot : name ∉ visited := fun h => hvisited name h ⟨m₀, body, hself, hexp⟩
        have hopen : expansion? table o visited m₀ = some (name, body) := by
          rw [expansion?_eq_filter, hexp]
          simp [Option.filter, hnot]
        have hless := unvisited_expansion_lt hopen
        have hbody : ∀ m', (Json.object m').Within (resolve table o (name :: visited) body) →
            expansion? table o [] m' = none := by
          refine ihk _ hless body (hv.of_occurs fun _ h => .through .self hexp h) ?_
          refine List.forall_mem_cons.mpr ⟨hv.acyclic m₀ name body hself hexp, ?_⟩
          rintro n hn ⟨m', b, hm', hb⟩
          exact hvisited n hn ⟨m', b, .through .self hexp hm', hb⟩
        rw [resolve_object_of_some hopen] at hm
        rcases within_underSiblings ((Entries.get?_erase ..).trans (if_pos rfl)) hm with
          ⟨_, hmem, hm⟩ | hm | hnone | ⟨m', hm', hsame⟩
        · rw [resolveEntries_eq_map] at hmem
          obtain ⟨p, hp, rfl⟩ := List.mem_map.mp (List.mem_filter.mp hmem).1
          have hw : p.2.Within (.object m₀) := .value hp .self
          refine ihk _ hless p.2 (hv.of_occurs fun _ h => h.trans hw) ?_ m hm
          exact List.forall_mem_cons.mpr ⟨hv.beside m₀ name body hself hexp p hp,
            fun n hn h => hvisited n hn (h.trans hw)⟩
        · exact hbody m hm
        · rw [expansion?, hnone]
          rfl
        · rw [expansion?_congr hsame]
          exact hbody m' (hm' ▸ .self)

/-- Resolving an unobstructed value leaves no reference to a definition, wherever it stands: under a
key, in a list, in a definition, or beside another reference. -/
theorem resolve_leaves_no_reference {v : Json} (h : Unobstructed table o v) :
    ∀ m, (Json.object m).Within (resolve table o [] v) → expansion? table o [] m = none :=
  expansion?_of_within_resolve [] v h nofun

/-- A reference is left beside a reference to the same definition, and beside one that leads
nowhere, although no definition refers to itself. -/
theorem resolve_leaves_reference :
    let o : Options := ⟨["d"], .yaml⟩
    ∀ target ∈ ["#/d/B", "other"],
      let m := [(Node.refKey, .scalar (.string target)), ("x", reference "#/d/B")]
      (∀ m' name body, Occurs chain o (.object m') (.object m) →
        expansion? chain o [] m' = some (name, body) → ¬Refers chain o body name) ∧
      ∃ m', (Json.object m').Within (resolve chain o [] (.object m)) ∧
        expansion? chain o [] m' = some ("B", .object []) := by
  intro o target htarget m
  refine ⟨fun m' name body _ hname => not_refers_chain (get?_of_expansion hname),
    [(Node.refKey, .scalar (.string "#/d/B"))], ?_, rfl⟩
  rcases List.mem_pair.mp htarget with rfl | rfl
  · have hcut : resolve chain o ["B"] (reference "#/d/B") = reference "#/d/B" :=
      (resolve_object_of_none rfl).trans (if_pos rfl)
    have hB : expansion? chain o [] m = some ("B", .object []) := rfl
    rw [resolve_object_of_some hB, resolveEntries_eq_map, resolve_object_of_none rfl, List.map_cons,
      List.map_cons, hcut]
    exact .value (p := ("x", reference "#/d/B")) List.mem_cons_self .self
  · have hcut : resolve chain o [] (.object m) = .object m :=
      (resolve_object_of_none rfl).trans (if_pos rfl)
    rw [hcut]
    exact .value (p := ("x", reference "#/d/B")) (List.mem_cons_of_mem _ List.mem_cons_self) .self

/-- A reference in a definition, one beside a reference to another definition, and a property that is
named as references are. -/
theorem resolve_chain_leaves_no_reference :
    let o : Options := ⟨["d"], .yaml⟩
    let m₀ := [(Node.refKey, .scalar (.string "#/d/A")), ("x", reference "#/d/B"),
      ("properties", .object [(Node.refKey, .object [])])]
    Unobstructed chain o (.object m₀) ∧
      ∀ m, (Json.object m).Within (resolve chain o [] (.object m₀)) →
        expansion? chain o [] m = none := by
  intro o m₀
  have hempty : Unobstructed chain o (.object []) := .object nofun nofun nofun nofun
  have hB : Unobstructed chain o (reference "#/d/B") := by
    refine .object (fun name body hname => ?_) nofun nofun
      (List.forall_mem_singleton.mpr (.scalar _))
    cases hname
    exact ⟨hempty, not_refers_chain rfl, List.forall_mem_singleton.mpr (refers_scalar _ _)⟩
  have hA : Unobstructed chain o (.object [("items", reference "#/d/B")]) :=
    .object nofun nofun nofun (List.forall_mem_singleton.mpr hB)
  have hproperty : Unobstructed chain o (.object [(Node.refKey, .object [])]) := by
    refine .object nofun nofun (fun m' hm' target name hspells _ => ?_)
      (List.forall_mem_singleton.mpr hempty)
    cases hm'
    cases hspells with
    | reference hname => cases hname
  have hbeside : ¬Refers chain o (reference "#/d/B") "A" := by
    rw [refers_reference_iff]
    rintro ⟨_, _, hname, he | hbody⟩ <;> cases hname
    · exact absurd he (by decide)
    · exact not_refers_empty "A" hbody
  have hnames : ¬Refers chain o (.object [(Node.refKey, .object [])]) "A" := by
    rw [refers_object_iff]
    rintro (⟨_, h⟩ | ⟨p, hp, h⟩ | ⟨_, _, h, _⟩)
    · cases h
    · rw [List.mem_singleton.mp hp] at h
      exact not_refers_empty "A" h
    · cases h
  have h : Unobstructed chain o (.object m₀) := by
    refine .object (fun name body hname => ?_) nofun nofun ?_
    · cases hname
      refine ⟨hA, not_refers_chain rfl, List.forall_mem_cons.mpr ⟨refers_scalar _ _, ?_⟩⟩
      exact List.forall_mem_cons.mpr ⟨hbeside, List.forall_mem_singleton.mpr hnames⟩
    · refine List.forall_mem_cons.mpr ⟨.scalar _, ?_⟩
      exact List.forall_mem_cons.mpr ⟨hB, List.forall_mem_singleton.mpr hproperty⟩
  exact ⟨h, resolve_leaves_no_reference h⟩

end InlineSchema.Equivalence
