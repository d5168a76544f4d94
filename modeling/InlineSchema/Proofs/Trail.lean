import InlineSchema.Equivalence.Documentation
import InlineSchema.Proofs.Document

/-! # The way to a new definition

A definition is minted where an object stood, and from where the extraction started a way leads
there: through the values that it went down into, and through other new definitions if the object
stood in one. Only the documentation of a document is off the way, and nowhere does the extraction
go down into it.
-/
namespace InlineSchema.Extraction
open Registry

variable {o : Options}

def ReadAs.Keeps (g : ReadAs) (key : String) : Prop :=
  g ≠ .table → Equivalence.documentationKeys.contains key = false

/-- From `n`, which has become `n'`, a way leads to where the definition `target` of `R` was minted.
The new definitions on the way have their names in `names`. -/
inductive Leads (o : Options) (R : Registry) (target : String) :
    Set String → ReadAs → Node → Node → Prop
  | here {names : Set String} {g : ReadAs} {m : Entries Node} {body n' : Node} (hg : g ≠ .table)
      (hname : target ∈ names) (hR : R.get? target = some body)
      (h : Moved o R (names \ {target}) false g (.mapping m) body)
      (hn' : n' = Node.reference (o.refTo target) ∨
        ∃ d, n' = documented d (Node.reference (o.refTo target))) :
      Leads o R target names g (.mapping m) n'
  | through {names : Set String} {g : ReadAs} {name : String} {m : Entries Node} {body n' : Node}
      (hg : g ≠ .table) (hname : name ∈ names) (hne : name ≠ target) (hR : R.get? name = some body)
      (h : Leads o R target (names \ {name}) g (.mapping m) body)
      (hn' : n' = Node.reference (o.refTo name) ∨
        ∃ d, n' = documented d (Node.reference (o.refTo name))) :
      Leads o R target names g (.mapping m) n'
  | item {names : Set String} {g : ReadAs} {xs xs' : List Node} (hl : xs.length = xs'.length)
      {p : Node × Node} (hp : p ∈ xs.zip xs') (h : Leads o R target names g.inside p.1 p.2) :
      Leads o R target names g (.sequence xs) (.sequence xs')
  | value {names : Set String} {g : ReadAs} {m m' : Entries Node}
      (hk : Entries.keys m = Entries.keys m')
      (hm : ∀ p ∈ m.zip m', Moved o R names true (g.under p.1.1) p.1.2 p.2.2)
      {p : (String × Node) × (String × Node)} (hp : p ∈ m.zip m') (hkeeps : g.Keeps p.1.1)
      (h : Leads o R target names (g.under p.1.1) p.1.2 p.2.2) :
      Leads o R target names g (.mapping m) (.mapping m')

variable {R : Registry} {target : String}

theorem Leads.not_scalar {names : Set String} {g : ReadAs} {s : Scalar} {n' : Node} :
    ¬Leads o R target names g (.scalar s) n' := nofun

/-- A change of one value leads where the change of the value leads. -/
theorem Leads.modify {names : Set String} {g : ReadAs} {m : Entries Node} {key : String}
    {v v' : Node} (hv : Entries.get? m key = some v) (hkeeps : g.Keeps key)
    (hm : Moved o R names true (g.under key) v v') (h : Leads o R target names (g.under key) v v') :
    Leads o R target names g (.mapping m) (.mapping (Entries.modify key (fun _ => v') m)) := by
  have hk : Entries.keys m = Entries.keys (Entries.modify key (fun _ => v') m) :=
    (Entries.keys_modify ..).symm
  obtain ⟨w, hw, hzip⟩ := Entries.exists_mem_zip_of_get? hk hv
  rw [Entries.get?_modify_self, hv, Option.map_some] at hw
  cases hw
  exact .value hk (moved_zip_modify hv hm) hzip hkeeps h

def Part.Leads (o : Options) (R : Registry) (target : String) (names : Set String) : Part → Prop
  | .node _ n n' => Extraction.Leads o R target names .schema n n'
  | .sites _ ss m m' => (ss.map Site.key).Nodup → ∃ p ∈ m.zip m', p.1.1 ∈ ss.map Site.key ∧
      Extraction.Leads o R target names (ReadAs.schema.under p.1.1) p.1.2 p.2.2
  | .site _ s v v' => Extraction.Leads o R target names (ReadAs.schema.under s.key) v v'
  | .place _ v v' => Extraction.Leads o R target names .schema v v'
  | .mint _ v name => name ∈ names ∧ ∃ body, R.get? name = some body ∧
      (name = target ∧ Moved o R (names \ {name}) false .schema v body ∨
        name ≠ target ∧ Extraction.Leads o R target (names \ {name}) .schema v body)
  | .branches _ _ _ xs xs' => xs.length = xs'.length ∧
      ∃ p ∈ xs.zip xs', Extraction.Leads o R target names .schema p.1 p.2
  | .properties _ ps ps' => Entries.keys ps = Entries.keys ps' ∧
      ∃ p ∈ ps.zip ps', Extraction.Leads o R target names .schema p.1.2 p.2.2
  | .property _ v v' => Extraction.Leads o R target names .schema v v'

/-- The keys of all sites are keywords that the comparison keeps. -/
theorem keeps_site {ss : List Site} (hs : ∀ s ∈ ss, s ∈ Site.all) {key : String}
    (h : key ∈ ss.map Site.key) : ReadAs.schema.Keeps key := by
  obtain ⟨s, hmem, rfl⟩ := List.mem_map.mp h
  have hall : ∀ s ∈ Site.all, Equivalence.documentationKeys.contains s.key = false := by decide
  exact fun _ => hall s (hs s hmem)

theorem Part.leads_of_mint {base name : String} {v : Node} {names : Set String}
    (h : (Part.mint base v name).Leads o R target names) (hv : v.isMapping = true) {n' : Node}
    (hn' : n' = Node.reference (o.refTo name) ∨
      ∃ d, n' = documented d (Node.reference (o.refTo name))) :
    Extraction.Leads o R target names .schema v n' := by
  obtain ⟨hname, body, hR, h⟩ := h
  obtain ⟨m, rfl⟩ : ∃ m, v = .mapping m := by
    cases v with
    | mapping m => exact ⟨m, rfl⟩
    | scalar => cases hv
    | sequence => cases hv
  rcases h with ⟨rfl, h⟩ | ⟨hne, h⟩
  · exact .here (by decide) hname hR h hn'
  · exact .through (by decide) hname hne hR h hn'

/-- A walk leads to every definition that it mints. -/
theorem Walked.leads {part : Part} {r r' : Registry} (h : Walked o part r r') :
    ∀ names, fresh r r' ⊆ names → Keeps R r r' → target ∈ fresh r r' →
      part.Leads o R target names := by
  induction h with
  | leaf | done | noBranches | noProperties | lastBranch | lastProperty =>
    intro names _ _ htarget
    rw [fresh_refl] at htarget
    exact absurd htarget (Set.notMem_empty _)
  | mapping h ih =>
    intro names hs hR htarget
    obtain ⟨p, hp, hkey, hlead⟩ := ih names hs hR htarget Site.nodup_keys
    obtain ⟨hk, hentries⟩ := h.moves names hs hR Site.nodup_keys
    refine .value hk (fun q hq => ?_) hp (keeps_site (fun _ h => h) hkey) hlead
    rcases hentries q hq with he | ⟨-, h⟩
    · rw [he]
      exact Moved.refl ..
    · exact h
  | absent _ _ ih =>
    intro names hs hR htarget hss
    obtain ⟨p, hp, hkey, hlead⟩ := ih names hs hR htarget (List.nodup_cons.mp hss).2
    exact ⟨p, hp, List.mem_cons_of_mem _ hkey, hlead⟩
  | @present base s ss m m' v v' r r₁ r' hv hw hws ihv ih =>
    intro names hs hR htarget hss
    obtain ⟨hnot, hss'⟩ := List.nodup_cons.mp hss
    have hsub := (fresh_right hw.grows).trans hs
    have hright := hR.right hw.grows
    obtain ⟨hk', hentries⟩ := hws.moves names hsub hright hss'
    have hk : Entries.keys m = Entries.keys m' := (Entries.keys_modify ..).symm.trans hk'
    rcases mem_fresh_trans htarget with htarget | htarget
    · have hlead := ihv names ((fresh_left hws.grows).trans hs) (hR.left hws.grows) htarget
      -- The key is not visited again, so its new value is the one that stays.
      have hnew : Entries.get? (Entries.modify s.key (fun _ => v') m) s.key = some v' := by
        rw [Entries.get?_modify_self, hv]
        rfl
      obtain ⟨w, hw, hzip⟩ := Entries.exists_mem_zip_of_get? hk hv
      obtain ⟨w', hw', hzip'⟩ := Entries.exists_mem_zip_of_get? hk' hnew
      obtain rfl := Option.some.inj (hw.symm.trans hw')
      rcases hentries _ hzip' with heq | ⟨hmem, -⟩
      · have heq : v' = w := heq
        subst heq
        exact ⟨_, hzip, List.mem_cons_self, hlead⟩
      · exact absurd hmem hnot
    · obtain ⟨p, hp, hkey, hlead⟩ := ih names hsub hright htarget hss'
      have hne : p.1.1 ≠ s.key := fun he => hnot (he ▸ hkey)
      exact ⟨p, Entries.mem_zip_of_modify hp hne, List.mem_cons_of_mem _ hkey, hlead⟩
  | branches _ ih =>
    intro names hs hR htarget
    obtain ⟨hl, p, hp, hlead⟩ := ih names hs hR htarget
    refine .item hl hp ?_
    rwa [ReadAs.inside_of_ne (ReadAs.under_ne_either (by decide) _)]
  | properties h ih =>
    intro names hs hR htarget
    obtain ⟨hk, p, hp, hlead⟩ := ih names hs hR htarget
    obtain ⟨-, hentries⟩ := h.moves names hs hR
    exact .value hk hentries hp (fun hne => absurd rfl hne) hlead
  | items _ ih | furtherProperties _ ih => exact ih
  | hoisted hi _ ih =>
    intro names hs hR htarget
    obtain ⟨m, rfl⟩ := Node.isMapping_of_isInlineObject hi
    exact Part.leads_of_mint (ih names hs hR htarget) rfl (.inl rfl)
  | kept _ _ ih | other _ _ _ ih => exact ih
  | @mint base v body r r' hw ih =>
    intro names hs hR htarget
    have hmem : (r.reserve base).1 ∈ fresh r (r'.define (r.reserve base).1 body) :=
      mem_fresh_mint body
    have hsub := (fresh_mint body).trans (Set.sdiff_subset_sdiff_left hs)
    refine ⟨hs hmem, body, (hR _ hmem).trans ?_, ?_⟩
    · rw [get?_define, if_pos rfl]
    · by_cases hname : (r.reserve base).1 = target
      · exact .inl ⟨hname, hw.moves _ hsub hR.mint⟩
      · refine .inr ⟨hname, ih _ hsub hR.mint ⟨?_, ?_⟩⟩
        · rw [get?_reserve, if_neg (Ne.symm hname)]
          exact htarget.1
        · have hdefined := htarget.2
          rwa [get?_define, if_neg (Ne.symm hname)] at hdefined
  | @branch base key i x x' xs xs' r r₁ r' hw hws ihx ih =>
    intro names hs hR htarget
    obtain ⟨hl, -⟩ := hws.moves names ((fresh_right hw.grows).trans hs) (hR.right hw.grows)
    refine ⟨congrArg (· + 1) hl, ?_⟩
    rcases mem_fresh_trans htarget with htarget | htarget
    · exact ⟨(x, x'), List.mem_cons_self,
        ihx names ((fresh_left hws.grows).trans hs) (hR.left hws.grows) htarget⟩
    · obtain ⟨-, p, hp, hlead⟩ :=
        ih names ((fresh_right hw.grows).trans hs) (hR.right hw.grows) htarget
      exact ⟨p, List.mem_cons_of_mem _ hp, hlead⟩
  | @property base k v v' ps ps' r r₁ r' hw hws ihv ih =>
    intro names hs hR htarget
    obtain ⟨hk, -⟩ := hws.moves names ((fresh_right hw.grows).trans hs) (hR.right hw.grows)
    refine ⟨congrArg (List.cons k) hk, ?_⟩
    rcases mem_fresh_trans htarget with htarget | htarget
    · exact ⟨((k, v), (k, v')), List.mem_cons_self,
        ihv names ((fresh_left hws.grows).trans hs) (hR.left hws.grows) htarget⟩
    · obtain ⟨-, p, hp, hlead⟩ :=
        ih names ((fresh_right hw.grows).trans hs) (hR.right hw.grows) htarget
      exact ⟨p, List.mem_cons_of_mem _ hp, hlead⟩
  | object hi _ ih =>
    intro names hs hR htarget
    obtain ⟨m, rfl⟩ := Node.isMapping_of_isInlineObject hi
    refine Part.leads_of_mint (ih names hs hR htarget) rfl ?_
    rw [keepDescription]
    split
    · exact .inr ⟨_, rfl⟩
    · exact .inl rfl
  | @array base name m x r r' _ ha hx hw ih =>
    intro names hs hR htarget
    obtain ⟨y, hy, hi⟩ := Node.items_of_isInlineObjectArray ha
    obtain rfl := Option.some.inj (hx.symm.trans hy)
    obtain ⟨mx, rfl⟩ := Node.isMapping_of_isInlineObject hi
    obtain ⟨hname, body, hb, hmoved⟩ := hw.moves names hs hR
    have hitems : Moved o R names true .schema (.mapping mx) (Node.reference (o.refTo name)) :=
      .minted (by decide) hname hb (Node.isReference_of_isInlineObject hi) hmoved (.inl rfl)
    have hlead := Part.leads_of_mint (ih names hs hR htarget) rfl (.inl rfl)
    exact .modify hx (fun _ => by decide) hitems hlead

/-! ## From the places of a document -/

def Leading (o : Options) (g : ReadAs) (f : Node → StateM Registry Node) (n : Node) : Prop :=
  ∀ r R names target, fresh r ((f n).run r).2 ⊆ names → Keeps R r ((f n).run r).2 →
    target ∈ fresh r ((f n).run r).2 → Leads o R target names g n ((f n).run r).1

theorem leading_pure (g : ReadAs) (n : Node) : Leading o g pure n := by
  intro r R names target _ _ htarget
  have hempty : fresh r r = ∅ := fresh_refl r
  exact absurd (hempty ▸ htarget) (Set.notMem_empty _)

theorem leading_walk (base : String) (n : Node) : Leading o .schema (walk o base) n :=
  fun r _ names _ hs hR htarget => (walked o base n r).leads names hs hR htarget

theorem leading_payload (name : String) (n : Node) : Leading o .schema (payload o name) n := by
  intro r R names target hs hR htarget
  rcases walked_payload name n r with ⟨hi, h, he⟩ | ⟨-, h⟩
  · obtain ⟨m, rfl, -⟩ := Node.mapping_of_moved hi
    exact Part.leads_of_mint (h.leads names hs hR htarget) rfl (.inl he)
  · exact h.leads names hs hR htarget

section
variable {g : ReadAs} {key : String} {f : Node → StateM Registry Node}

theorem Leading.onChild (hkeeps : g.Keeps key) (hmoving : Moving o (g.under key) f) {n : Node}
    (h : ∀ v, n.get? key = some v → Leading o (g.under key) f v) :
    Leading o g (Node.onChild key f) n := by
  cases n with
  | scalar | sequence => exact leading_pure g _
  | mapping m =>
    intro r R names target hs hR htarget
    cases hv : Entries.get? m key with
    | none =>
      rw [onChild_of_none hv] at hs hR htarget ⊢
      exact leading_pure g _ r R names target hs hR htarget
    | some v =>
      rw [run_onChild hv] at hs hR htarget ⊢
      obtain ⟨-, hmoved⟩ := hmoving v r
      exact .modify hv hkeeps (hmoved R names hs hR) (h v hv r R names target hs hR htarget)

theorem Leading.onChild_onChild {key₁ key₂ : String} (hne : key₁ ≠ key₂)
    {f₁ f₂ : Node → StateM Registry Node} (hkeeps₁ : g.Keeps key₁) (hkeeps₂ : g.Keeps key₂)
    (hmoving₁ : Moving o (g.under key₁) f₁) (hmoving₂ : Moving o (g.under key₂) f₂) {n : Node}
    (h₁ : ∀ v, n.get? key₁ = some v → Leading o (g.under key₁) f₁ v)
    (h₂ : ∀ v, n.get? key₂ = some v → Leading o (g.under key₂) f₂ v) :
    Leading o g (fun n => n.onChild key₁ f₁ >>= Node.onChild key₂ f₂) n := by
  cases n with
  | scalar | sequence => exact leading_pure g _
  | mapping m =>
    intro r R names target hs hR htarget
    rw [run_bind] at hs hR htarget ⊢
    cases hv : Entries.get? m key₁ with
    | none =>
      rw [onChild_of_none hv] at hs hR htarget ⊢
      exact Leading.onChild hkeeps₂ hmoving₂ h₂ r R names target hs hR htarget
    | some v =>
      rw [run_onChild hv] at hs hR htarget ⊢
      obtain ⟨hgrows₁, hm₁⟩ := hmoving₁ v r
      cases hw : Entries.get? m key₂ with
      | none =>
        have hw' := hw
        rw [← Entries.get?_modify_of_ne m (fun _ => ((f₁ v).run r).1) (Ne.symm hne)] at hw'
        rw [onChild_of_none hw'] at hs hR htarget ⊢
        exact .modify hv hkeeps₁ (hm₁ R names hs hR) (h₁ v hv r R names target hs hR htarget)
      | some w =>
        have hw' := hw
        rw [← Entries.get?_modify_of_ne m (fun _ => ((f₁ v).run r).1) (Ne.symm hne)] at hw'
        rw [run_onChild hw'] at hs hR htarget ⊢
        obtain ⟨hgrows₂, hm₂⟩ := hmoving₂ w ((f₁ v).run r).2
        have hs₁ := (fresh_left hgrows₂).trans hs
        have hs₂ := (fresh_right hgrows₁).trans hs
        have hR₁ := hR.left hgrows₂
        have hR₂ := hR.right hgrows₁
        have hk : Entries.keys m = Entries.keys (Entries.modify key₂
            (fun _ => ((f₂ w).run ((f₁ v).run r).2).1)
            (Entries.modify key₁ (fun _ => ((f₁ v).run r).1) m)) := by
          rw [Entries.keys_modify, Entries.keys_modify]
        have hentries := moved_zip_modify_modify hne hv hw (hm₁ R names hs₁ hR₁)
          (hm₂ R names hs₂ hR₂)
        rcases mem_fresh_trans htarget with htarget | htarget
        · obtain ⟨v', hv', hzip⟩ := Entries.exists_mem_zip_of_get? hk hv
          rw [Entries.get?_modify_of_ne _ _ hne, Entries.get?_modify_self, hv] at hv'
          cases hv'
          exact .value hk hentries hzip hkeeps₁ (h₁ v hv r R names target hs₁ hR₁ htarget)
        · obtain ⟨w₁, hw₁, hzip⟩ := Entries.exists_mem_zip_of_get? hk hw
          rw [Entries.get?_modify_self, hw'] at hw₁
          cases hw₁
          exact .value hk hentries hzip hkeeps₂ (h₂ w hw _ R names target hs₂ hR₂ htarget)

theorem leading_entries {f : String → Node → StateM Registry Node}
    (hmoving : ∀ key, Moving o (g.under key) (f key)) {m : Entries Node}
    (h : ∀ p ∈ m, Leading o (g.under p.1) (f p.1) p.2 ∧ (g.Keeps p.1 ∨ f p.1 p.2 = pure p.2))
    {r : Registry} :
    let x := changed f m r
    ∀ names, fresh r x.2 ⊆ names → Keeps R r x.2 → target ∈ fresh r x.2 →
      ∃ p ∈ m.zip x.1, g.Keeps p.1.1 ∧ Leads o R target names (g.under p.1.1) p.1.2 p.2.2 := by
  induction m generalizing r with
  | nil =>
    intro x names _ _ htarget
    rw [show x.2 = r from rfl, fresh_refl] at htarget
    exact absurd htarget (Set.notMem_empty _)
  | cons p m ih =>
    obtain ⟨k, v⟩ := p
    intro x names hs hR htarget
    obtain ⟨hgrows, -⟩ := hmoving k v r
    obtain ⟨hgrows', -⟩ := moving_entries hmoving m ((f k v).run r).2
    obtain ⟨hhead, htail⟩ := List.forall_mem_cons.mp h
    rcases mem_fresh_trans htarget with htarget | htarget
    · have hs' := (fresh_left hgrows').trans hs
      refine ⟨((k, v), (k, ((f k v).run r).1)), List.mem_cons_self, ?_,
        hhead.1 r R names target hs' (hR.left hgrows') htarget⟩
      rcases hhead.2 with hkeeps | hpure
      · exact hkeeps
      · have hpure : f k v = pure v := hpure
        rw [hpure] at htarget
        have hempty : fresh r r = ∅ := fresh_refl r
        exact absurd (hempty ▸ htarget) (Set.notMem_empty _)
    · obtain ⟨q, hq, hlead⟩ := ih htail names ((fresh_right hgrows).trans hs) (hR.right hgrows) htarget
      exact ⟨q, List.mem_cons_of_mem _ hq, hlead⟩

theorem Leading.onEntries {f : String → Node → StateM Registry Node}
    (hmoving : ∀ key, Moving o (g.under key) (f key)) {n : Node}
    (h : ∀ m, n = .mapping m → ∀ p ∈ m,
      Leading o (g.under p.1) (f p.1) p.2 ∧ (g.Keeps p.1 ∨ f p.1 p.2 = pure p.2)) :
    Leading o g (Node.onEntries f) n := by
  cases n with
  | scalar | sequence => exact leading_pure g _
  | mapping m =>
    intro r R names target hs hR htarget
    rw [run_onEntries] at hs hR htarget ⊢
    obtain ⟨-, hentries⟩ := moving_entries hmoving m r
    obtain ⟨hk, hmoved⟩ := hentries R names hs hR
    obtain ⟨p, hp, hkeeps, hlead⟩ := leading_entries hmoving (h m rfl) names hs hR htarget
    exact .value hk hmoved hp hkeeps hlead

end

/-! ## From the paths -/

/-- No key of the mapping is taken for documentation. -/
def Undocumented (n : Node) : Prop :=
  ∀ m, n = .mapping m → ∀ p ∈ m, Equivalence.documentationKeys.contains p.1 = false

def PlainContent (holder : Node) : Prop :=
  ∀ types, holder.get? "content" = some types → Undocumented types

/-- No status and no media type of an operation is taken for documentation. -/
structure PlainOperation (op : Node) : Prop where
  statuses : ∀ responses, op.get? "responses" = some responses → Undocumented responses
  responses : ∀ m, op.get? "responses" = some (.mapping m) → ∀ p ∈ m, PlainContent p.2
  request : ∀ body, op.get? "requestBody" = some body → PlainContent body

/-- No path, status or media type is taken for documentation. -/
structure PlainPaths (n : Node) : Prop where
  keys : Undocumented n
  operations : ∀ m, n = .mapping m → ∀ p ∈ m, ∀ item, p.2 = .mapping item → ∀ q ∈ item,
    methods.contains q.1 = true → PlainOperation q.2

theorem leading_content {g : ReadAs} (hg : g ≠ .either) (name : String) {holder : Node}
    (h : PlainContent holder) : Leading o g (content o name) holder := by
  have hschema (type : String) : ((g.under "content").under type).under "schema" = .schema :=
    ReadAs.under_of_ne (ReadAs.under_ne_either (ReadAs.under_ne_either hg _) _) (by decide)
  have hpayload (type : String) : Moving o (((g.under "content").under type).under "schema")
      (payload o name) := by
    rw [hschema]
    exact moving_payload name
  intro r
  rw [content]
  cases holder.isReference with
  | true => exact leading_pure g holder r
  | false =>
    refine Leading.onChild (fun _ => by decide) (.onEntries fun type => .onChild (hpayload type))
      (fun types htypes => ?_) r
    refine .onEntries (fun type => .onChild (hpayload type)) fun m hm p hp => ⟨?_, .inl fun _ => ?_⟩
    · refine .onChild (fun _ => by decide) (hpayload p.1) fun schema _ => ?_
      rw [hschema]
      exact leading_payload name schema
    · exact h types htypes m hm p hp

theorem leading_operation {op : Node} (h : PlainOperation op) :
    Leading o .schema (operation o) op := by
  intro r
  rw [operation]
  cases operationName? op with
  | none => exact leading_pure _ op r
  | some name =>
    have hstatus (status : String) : (ReadAs.schema.under "responses").under status ≠ .either :=
      ReadAs.under_ne_either (by decide) status
    refine Leading.onChild_onChild (by decide) (fun _ => by decide) (fun _ => by decide)
      (.onEntries fun status => moving_content (hstatus status) _)
      (moving_content (by decide) (requestName name)) (fun responses hv => ?_)
      (fun body hv => leading_content (by decide) _ (h.request body hv)) r
    refine .onEntries (fun status => moving_content (hstatus status) _) fun m hm p hp =>
      ⟨leading_content (hstatus p.1) _ ?_, .inl fun _ => h.statuses responses hv m hm p hp⟩
    exact h.responses m (hm ▸ hv) p hp

theorem leading_pathItems {n : Node} (h : PlainPaths n) : Leading o .schema (pathItems o) n := by
  have hpath (path : String) : ReadAs.schema.under path ≠ .either :=
    ReadAs.under_ne_either (by decide) path
  refine .onEntries (fun path => .onEntries (moving_method (hpath path))) fun m hm p hp =>
    ⟨?_, .inl fun _ => h.keys m hm p hp⟩
  refine .onEntries (moving_method (hpath p.1)) fun item hitem q hq => ?_
  cases hmethod : methods.contains q.1 with
  | false => exact ⟨leading_pure _ _, .inr rfl⟩
  | true =>
    have hne : q.1 ≠ "properties" := fun he => by
      rw [he] at hmethod
      cases hmethod
    have hkeeps : ∀ key ∈ methods, Equivalence.documentationKeys.contains key = false := by decide
    refine ⟨?_, .inl fun _ => hkeeps q.1 (List.contains_iff_mem.mp hmethod)⟩
    rw [ReadAs.under_of_ne (hpath p.1) hne]
    exact leading_operation (h.operations m hm p hp item hitem q hq hmethod)

end InlineSchema.Extraction
