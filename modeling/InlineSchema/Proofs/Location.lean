import InlineSchema.Proofs.FirstDifference
import InlineSchema.Proofs.NormalForm

/-! # The place of the definitions

A reference is the pointer to a definition: the keys that lead to the table and then the name, each
with its escapes. Nothing is lost in it, so it tells both the place and the name. A place that is
given as text, on the other hand, is read without undoing escapes, and the pointer to a place is read
back as that place only if nothing in it was escaped.
-/
namespace InlineSchema

namespace Pointer

/-! ## Escaping as replacement -/

def replaceChar (c : Char) (text : List Char) (cs : List Char) : List Char :=
  cs.flatMap fun d => if d = c then text else [d]

def replacePair (first second new : Char) : List Char → List Char
  | c :: d :: cs =>
    if c = first ∧ d = second then new :: replacePair first second new cs
    else c :: replacePair first second new (d :: cs)
  | cs => cs

/-- To escape is to replace the tildes and then the slashes. -/
theorem escapeChars_eq_replaceChar (cs : List Char) :
    escapeChars cs = replaceChar '/' ['~', '1'] (replaceChar '~' ['~', '0'] cs) := by
  simp only [replaceChar]
  fun_induction escapeChars cs with
  | case1 => rfl
  | case2 cs ih => simp [ih]
  | case3 cs ih => simp [ih]
  | case4 c cs htilde hslash ih =>
    have htilde : c ≠ '~' := fun he => htilde he
    have hslash : c ≠ '/' := fun he => hslash he
    simp [ih, htilde, hslash]

theorem replacePair_cons_of_ne {first second new c : Char} {cs : List Char}
    (h : c = first → ∀ ds, cs ≠ second :: ds) :
    replacePair first second new (c :: cs) = c :: replacePair first second new cs := by
  cases cs with
  | nil => rfl
  | cons d cs => rw [replacePair, if_neg fun ⟨hc, hd⟩ => h hc cs (hd ▸ rfl)]

/-- A slash is not a digit, so the first replacement makes no new escape for the second. -/
theorem replacePair_slash_ne_zero {cs : List Char} (h : ∀ ds, cs ≠ '0' :: ds) (ds : List Char) :
    replacePair '~' '1' '/' cs ≠ '0' :: ds := by
  match cs with
  | [] => exact nofun
  | [c] => exact h ds
  | c :: d :: cs =>
    rw [replacePair]
    split
    · exact fun he => absurd (List.cons.inj he).1 (by decide)
    · exact fun he => h (d :: cs) (by rw [(List.cons.inj he).1])

/-- To undo the escapes is to put the slashes back and then the tildes. In the other order `~01` would
become a slash. -/
theorem unescapeChars_eq_replacePair (cs : List Char) :
    unescapeChars cs = replacePair '~' '0' '~' (replacePair '~' '1' '/' cs) := by
  fun_induction unescapeChars cs with
  | case1 => rfl
  | case2 cs ih =>
    have hslashes : replacePair '~' '1' '/' ('~' :: '0' :: cs) =
        '~' :: '0' :: replacePair '~' '1' '/' cs := by
      rw [replacePair_cons_of_ne (by simp), replacePair_cons_of_ne (by simp)]
    rw [hslashes, replacePair, if_pos ⟨rfl, rfl⟩, ih]
  | case3 cs ih =>
    rw [replacePair, if_pos ⟨rfl, rfl⟩, replacePair_cons_of_ne (by simp), ih]
  | case4 c cs hzero hone ih =>
    rw [replacePair_cons_of_ne fun hc ds hd => hone ds hc hd, replacePair_cons_of_ne, ih]
    exact fun hc => replacePair_slash_ne_zero fun ds hd => hzero ds hc hd

/-! ## Parts between slashes -/

/-- Parts without slashes can be told from their text. -/
theorem flatMap_slash_injective {parts parts' : List (List Char)} (h : ∀ part ∈ parts, '/' ∉ part)
    (h' : ∀ part ∈ parts', '/' ∉ part)
    (he : parts.flatMap ('/' :: ·) = parts'.flatMap ('/' :: ·)) : parts = parts' := by
  have hsplit := congrArg splitChars he
  rw [splitChars_flatMap h, splitChars_flatMap h'] at hsplit
  exact (List.cons.inj hsplit).2

/-- The segments of a pointer are its parts as they are written, without the empty ones. -/
theorem segments_pointer {parts : List (List Char)} (h : ∀ part ∈ parts, '/' ∉ part) {text : String}
    (htext : text.toList = '#' :: parts.flatMap ('/' :: ·)) :
    segments text = (parts.filter (!·.isEmpty)).map String.ofList := by
  have hdrop : text.toList.dropWhile (· == '#') = parts.flatMap ('/' :: ·) := by
    rw [htext, List.dropWhile_cons_of_pos rfl]
    cases parts with
    | nil => rfl
    | cons part parts => rfl
  rw [segments, hdrop, splitChars_flatMap h]
  rfl

theorem length_le_length_escapeChars (cs : List Char) : cs.length ≤ (escapeChars cs).length := by
  fun_induction escapeChars cs with
  | case1 => exact le_rfl
  | case2 cs ih => exact Nat.succ_le_succ (Nat.le_succ_of_le ih)
  | case3 cs ih => exact Nat.succ_le_succ (Nat.le_succ_of_le ih)
  | case4 c cs _ _ ih => exact Nat.succ_le_succ ih

/-- Only a text without tildes and slashes is its own escaped form. -/
theorem escapeChars_eq_self_iff (cs : List Char) : escapeChars cs = cs ↔ '~' ∉ cs ∧ '/' ∉ cs := by
  fun_induction escapeChars cs with
  | case1 => simp
  | case2 cs | case3 cs =>
    refine iff_of_false (fun he => ?_) (by simp)
    have hlong := length_le_length_escapeChars cs
    have hlength := congrArg List.length he
    simp only [List.length_cons] at hlength
    omega
  | case4 c cs htilde hslash ih =>
    have htilde : '~' ≠ c := fun he => htilde he.symm
    have hslash : '/' ≠ c := fun he => hslash he.symm
    simp [ih, htilde, hslash]

theorem escape_eq_self_iff (segment : String) :
    escape segment = segment ↔ '~' ∉ segment.toList ∧ '/' ∉ segment.toList := by
  rw [escape, ← escapeChars_eq_self_iff, ← String.toList_inj, String.toList_ofList]

theorem escape_injective {a b : String} (h : escape a = escape b) : a = b := by
  rw [← unescape_escape a, h, unescape_escape]

end Pointer

namespace Options

/-! ## The text of a reference -/

def writtenPath (o : Options) : List (List Char) :=
  o.definitionsPath.map fun s => (Pointer.escape s).toList

theorem slash_not_mem_writtenPath {o : Options} : ∀ part ∈ o.writtenPath, '/' ∉ part :=
  List.forall_mem_map.mpr fun s _ => Pointer.slash_not_mem_escape s

theorem writtenPath_inj {o q : Options} :
    o.writtenPath = q.writtenPath ↔ o.definitionsPath = q.definitionsPath := by
  apply List.map_inj_right
  exact fun a b h => Pointer.escape_injective (String.toList_injective h)

/-- What every reference starts with is a pointer whose last part is still open. -/
theorem refPrefixChars_append (o : Options) (rest : List Char) :
    o.refPrefixChars ++ rest = '#' :: (o.writtenPath ++ [rest]).flatMap ('/' :: ·) := by
  rw [refPrefixChars, writtenPath, List.cons_append]
  congr 1
  induction o.definitionsPath with
  | nil => simp
  | cons s path ih => simpa [Pointer.escape] using ih

theorem slash_not_mem_append {o : Options} {rest : List Char} (h : '/' ∉ rest) :
    ∀ part ∈ o.writtenPath ++ [rest], '/' ∉ part := by
  intro part hpart
  rcases List.mem_append.mp hpart with hpart | hpart
  · exact slash_not_mem_writtenPath part hpart
  · rwa [List.mem_singleton.mp hpart]

/-- Behind the beginnings of two places the texts agree only if the places and the rests do. -/
theorem refPrefixChars_append_inj {o q : Options} {rest rest' : List Char} (h : '/' ∉ rest)
    (h' : '/' ∉ rest') : o.refPrefixChars ++ rest = q.refPrefixChars ++ rest' ↔
      o.definitionsPath = q.definitionsPath ∧ rest = rest' := by
  rw [refPrefixChars_append, refPrefixChars_append, List.cons_inj_right, ← writtenPath_inj]
  constructor
  · intro he
    have hparts := Pointer.flatMap_slash_injective (slash_not_mem_append h)
      (slash_not_mem_append h') he
    obtain ⟨hpath, hrest⟩ := List.append_inj' hparts rfl
    exact ⟨hpath, List.singleton_inj.mp hrest⟩
  · rintro ⟨hpath, rfl⟩
    rw [hpath]

/-- A reference to a definition is the beginning and one part more. -/
theorem definitionName?_eq_some_iff {o : Options} {reference name : String} :
    o.definitionName? reference = some name ↔ ∃ rest, rest ≠ [] ∧ '/' ∉ rest ∧
      reference.toList = o.refPrefixChars ++ rest ∧
        name = String.ofList (Pointer.unescapeChars rest) := by
  simp only [definitionName?, Option.ite_none_right_eq_some, Bool.and_eq_true,
    List.isPrefixOf_iff_prefix, Bool.not_eq_true', List.isEmpty_eq_false_iff,
    List.contains_eq_mem, decide_eq_false_iff_not, Option.some.injEq]
  constructor
  · rintro ⟨⟨⟨⟨rest, hrest⟩, hne⟩, hslash⟩, rfl⟩
    rw [← hrest, List.drop_left] at hne hslash ⊢
    exact ⟨rest, hne, hslash, rfl, rfl⟩
  · rintro ⟨rest, hne, hslash, href, rfl⟩
    rw [href, List.drop_left]
    exact ⟨⟨⟨List.prefix_append _ _, hne⟩, hslash⟩, rfl⟩

theorem toList_refTo (o : Options) (name : String) :
    (o.refTo name).toList = o.refPrefixChars ++ (Pointer.escape name).toList := by
  rw [refTo, Pointer.escape, String.toList_ofList, String.toList_ofList]

theorem refTo_inj {o q : Options} {m n : String} :
    o.refTo m = q.refTo n ↔ o.definitionsPath = q.definitionsPath ∧ m = n := by
  rw [← String.toList_inj, toList_refTo, toList_refTo,
    refPrefixChars_append_inj (Pointer.slash_not_mem_escape m) (Pointer.slash_not_mem_escape n),
    String.toList_inj]
  exact and_congr_right fun _ => ⟨Pointer.escape_injective, congrArg _⟩

/-- What is recognised as a reference, and as whose, is up to the place of the table alone. -/
theorem definitionName?_congr {o q : Options} (h : o.definitionsPath = q.definitionsPath) :
    o.definitionName? = q.definitionName? := by
  have hprefix : o.refPrefixChars = q.refPrefixChars := by rw [refPrefixChars, refPrefixChars, h]
  funext reference
  rw [definitionName?, definitionName?, hprefix]

theorem definitionName?_refTo_eq_some_iff {o q : Options} {m n : String} :
    o.definitionName? (q.refTo m) = some n ↔
      o.definitionsPath = q.definitionsPath ∧ m ≠ "" ∧ m = n := by
  constructor
  · intro h
    obtain ⟨rest, hne, hslash, href, rfl⟩ := definitionName?_eq_some_iff.mp h
    rw [toList_refTo] at href
    obtain ⟨hpath, rfl⟩ :=
      (refPrefixChars_append_inj (Pointer.slash_not_mem_escape m) hslash).mp href
    refine ⟨hpath.symm, ?_, (Pointer.unescape_escape m).symm⟩
    rintro rfl
    exact hne rfl
  · rintro ⟨hpath, hne, rfl⟩
    rw [definitionName?_congr hpath, definitionName?_refTo q hne]

/-! ## References tell the place and the name -/

/-- Options that differ in the place of the table recognise none of each other's references. -/
theorem apart_of_definitionsPath_ne {o q : Options} (h : o.definitionsPath ≠ q.definitionsPath)
    (n : String) : o.refTo n ≠ q.refTo n ∧ o.definitionName? (q.refTo n) = none := by
  refine ⟨fun he => h (refTo_inj.mp he).1, Option.eq_none_iff_forall_ne_some.mpr ?_⟩
  exact fun name hname => h (definitionName?_refTo_eq_some_iff.mp hname).1

theorem expansion?_of_definitionName? {table : Entries Json} {o : Options} {visited : List String}
    {m : Entries Json} {target : String}
    (hm : Entries.get? m Node.refKey = some (.scalar (.string target)))
    (h : o.definitionName? target = none) : Equivalence.expansion? table o visited m = none := by
  simp [Equivalence.expansion?, hm, Json.text?, h]

/-- A reference is recognised only for the place that it was made for, and there as the name that it
was made for. No two places and no two names share a reference, and for any other place it is not
resolved. -/
theorem refTo_tells (o q : Options) (n : String) :
    o.definitionName? (q.refTo n) =
        (if o.definitionsPath = q.definitionsPath ∧ n ≠ "" then some n else none) ∧
      (∀ m, o.refTo m = q.refTo n ↔ o.definitionsPath = q.definitionsPath ∧ m = n) ∧
      (o.definitionsPath ≠ q.definitionsPath → ∀ table visited m,
        Entries.get? m Node.refKey = some (.scalar (.string (q.refTo n))) →
          Equivalence.resolve table o visited (.object m) = .object m) := by
  refine ⟨?_, fun m => refTo_inj, fun hne table visited m hm => ?_⟩
  · split
    next h => exact definitionName?_refTo_eq_some_iff.mpr ⟨h.1, h.2, rfl⟩
    next h =>
      rw [Option.eq_none_iff_forall_ne_some]
      intro name hname
      obtain ⟨hpath, hempty, -⟩ := definitionName?_refTo_eq_some_iff.mp hname
      exact h ⟨hpath, hempty⟩
  · have hnone := (apart_of_definitionsPath_ne hne n).2
    have href : Equivalence.hasReference m = true := by rw [Equivalence.hasReference, hm]; rfl
    rw [Equivalence.resolve_object_of_none (expansion?_of_definitionName? hm hnone), if_pos href]

/-- A reference into the table `d/~1` is none into the table `d`. -/
theorem refTo_tells_extendedPath :
    let o : Options := ⟨["d"], .yaml⟩
    let q : Options := ⟨["d", "~1"], .yaml⟩
    o.definitionsPath ≠ q.definitionsPath ∧ o.definitionName? (q.refTo "A") = none ∧
      Equivalence.resolve [("A", .object [])] o [] (Equivalence.reference (q.refTo "A")) =
        Equivalence.reference (q.refTo "A") := by
  intro o q
  have hne : o.definitionsPath ≠ q.definitionsPath := by decide
  obtain ⟨hname, -, hstays⟩ := refTo_tells o q "A"
  refine ⟨hne, hname.trans (if_neg fun h => hne h.1), hstays hne _ _ _ rfl⟩

/-! ## A place given as a pointer -/

theorem toList_refPrefix (o : Options) :
    o.refPrefix.toList = '#' :: (o.writtenPath ++ [[]]).flatMap ('/' :: ·) := by
  rw [refPrefix, String.toList_ofList, ← refPrefixChars_append, List.append_nil]

/-- The pointer to a place, with or without a slash at the end. -/
def IsPointer (o : Options) (text : String) : Prop :=
  text = o.refPrefix ∨ text ++ "/" = o.refPrefix

theorem IsPointer.exists_parts {o : Options} {text : String} (h : o.IsPointer text) :
    ∃ tail, (tail = [] ∨ tail = [[]]) ∧
      text.toList = '#' :: (o.writtenPath ++ tail).flatMap ('/' :: ·) := by
  rcases h with rfl | h
  · exact ⟨[[]], .inr rfl, toList_refPrefix o⟩
  · refine ⟨[], .inl rfl, ?_⟩
    have hlist := congrArg String.toList h
    rw [toList_refPrefix, String.toList_append, List.flatMap_append, ← List.cons_append] at hlist
    rw [List.append_nil]
    exact List.append_cancel_right hlist

/-- From its pointer a place is read with all keys as they were written. -/
theorem definitionsPath_withDefinitions {o : Options} {text : String} (h : o.IsPointer text)
    (hne : ∀ s ∈ o.definitionsPath, s ≠ "") (q : Options) :
    (q.withDefinitions text).definitionsPath = o.definitionsPath.map Pointer.escape := by
  obtain ⟨tail, htail, htext⟩ := h.exists_parts
  have hparts : ∀ part ∈ o.writtenPath ++ tail, '/' ∉ part := by
    intro part hpart
    rcases List.mem_append.mp hpart with hpart | hpart
    · exact slash_not_mem_writtenPath part hpart
    · rcases htail with rfl | rfl
      · cases hpart
      · rw [List.mem_singleton.mp hpart]
        exact List.not_mem_nil
  have hkept : (o.writtenPath ++ tail).filter (!·.isEmpty) = o.writtenPath := by
    have htail : tail.filter (!·.isEmpty) = [] := by rcases htail with rfl | rfl <;> rfl
    rw [List.filter_append, htail, List.append_nil, List.filter_eq_self]
    refine List.forall_mem_map.mpr fun s hs => ?_
    have hescape : (Pointer.escape s).toList ≠ [] := fun he =>
      hne s hs (Pointer.escape_injective (String.toList_injective he))
    simpa using hescape
  rw [withDefinitions, Pointer.segments_pointer hparts htext, hkept, writtenPath, List.map_map]
  exact List.map_congr_left fun s _ => String.ofList_toList

theorem map_escape_eq_self_iff (path : List String) :
    path.map Pointer.escape = path ↔ ∀ s ∈ path, '~' ∉ s.toList ∧ '/' ∉ s.toList := by
  calc path.map Pointer.escape = path
    _ ↔ path.map Pointer.escape = path.map id := by rw [List.map_id]
    _ ↔ ∀ s ∈ path, Pointer.escape s = s := List.map_inj_left
    _ ↔ ∀ s ∈ path, '~' ∉ s.toList ∧ '/' ∉ s.toList :=
      forall₂_congr fun s _ => Pointer.escape_eq_self_iff s

/-- The pointer to a place is read back as the place if no key on the way has a tilde or a slash, and
then all that depends on the place is as before. If one has, the keys are those of the pointer, and
the references for the two places have nothing to do with each other. -/
theorem withDefinitions_pointer (o q : Options) (text : String) (h : o.IsPointer text)
    (hne : ∀ s ∈ o.definitionsPath, s ≠ "") :
    let r := q.withDefinitions text
    r.definitionsPath = o.definitionsPath.map Pointer.escape ∧
      ((∀ s ∈ o.definitionsPath, '~' ∉ s.toList ∧ '/' ∉ s.toList) →
        r = { q with definitionsPath := o.definitionsPath } ∧ (∀ n, r.refTo n = o.refTo n) ∧
          (∀ reference, r.definitionName? reference = o.definitionName? reference) ∧
            ∀ doc, Equivalence.definitions r doc = Equivalence.definitions o doc) ∧
      (¬(∀ s ∈ o.definitionsPath, '~' ∉ s.toList ∧ '/' ∉ s.toList) →
        r.definitionsPath ≠ o.definitionsPath ∧ ∀ n, r.refTo n ≠ o.refTo n ∧
          r.definitionName? (o.refTo n) = none ∧ o.definitionName? (r.refTo n) = none) := by
  intro r
  have hpath : r.definitionsPath = o.definitionsPath.map Pointer.escape :=
    definitionsPath_withDefinitions h hne q
  refine ⟨hpath, fun hplain => ?_, fun hescaped => ?_⟩
  · have hsame : r.definitionsPath = o.definitionsPath :=
      hpath.trans ((map_escape_eq_self_iff _).mpr hplain)
    refine ⟨?_, fun n => refTo_inj.mpr ⟨hsame, rfl⟩, ?_, fun doc => ?_⟩
    · rw [← hsame]
      rfl
    · exact congrFun (definitionName?_congr hsame)
    · rw [Equivalence.definitions, Equivalence.definitions, hsame]
  · have hother : r.definitionsPath ≠ o.definitionsPath := fun hsame =>
      hescaped ((map_escape_eq_self_iff _).mp (hpath.symm.trans hsame))
    refine ⟨hother, fun n => ?_⟩
    obtain ⟨href, hname⟩ := apart_of_definitionsPath_ne hother n
    exact ⟨href, hname, (apart_of_definitionsPath_ne (Ne.symm hother) n).2⟩

/-- The pointer without the slash at its end, for a place with two keys. -/
theorem withDefinitions_pointer_twoKeys :
    default.IsPointer "#/components/schemas" ∧
      (⟨["d"], .json⟩ : Options).withDefinitions "#/components/schemas" =
        ⟨["components", "schemas"], .json⟩ := by
  have hpointer : default.IsPointer "#/components/schemas" := .inr (by decide)
  have hback := (withDefinitions_pointer default ⟨["d"], .json⟩ "#/components/schemas" hpointer
    (by decide)).2.1 (by decide)
  exact ⟨hpointer, hback.1⟩

/-- The pointer to the table under `a~b` is read as a path to the key `a~0b`. -/
theorem withDefinitions_pointer_tilde :
    let o : Options := ⟨["a~b"], .yaml⟩
    o.IsPointer "#/a~0b/" ∧ (∀ s ∈ o.definitionsPath, s ≠ "") ∧
      (o.withDefinitions "#/a~0b/").definitionsPath = ["a~0b"] ∧
        (o.withDefinitions "#/a~0b/").definitionName? (o.refTo "Pet") = none := by
  refine ⟨.inl ?_, ?_, ?_, ?_⟩ <;> decide

end Options
end InlineSchema
