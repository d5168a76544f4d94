import InlineSchema.Proofs.Value
import InlineSchema.Yaml.Printer
import Mathlib

/-! # How a written text begins

Writing only adds to a text, so a text begins with what is written first. A sequence with items
begins with the indicator of its first item, and a mapping with entries with its first key, which
never looks like the first key of a JSON object.
-/
namespace InlineSchema

namespace Yaml

/-! ## A pen only adds -/

/-- What the first pen has written is still there, and the second has perhaps written more. -/
def Pen.Extends (p q : Pen) : Prop := p.text.toList <+: q.text.toList

namespace Pen

variable {p q : Pen}

theorem Extends.refl (p : Pen) : p.Extends p := List.prefix_rfl

theorem Extends.trans {r : Pen} (h : p.Extends q) (h' : q.Extends r) : p.Extends r :=
  List.IsPrefix.trans h h'

theorem extends_put (p : Pen) (s : String) : p.Extends (p.put s) := by
  simp [Extends, put]

theorem extends_putBreak (p : Pen) (c : Char) : p.Extends (p.putBreak c) := by
  simp [Extends, putBreak]

theorem extends_space (p : Pen) : p.Extends p.space := by
  unfold space
  split
  · exact .refl p
  · exact extends_put p " "

theorem extends_startLine (p : Pen) (indent : Nat) : p.Extends (p.startLine indent) := by
  unfold startLine
  split
  · exact (extends_putBreak p '\n').trans (extends_put _ _)
  · exact extends_put p _

theorem extends_indicator (p : Pen) (s : String) (asIndent : Bool) :
    p.Extends (p.indicator s asIndent) := (extends_space p).trans (extends_put p.space s)

theorem extends_close (p : Pen) (s : String) : p.Extends (p.close s) := extends_put p s

theorem extends_putLines (indent : Nat) (encode : Char → String) (cs : List Char) :
    ∀ (p : Pen) (broken : Bool), p.Extends (p.putLines indent encode broken cs).1 := by
  induction cs with
  | nil => exact fun p _ => .refl p
  | cons c cs ih =>
    intro p broken
    rw [putLines]
    split
    · exact (extends_putBreak p c).trans (ih { p.putBreak c with atIndent := true } true)
    · have hline : p.Extends (if broken then p.startLine indent else p) := by
        split
        · exact extends_startLine p indent
        · exact .refl p
      have hrest := ih { (if broken then p.startLine indent else p).put (encode c) with
        atIndent := false } false
      exact (hline.trans (extends_put _ (encode c))).trans hrest

theorem extends_tag (p : Pen) (tag : Option String) : p.Extends (p.tag tag) := by
  unfold Pen.tag
  cases tag with
  | none => exact .refl p
  | some t =>
    dsimp only
    split
    · exact ((extends_indicator p "!<" false).trans (extends_close _ _)).trans (extends_close _ _)
    · exact (extends_space p).trans (extends_close _ _)

def opening (style : ScalarStyle) (text : String) : String :=
  match style with
  | .plain => ""
  | .singleQuoted => "'"
  | .doubleQuoted => "\""
  | .literal | .folded => literalHeader text.toList

theorem extends_scalar_of_ne {style : ScalarStyle} (h : style ≠ .plain) (p : Pen) (indent : Nat)
    (text : String) :
    (p.indicator (opening style text) false).Extends (p.scalar style indent text) := by
  cases style with
  | plain => exact absurd rfl h
  | singleQuoted =>
    have hlines := extends_putLines indent (fun c => if c == '\'' then "''" else c.toString)
      text.toList (p.indicator "'" false) false
    dsimp only [scalar]
    split
    · exact (hlines.trans (extends_startLine _ indent)).trans (extends_close _ _)
    · exact hlines.trans (extends_close _ _)
  | doubleQuoted => exact (extends_put _ _).trans (extends_close _ _)
  | literal | folded =>
    refine (extends_putBreak (p.indicator (literalHeader text.toList) false) '\n').trans ?_
    exact extends_putLines indent Char.toString text.toList
      { (p.indicator (literalHeader text.toList) false).putBreak '\n' with
        afterBlank := true, atIndent := true } true

theorem extends_scalar (p : Pen) (style : ScalarStyle) (indent : Nat) (text : String) :
    p.Extends (p.scalar style indent text) := by
  by_cases h : style = .plain
  · subst h
    exact (extends_space p).trans (extends_put _ text)
  · exact (extends_indicator p _ false).trans (extends_scalar_of_ne h p indent text)

end Pen

namespace Value

open Pen

mutual

theorem extends_write (indent : Option Nat) (inMapping simpleKey : Bool) (tag : Option String) :
    ∀ (v : Value) (p : Pen), p.Extends (write indent inMapping simpleKey tag v p)
  | .scalar s, p => by
    rw [write]
    exact (extends_tag p tag).trans (extends_scalar _ _ _ _)
  | .sequence items, p => by
    rw [write]
    split
    · exact ((extends_tag p tag).trans (extends_indicator _ _ _)).trans (extends_close _ _)
    · exact (extends_tag p tag).trans (extends_writeItems _ items _)
  | .mapping entries, p => by
    rw [write]
    split
    · exact ((extends_tag p tag).trans (extends_indicator _ _ _)).trans (extends_close _ _)
    · exact (extends_tag p tag).trans (extends_writeEntries _ entries _)
  | .tagged t v, p => by
    rw [write]
    exact extends_write indent inMapping simpleKey (some t) v p

theorem extends_writeItems (indent : Nat) :
    ∀ (items : List Value) (p : Pen), p.Extends (writeItems indent items p)
  | [], p => .refl p
  | x :: xs, p => by
    rw [writeItems]
    exact (((extends_startLine p indent).trans (extends_indicator _ _ _)).trans
      (extends_write _ _ _ _ x _)).trans (extends_writeItems indent xs _)

theorem extends_writeEntries (indent : Nat) :
    ∀ (entries : List (Value × Value)) (p : Pen), p.Extends (writeEntries indent entries p)
  | [], p => .refl p
  | (k, v) :: xs, p => by
    rw [writeEntries]
    have hkey := extends_startLine p indent
    split
    · exact (((hkey.trans (extends_write _ _ _ _ k _)).trans (extends_close _ _)).trans
        (extends_write _ _ _ _ v _)).trans (extends_writeEntries indent xs _)
    · exact (((((hkey.trans (extends_indicator _ _ _)).trans (extends_write _ _ _ _ k _)).trans
        (extends_startLine _ _)).trans (extends_indicator _ _ _)).trans
        (extends_write _ _ _ _ v _)).trans (extends_writeEntries indent xs _)

end

/-! ## How the text of a collection begins -/

/-- The text begins with this character, which is not the brace that begins a JSON object. -/
def Begins (c : Char) (p : Pen) : Prop := [c] <+: p.text.toList ∧ c ≠ '\x7b'

theorem Begins.extends {c : Char} {p q : Pen} (h : Begins c p) (hpq : p.Extends q) : Begins c q :=
  ⟨h.1.trans hpq, h.2⟩

def Fresh (p : Pen) : Prop := p.text = "" ∧ p.afterBlank = true

theorem begins_indicator {p : Pen} (hp : Fresh p) {s : String} {c : Char} {cs : List Char}
    (hs : s.toList = c :: cs) (hc : c ≠ '\x7b') (asIndent : Bool) :
    Begins c (p.indicator s asIndent) := by
  refine ⟨?_, hc⟩
  simp [Pen.indicator, Pen.space, Pen.put, hp.1, hp.2, hs]

theorem plainHolds_of_chooseStyle {preferred : ScalarStyle} {simpleKey : Bool} {cs : List Char}
    (h : chooseStyle preferred simpleKey cs = .plain) : plainHolds cs = true := by
  unfold chooseStyle at h
  cases preferred <;> (simp only at h; split_ifs at h <;> simp_all)

theorem head_of_plainHolds {c : Char} {cs : List Char} (h : plainHolds (c :: cs) = true) :
    c ≠ '\x7b' := by
  rintro rfl
  simp [plainHolds, hasIndicators, indicatorsAtStart] at h

theorem exists_opening {style : ScalarStyle} (h : style ≠ .plain) (text : String) :
    ∃ c cs, (Pen.opening style text).toList = c :: cs ∧ c ≠ '\x7b' := by
  cases style with
  | plain => exact absurd rfl h
  | singleQuoted => exact ⟨'\'', [], by simp [Pen.opening], by decide⟩
  | doubleQuoted => exact ⟨'"', [], by simp [Pen.opening], by decide⟩
  | literal | folded => exact ⟨'|', _, by simp [Pen.opening, literalHeader]; rfl, by decide⟩

/-- A key that is a scalar begins with something else than a brace. -/
theorem begins_scalar {p : Pen} (hp : Fresh p) {style : ScalarStyle} {indent : Nat} {text : String}
    (hstyle : style = .plain → plainHolds text.toList = true) :
    ∃ c, Begins c ((p.scalar style indent text).close ":") := by
  by_cases h : style = .plain
  · subst h
    cases htext : text.toList with
    | nil =>
      refine ⟨':', ?_, by decide⟩
      simp [Pen.scalar, Pen.close, Pen.space, Pen.put, hp.1, hp.2, htext]
    | cons c cs =>
      refine ⟨c, ?_, head_of_plainHolds (htext ▸ hstyle rfl)⟩
      simp [Pen.scalar, Pen.close, Pen.space, Pen.put, hp.1, hp.2, htext]
  · obtain ⟨c, cs, hopening, hc⟩ := exists_opening h text
    refine ⟨c, (begins_indicator hp hopening hc false).extends ?_⟩
    exact (extends_scalar_of_ne h p indent text).trans (extends_close _ _)

theorem begins_tag {p : Pen} (hp : Fresh p) (t : String) : ∃ c, Begins c (p.tag (some t)) := by
  refine ⟨'!', ?_⟩
  unfold Pen.tag
  dsimp only
  split
  · have hverbatim := begins_indicator hp (s := "!<") rfl (by decide) false
    exact hverbatim.extends ((extends_close _ _).trans (extends_close _ _))
  · refine ⟨?_, by decide⟩
    simp [Pen.close, Pen.space, Pen.put, hp.1, hp.2]

/-- Whatever has a tag begins with it. -/
theorem begins_write_tag {p : Pen} (hp : Fresh p) (indent : Option Nat)
    (inMapping simpleKey : Bool) (v : Value) (t : String) :
    ∃ c, Begins c (write indent inMapping simpleKey (some t) v p) := by
  induction v using Value.induct generalizing t with
  | scalar s =>
    rw [write]
    exact (begins_tag hp t).imp fun c h => h.extends (extends_scalar _ _ _ _)
  | sequence items =>
    rw [write]
    refine (begins_tag hp t).imp fun c h => ?_
    split
    · exact h.extends ((extends_indicator _ _ _).trans (extends_close _ _))
    · exact h.extends (extends_writeItems _ items _)
  | mapping entries =>
    rw [write]
    refine (begins_tag hp t).imp fun c h => ?_
    split
    · exact h.extends ((extends_indicator _ _ _).trans (extends_close _ _))
    · exact h.extends (extends_writeEntries _ entries _)
  | tagged t' v ih =>
    rw [write]
    exact ih t'

def LikeObject (cs : List Char) : Prop := ['\x7b', '"'] <+: cs

theorem Begins.not_likeObject {c : Char} {p : Pen} (h : Begins c p) :
    ¬LikeObject p.text.toList := by
  obtain ⟨⟨rest, hc⟩, hne⟩ := h
  rw [LikeObject, ← hc]
  intro hbrace
  exact hne (List.cons_prefix_cons.mp hbrace).1.symm

def firstKey (k : Value) : Pen :=
  let p := Pen.empty.startLine 0
  if isSimpleKey none k then (write (some 0) true true none k p).close ":" else p.indicator "?" true

theorem firstKey_extends (k v : Value) (es : List (Value × Value)) :
    (firstKey k).Extends
      ((write none false false none (.mapping ((k, v) :: es)) .empty).startLine 0) := by
  refine Extends.trans ?_ (extends_startLine _ 0)
  rw [write, if_neg (by simp), writeEntries]
  unfold firstKey
  split
  · exact (extends_write _ _ _ _ v _).trans (extends_writeEntries _ es _)
  · exact ((((extends_write _ _ _ _ k _).trans (extends_startLine _ _)).trans
      (extends_indicator _ _ _)).trans (extends_write _ _ _ _ v _)).trans
      (extends_writeEntries _ es _)

theorem fresh_start : Fresh (Pen.empty.startLine 0) := ⟨rfl, rfl⟩

/-- Only an empty mapping begins with a brace, and after it comes another. -/
theorem firstKey_begins (k : Value) :
    (∃ c, Begins c (firstKey k)) ∨ ['\x7b', '\x7d'] <+: (firstKey k).text.toList := by
  unfold firstKey
  dsimp only
  split
  next hsimple =>
    cases k with
    | scalar s =>
      rw [write]
      exact .inl (begins_scalar fresh_start plainHolds_of_chooseStyle)
    | tagged t v =>
      rw [write]
      exact .inl ((begins_write_tag fresh_start _ _ _ v t).imp fun c h =>
        h.extends (extends_close _ _))
    | sequence items =>
      rw [isSimpleKey, Bool.and_eq_true, List.isEmpty_iff] at hsimple
      rw [write, hsimple.1]
      exact .inl ⟨'[', by decide, by decide⟩
    | mapping entries =>
      rw [isSimpleKey, Bool.and_eq_true, List.isEmpty_iff] at hsimple
      rw [write, hsimple.1]
      exact .inr (by decide)
  next => exact .inl ⟨'?', begins_indicator fresh_start rfl (by decide) true⟩

/-- A mapping with entries is not written like a JSON object with entries. -/
theorem not_likeObject_print (k v : Value) (es : List (Value × Value)) :
    ¬LikeObject (print (.mapping ((k, v) :: es))).toList := by
  have hextends := firstKey_extends k v es
  rcases firstKey_begins k with ⟨c, hc⟩ | hbraces
  · exact (hc.extends hextends).not_likeObject
  · intro hobject
    obtain ⟨rest, hrest⟩ := hbraces.trans hextends
    rw [LikeObject, print, ← hrest] at hobject
    simp at hobject

theorem begins_print_sequence (x : Value) (xs : List Value) :
    ['-'] <+: (print (.sequence (x :: xs))).toList := by
  have hindicator := begins_indicator fresh_start (s := "-") rfl (by decide) true
  refine hindicator.1.trans (Extends.trans ?_ (extends_startLine _ 0))
  rw [write, if_neg (by simp), writeItems]
  exact (extends_write _ _ _ _ x _).trans (extends_writeItems _ xs _)

end Value
end Yaml

end InlineSchema
