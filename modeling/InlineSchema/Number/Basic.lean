import InlineSchema.Number.Shortest

/-!
# Numbers of a document

A number is a whole number or a double, and the two kinds never mix: `1` and `1.0` differ. The
text of a double has the shortest digits that read back. Where digits are written positionally
does not depend on the format; the sign of a large exponent and the names of the values that are
not finite do.
-/

namespace InlineSchema

inductive Number where
  | integer (value : Int)
  | float (value : Double)
deriving DecidableEq, Repr, Inhabited

/-- What the formats write differently. -/
structure FloatStyle where
  exponentPlus : String
  nan : String
  infinity : String
  negativeInfinity : String

namespace FloatStyle

/-- `1e16`, `.nan`, `.inf` and `-.inf`. -/
def yaml : FloatStyle := ⟨"", ".nan", ".inf", "-.inf"⟩

/-- `1e+16`; JSON has no text for a value that is not finite. -/
def json : FloatStyle := ⟨"+", "null", "null", "null"⟩

end FloatStyle

namespace Decimal

def zeros (n : Nat) : String := String.ofList (List.replicate n '0')

/-- Positional where the leading digit stands for `10 ^ -5` to `10 ^ 15`, and always with a
fractional part; otherwise with an exponent. -/
def text (style : FloatStyle) (d : Decimal) : String :=
  let digits := Nat.toDigits 10 d.digits
  let lead : Int := digits.length - 1 + d.exponent
  let join (whole fraction : List Char) := String.ofList whole ++ "." ++ String.ofList fraction
  if lead < -5 ∨ 15 < lead then
    let mantissa := match digits with
      | c :: (r :: rs) => join [c] (r :: rs)
      | cs => String.ofList cs
    let sign := if 0 ≤ lead then style.exponentPlus else ""
    mantissa ++ "e" ++ sign ++ toString lead
  else if 0 ≤ d.exponent then
    String.ofList digits ++ zeros d.exponent.toNat ++ ".0"
  else if 0 ≤ lead then
    join (digits.take (lead + 1).toNat) (digits.drop (lead + 1).toNat)
  else "0." ++ zeros (-lead - 1).toNat ++ String.ofList digits

end Decimal

def Double.text (style : FloatStyle) : Double → String
  | .nan => style.nan
  | .infinite false => style.infinity
  | .infinite true => style.negativeInfinity
  | .finite negative m e => (if negative then "-" else "") ++ (Double.shortest m e).text style

namespace Number

def text (style : FloatStyle) : Number → String
  | .integer n => toString n
  | .float x => x.text style

def same : Number → Number → Bool
  | .integer m, .integer n => m == n
  | .float x, .float y => x.same y
  | _, _ => false

end Number

end InlineSchema
