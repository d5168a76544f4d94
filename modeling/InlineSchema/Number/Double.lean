/-!
# Doubles

A finite double is kept exactly, as `± mantissa * 2 ^ exponent` with a mantissa below `2 ^ 53`
and the least exponent that holds it, but never below `-1074`. A decimal is read by rounding its
exact value to the nearest double, a half to the even neighbour.
-/

namespace InlineSchema

inductive Double where
  | nan
  | infinite (negative : Bool)
  | finite (negative : Bool) (mantissa : Nat) (exponent : Int)
deriving DecidableEq, Repr, Inhabited

namespace Double

def leastExponent : Int := -1074
def greatestExponent : Int := 971

def zero (negative : Bool) : Double := .finite negative 0 leastExponent

def isFinite : Double → Bool
  | .finite .. => true
  | _ => false

/-- Equality of numbers: the two zeros are one number, and `nan` is itself. -/
def same : Double → Double → Bool
  | .finite _ 0 _, .finite _ 0 _ => true
  | x, y => x == y

/-- The nearest whole number to `num / den`, a half to the even neighbour. -/
def roundDiv (num den : Nat) : Nat :=
  let q := num / den
  let r := num % den
  if 2 * r < den then q else if den < 2 * r then q + 1 else q + q % 2

def scaleTwo (num den : Nat) (e : Int) : Nat × Nat :=
  if 0 ≤ e then (num, den * Nat.pow 2 e.toNat) else (num * Nat.pow 2 (-e).toNat, den)

def leadingBit (num den : Nat) : Int :=
  let k : Int := (num.log2 : Int) - den.log2
  let (n, d) := scaleTwo num den k
  if d ≤ n then k else k - 1

/-- The double nearest to `± num / den`. -/
def ofRatio (negative : Bool) (num den : Nat) : Double :=
  if num = 0 then zero negative
  else
    let e := max leastExponent (leadingBit num den - 52)
    let (n, d) := scaleTwo num den e
    let m := roundDiv n d
    let (m, e) := if m = Nat.pow 2 53 then (Nat.pow 2 52, e + 1) else (m, e)
    if greatestExponent < e then .infinite negative else .finite negative m e

def decimalLength (n : Nat) : Nat := (Nat.toDigits 10 n).length

/-- The double nearest to `± digits * 10 ^ scale`. Beyond `10 ^ 310` and below `10 ^ -330` the
answer is known without the power. -/
def ofDecimal (negative : Bool) (digits : Nat) (scale : Int) : Double :=
  let lead := decimalLength digits + scale
  if digits = 0 || lead < -330 then zero negative
  else if 310 < lead then .infinite negative
  else if 0 ≤ scale then ofRatio negative (digits * Nat.pow 10 scale.toNat) 1
  else ofRatio negative digits (Nat.pow 10 (-scale).toNat)

end Double

end InlineSchema
