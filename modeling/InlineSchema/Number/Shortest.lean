import InlineSchema.Number.Double

/-!
# Shortest decimals

The reals that round to a double form an interval, whose ends belong to it when the mantissa is
even. `Double.shortest` takes the coarsest decimal grid with a point in that interval and, of the
two grid points around the double, the nearer one; on a tie the even one.
-/

namespace InlineSchema

structure Decimal where
  digits : Nat
  exponent : Int
deriving DecidableEq, Repr, Inhabited

namespace Double

/-- The order of `c * 10 ^ g` and `x * 2 ^ e`, by cross multiplication. -/
def compareDecimal (c : Nat) (g : Int) (x : Nat) (e : Int) : Ordering :=
  compare (c * Nat.pow 10 g.toNat * Nat.pow 2 (-e).toNat)
    (x * Nat.pow 2 e.toNat * Nat.pow 10 (-g).toNat)

def leadingDigit (m : Nat) (e : Int) : Int :=
  let num := m * Nat.pow 2 e.toNat
  let den := Nat.pow 2 (-e).toNat
  if den ≤ num then (decimalLength (num / den) : Int) - 1
  else -(decimalLength ((den - 1) / num) : Int)

/-- The double `m * 2 ^ e` in units of `2 ^ (e - 2)`, with the distances to the midpoints below
and above it. The gap below a power of two is half the gap above. -/
def halfGapBelow (m : Nat) (e : Int) : Nat :=
  if m = Nat.pow 2 52 ∧ leastExponent < e then 1 else 2

def reads (m : Nat) (e : Int) (c : Nat) (g : Int) : Bool :=
  let low := compareDecimal c g (4 * m - halfGapBelow m e) (e - 2)
  let high := compareDecimal c g (4 * m + 2) (e - 2)
  if m % 2 = 0 then low != .lt && high != .gt else low == .gt && high == .lt

/-- The grid point of `10 ^ g` that is to stand for `m * 2 ^ e`, if one reads back. -/
def onGrid (m : Nat) (e g : Int) : Option Decimal :=
  let num := m * Nat.pow 2 e.toNat * Nat.pow 10 (-g).toNat
  let den := Nat.pow 2 (-e).toNat * Nat.pow 10 g.toNat
  let c := num / den
  match reads m e c g, reads m e (c + 1) g with
  | false, false => none
  | true, false => some ⟨c, g⟩
  | false, true => some ⟨c + 1, g⟩
  | true, true => some ⟨roundDiv num den, g⟩

/-- Moves trailing zeros into the exponent; `fuel` bounds their number. -/
def trimZeros : (fuel : Nat) → Decimal → Decimal
  | 0, d => d
  | fuel + 1, d =>
    if d.digits ≠ 0 ∧ d.digits % 10 = 0 then trimZeros fuel ⟨d.digits / 10, d.exponent + 1⟩ else d

/-- The shortest decimal that reads back as `m * 2 ^ e`; seventeen digits always suffice. -/
def shortest (m : Nat) (e : Int) : Decimal :=
  if m = 0 then ⟨0, 0⟩
  else
    let lead := leadingDigit m e
    let grids := (List.range 17).map fun (n : Nat) => lead - (n : Int)
    trimZeros 20 ((grids.findSome? (onGrid m e)).getD ⟨m, e⟩)

end Double

end InlineSchema
