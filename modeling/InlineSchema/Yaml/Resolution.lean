import InlineSchema.Scalar
import InlineSchema.Yaml.Charset
import InlineSchema.Yaml.Octets

/-!
# What a plain scalar stands for

A text is tried as null, a boolean, a whole number and a double, in this order, and is a string
otherwise. Whole numbers have 64 bits: one that needs more, but fits in 128, is refused, and a
still larger one is a double. A double too large to be finite is a string again.
-/

namespace InlineSchema.Yaml

def isNull (text : String) : Bool := ["null", "Null", "NULL", "~"].contains text

def bool? (text : String) : Option Bool :=
  if ["true", "True", "TRUE"].contains text then some true
  else if ["false", "False", "FALSE"].contains text then some false
  else none

/-! ## Whole numbers -/

def natural? (base : Nat) (digits : List Char) : Option Nat :=
  if digits.isEmpty then none
  else digits.foldlM (fun n c => (hexDigit? c).bind fun d =>
    if d < base then some (base * n + d) else none) 0

def withoutPlus : List Char → List Char
  | '+' :: cs => cs
  | cs => cs

/-- A zero and more digits after it, with or without a sign, such as `007`. -/
def isPadded (cs : List Char) : Bool :=
  let digits := match cs with
    | '+' :: ds => ds
    | '-' :: ds => ds
    | ds => ds
  1 < digits.length && digits.head? == some '0' && digits.all Char.isDigit

def unsigned? : List Char → Option Nat
  | '0' :: 'x' :: ds => natural? 16 ds
  | '0' :: 'o' :: ds => natural? 8 ds
  | '0' :: 'b' :: ds => natural? 2 ds
  | ds => if isPadded ds then none else natural? 10 ds

def integer? : List Char → Option Int
  | '-' :: ds => (unsigned? ds).map fun n => -(n : Int)
  | cs => (unsigned? (withoutPlus cs)).map fun n => (n : Int)

def fitsWord (n : Int) : Bool := -(Int.pow 2 63) ≤ n && n < Int.pow 2 64
def fitsDoubleWord (n : Int) : Bool := -(Int.pow 2 127) ≤ n && n < Int.pow 2 128

inductive IntegerReading where
  | none
  | refused
  | value (n : Int)

def readInteger (cs : List Char) : IntegerReading :=
  match integer? cs with
  | .none => .none
  | some n => if fitsWord n then .value n else if fitsDoubleWord n then .refused else .none

/-! ## Doubles -/

def exponent? : List Char → Option Int
  | [] => some 0
  | e :: cs =>
    if e == 'e' || e == 'E' then
      match cs with
      | '-' :: ds => (natural? 10 ds).map fun n => -(n : Int)
      | ds => (natural? 10 (withoutPlus ds)).map fun n => (n : Int)
    else none

def decimal? (negative : Bool) (cs : List Char) : Option Double := do
  let whole := cs.takeWhile Char.isDigit
  let rest := cs.dropWhile Char.isDigit
  let (fraction, rest) := match rest with
    | '.' :: rest => (rest.takeWhile Char.isDigit, rest.dropWhile Char.isDigit)
    | rest => ([], rest)
  let digits ← natural? 10 (whole ++ fraction)
  let exponent ← exponent? rest
  let x := Double.ofDecimal negative digits (exponent - fraction.length)
  if x.isFinite then some x else none

def float? (text : String) : Option Double :=
  if [".inf", ".Inf", ".INF", "+.inf", "+.Inf", "+.INF"].contains text then some (.infinite false)
  else if ["-.inf", "-.Inf", "-.INF"].contains text then some (.infinite true)
  else if [".nan", ".NaN", ".NAN"].contains text then some .nan
  else match text.toList with
    | '-' :: cs => decimal? true cs
    | cs => decimal? false (withoutPlus cs)

/-! ## Scalars -/

def plain? (text : String) : Option Scalar :=
  if text.isEmpty || isNull text then some .null
  else match bool? text with
    | some b => some (.bool b)
    | none =>
      match readInteger text.toList with
      | .value n => some (.number (.integer n))
      | .refused => none
      | .none =>
        match if isPadded text.toList then none else float? text with
        | some x => some (.number (.float x))
        | none => some (.string text)

def coreTag (name : String) : Octets := Octets.ofString ("tag:yaml.org,2002:" ++ name)

/-- The value of a scalar with a tag that says its kind; under any other tag it is a string. -/
def tagged? (tag : Octets) (text : String) : Option Scalar :=
  if tag == coreTag "null" then if isNull text then some .null else none
  else if tag == coreTag "bool" then (bool? text).map .bool
  else if tag == coreTag "int" then
    match readInteger text.toList with
    | .value n => some (.number (.integer n))
    | _ => none
  else if tag == coreTag "float" then (float? text).map fun x => .number (.float x)
  else some (.string text)

end InlineSchema.Yaml
