import InlineSchema.Naming.Case
import InlineSchema.Naming.Letters

/-!
# Pascal case

A text is cut into words at the characters that are neither letters nor numerals, after a
lowercase letter before an uppercase one, and before the last of several uppercase letters if a
lowercase one follows. Each word is written with its first letter in uppercase and the others in
lowercase.
-/

namespace InlineSchema.Naming

inductive LetterCase where
  | unknown
  | lower
  | upper
deriving DecidableEq, Repr

def LetterCase.after (mode : LetterCase) (c : Char) : LetterCase :=
  if isLowercase c then .lower else if isUppercase c then .upper else mode

def cutWords (mode : LetterCase) (word : List Char) : List Char → List (List Char)
  | [] => []
  | [c] => [(c :: word).reverse]
  | c :: d :: cs =>
    if mode.after c == .lower && isUppercase d then
      (c :: word).reverse :: cutWords .unknown [] (d :: cs)
    else if mode == .upper && isUppercase c && isLowercase d then
      word.reverse :: cutWords .unknown [c] (d :: cs)
    else cutWords (mode.after c) (c :: word) (d :: cs)

def runs (run : List Char) : List Char → List (List Char)
  | [] => [run.reverse]
  | c :: cs => if isAlphanumeric c then runs (c :: run) cs else run.reverse :: runs [] cs

/-- Lowercase, where a final sigma has a form of its own. -/
def lowercase : List Char → List Char
  | [] => []
  | ['Σ'] => ['ς']
  | c :: cs => toLowercase c ++ lowercase cs

def capitalize : List Char → List Char
  | [] => []
  | c :: cs => toUppercase c ++ lowercase cs

def words (text : String) : List (List Char) := (runs [] text.toList).flatMap (cutWords .unknown [])

def pascalCase (text : String) : String := String.ofList ((words text).flatMap capitalize)

end InlineSchema.Naming
