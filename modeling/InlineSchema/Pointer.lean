/-!
# Pointer segments

In a pointer the segments are separated by slashes. Inside a segment a tilde is written `~0` and a
slash `~1`.
-/

namespace InlineSchema.Pointer

def escapeChars : List Char → List Char
  | [] => []
  | '~' :: cs => '~' :: '0' :: escapeChars cs
  | '/' :: cs => '~' :: '1' :: escapeChars cs
  | c :: cs => c :: escapeChars cs

/-- A tilde before anything but `0` and `1` stands for itself. -/
def unescapeChars : List Char → List Char
  | [] => []
  | '~' :: '0' :: cs => '~' :: unescapeChars cs
  | '~' :: '1' :: cs => '/' :: unescapeChars cs
  | c :: cs => c :: unescapeChars cs

def escape (segment : String) : String := String.ofList (escapeChars segment.toList)
def unescape (segment : String) : String := String.ofList (unescapeChars segment.toList)

def splitChars : List Char → List (List Char)
  | [] => [[]]
  | '/' :: cs => [] :: splitChars cs
  | c :: cs =>
    match splitChars cs with
    | [] => [[c]]
    | part :: parts => (c :: part) :: parts

/-- The segments of a path given as text: empty parts do not count, and number signs may come
first. Escapes are not undone. -/
def segments (path : String) : List String :=
  ((splitChars (path.toList.dropWhile (· == '#'))).filter (!·.isEmpty)).map String.ofList

end InlineSchema.Pointer
