/-
Character classes: a list of characters and inclusive ranges, possibly inverted, possibly blind to
case.
-/
import PegCompiler.Text.Case
import PegCompiler.Text.Quoted

namespace PegCompiler

/-- A member of a character class. -/
inductive ClassPart
  | char (c : Char)
  | range (first last : Char)
  deriving DecidableEq

namespace ClassPart

def has (c : Char) : ClassPart → Bool
  | char d => d == c
  | range first last => first ≤ c && c ≤ last

/-- A character as class notation writes it. -/
def charText (c : Char) : String :=
  if c = '\\' || c = ']' || c = '^' || c = '-' then "\\" ++ c.toString else Quoted.visible c

def text : ClassPart → String
  | char c => charText c
  | range first last => charText first ++ "-" ++ charText last

end ClassPart

/-- A set of characters. -/
structure CharClass where
  parts : List ClassPart
  inverted : Bool
  ignoreCase : Bool
  deriving DecidableEq, Inhabited

namespace CharClass

/-- Whether a part has the character as it is written. -/
def listed (k : CharClass) (c : Char) : Bool := k.parts.any (·.has c)

/-- Whether the parts have the character, or its other case where case is ignored. -/
def covered (k : CharClass) (c : Char) : Bool :=
  k.listed c ||
    (k.ignoreCase && ((Case.lowerChar c).any k.listed || (Case.upperChar c).any k.listed))

/-- Whether the class has the character. -/
def has (k : CharClass) (c : Char) : Bool := k.covered c != k.inverted

/-- The class as error messages show it. -/
def text (k : CharClass) : String :=
  "[" ++ (if k.inverted then "^" else "") ++ String.join (k.parts.map ClassPart.text) ++ "]"

end CharClass

end PegCompiler
