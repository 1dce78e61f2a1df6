/-
Trimming a text and cutting it into lines.
-/
import PegCompiler.Text.Unicode.Blank

namespace PegCompiler.Lines

/-- The text without blanks at its end. -/
def trimEndChars (cs : List Char) : List Char :=
  (cs.reverse.dropWhile Unicode.isBlank).reverse

/-- The text without blanks at either end. -/
def trimChars (cs : List Char) : List Char :=
  trimEndChars (cs.dropWhile Unicode.isBlank)

/-- The text without blanks at either end. -/
def trim (s : String) : String := String.ofList (trimChars s.toList)

/-- The lines of a text, `line` being the one begun: a newline ends a line, and a last line
without one counts unless it is empty. -/
def splitFrom (line : List Char) : List Char → List (List Char)
  | [] => if line.isEmpty then [] else [line.reverse]
  | c :: cs => if c = '\n' then line.reverse :: splitFrom [] cs else splitFrom (c :: line) cs

/-- The lines of a text. -/
def split (cs : List Char) : List (List Char) := splitFrom [] cs

end PegCompiler.Lines
