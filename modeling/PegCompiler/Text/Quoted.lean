/-
Quoted text. `Quoted.string` and `Quoted.char` write a literal of the generated language,
`Quoted.bare` and `Quoted.bareChar` escape without the quotes, for grammar notation; all of them
show printable characters and write any other as its code point. `Quoted.visible` is the shorter
form of error messages, which only escapes control characters.
-/
import PegCompiler.Text.Unicode.Blank
import PegCompiler.Text.Unicode.Printable

namespace PegCompiler.Quoted

/-- What is escaped besides the backslash and the unprintable characters. -/
structure Style where
  singleQuote : Bool
  doubleQuote : Bool
  marks : Bool

/-- The digits of a number in base sixteen, in lower case. -/
def hexDigits (n : Nat) : String := String.ofList (Nat.toDigits 16 n)

/-- A character written as its code point. -/
def codePoint (c : Char) : String := "\\u\x7b" ++ hexDigits c.toNat ++ "\x7d"

/-- One character of a quoted text. -/
def escape (style : Style) (c : Char) : String :=
  if c = '\x00' then "\\0"
  else if c = '\t' then "\\t"
  else if c = '\r' then "\\r"
  else if c = '\n' then "\\n"
  else if c = '\\' then "\\\\"
  else if c = '"' && style.doubleQuote then "\\\""
  else if c = '\'' && style.singleQuote then "\\'"
  else if style.marks && Unicode.extendsGrapheme c then codePoint c
  else if Unicode.isPrintable c then c.toString
  else codePoint c

/-- The escaped characters of a text, one after the other. -/
def escapeAll (style : Style) (cs : List Char) : String :=
  String.join (cs.map (escape style))

/-- A string literal. -/
def string (s : String) : String :=
  "\"" ++ escapeAll ⟨false, true, true⟩ s.toList ++ "\""

/-- A character literal. -/
def char (c : Char) : String :=
  "'" ++ escape ⟨true, false, true⟩ c ++ "'"

/-- A text with both quotes escaped. A mark can only attach to an earlier character, so it is
escaped at the start alone. -/
def bare (s : String) : String :=
  match s.toList with
  | [] => ""
  | c :: cs => escape ⟨true, true, true⟩ c ++ escapeAll ⟨true, true, false⟩ cs

/-- A character on its own with both quotes escaped. -/
def bareChar (c : Char) : String := escape ⟨true, true, true⟩ c

/-- Two digits in base sixteen, in upper case. -/
def twoHexDigits (n : Nat) : String :=
  String.ofList ((List.replicate (2 - (Nat.toDigits 16 n).length) '0' ++ Nat.toDigits 16 n).map Char.toUpper)

/-- A character with control characters made visible. -/
def visible (c : Char) : String :=
  if c = '\x00' then "\\0"
  else if c = '\t' then "\\t"
  else if c = '\n' then "\\n"
  else if c = '\r' then "\\r"
  else if Unicode.isControl c then "\\x" ++ twoHexDigits c.toNat
  else c.toString

/-- A text in double quotes with control characters made visible. -/
def visibleString (s : String) : String :=
  let one (c : Char) : String :=
    if c = '\\' then "\\\\" else if c = '"' then "\\\"" else visible c
  "\"" ++ String.join (s.toList.map one) ++ "\""

end PegCompiler.Quoted
