/-
Writing JSON text, on one line or indented by two spaces for each level.
-/
import PegCompiler.Json.Basic

namespace PegCompiler.Json

/-- A character inside a string. -/
def escapeChar (c : Char) : String :=
  if c = '"' then "\\\""
  else if c = '\\' then "\\\\"
  else if c = '\n' then "\\n"
  else if c = '\r' then "\\r"
  else if c = '\t' then "\\t"
  else if c = '\x08' then "\\b"
  else if c = '\x0c' then "\\f"
  else if c.toNat < 0x20 then
    "\\u00" ++ String.ofList [Nat.digitChar (c.toNat / 16), Nat.digitChar (c.toNat % 16)]
  else c.toString

/-- A string with its quotes. -/
def quote (s : String) : String :=
  "\"" ++ s.foldl (fun text c => text ++ escapeChar c) "" ++ "\""

mutual

/-- The value on one line. -/
def compact : Json → String
  | null => "null"
  | bool b => if b then "true" else "false"
  | int n => toString n
  | real text | unreadable text => text
  | str s => quote s
  | arr items => "[" ++ compactItems "" items ++ "]"
  | obj fields => "\x7b" ++ compactFields "" fields ++ "\x7d"

def compactItems (separator : String) : List Json → String
  | [] => ""
  | j :: rest => separator ++ j.compact ++ compactItems "," rest

def compactFields (separator : String) : List (String × Json) → String
  | [] => ""
  | (key, j) :: rest => separator ++ quote key ++ ":" ++ j.compact ++ compactFields "," rest

end

/-- A new line at a level of nesting. -/
def newLine (level : Nat) : String := "\n" ++ String.ofList (List.replicate (2 * level) ' ')

mutual

/-- The value with every item and field on a line of its own. -/
def pretty (level : Nat) : Json → String
  | arr [] => "[]"
  | obj [] => "\x7b\x7d"
  | arr items => "[" ++ prettyItems (level + 1) "" items ++ newLine level ++ "]"
  | obj fields => "\x7b" ++ prettyFields (level + 1) "" fields ++ newLine level ++ "\x7d"
  | null => "null"
  | bool b => if b then "true" else "false"
  | int n => toString n
  | real text | unreadable text => text
  | str s => quote s

def prettyItems (level : Nat) (separator : String) : List Json → String
  | [] => ""
  | j :: rest => separator ++ newLine level ++ pretty level j ++ prettyItems level "," rest

def prettyFields (level : Nat) (separator : String) : List (String × Json) → String
  | [] => ""
  | (key, j) :: rest =>
    separator ++ newLine level ++ quote key ++ ": " ++ pretty level j ++ prettyFields level "," rest

end

end PegCompiler.Json
