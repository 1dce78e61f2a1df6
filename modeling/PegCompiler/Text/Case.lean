/-
Case mappings: of single characters, which may grow longer, and of whole texts, where the last sigma
of a word has a form of its own.
-/
import PegCompiler.Text.Unicode.CaseTable

namespace PegCompiler.Case

open Unicode

/-- A character mapped by one list of several-character mappings and one of runs. -/
def mapChar (several : List (Nat × List Nat)) (runs : List CaseRun) (c : Char) : List Char :=
  match several.lookup c.toNat with
  | some cs => cs.map Char.ofNat
  | none =>
    match runs.find? (·.covers c) with
    | some r => [Char.ofNat (c.toNat + r.delta).toNat]
    | none => [c]

/-- The lowercase form of a character. -/
def lowerChar (c : Char) : List Char :=
  if c.toNat < 0x80 then [c.toLower] else mapChar lowerSeveral lowerRuns c

/-- The uppercase form of a character. -/
def upperChar (c : Char) : List Char :=
  if c.toNat < 0x80 then [c.toUpper] else mapChar upperSeveral upperRuns c

/-- The text with every character mapped by itself. -/
def lowerEach (cs : List Char) : List Char := cs.flatMap lowerChar

/-- Whether the first character that case does not ignore is a cased one. -/
def meetsCased (cs : List Char) : Bool :=
  match cs.dropWhile caseIgnorable.has with
  | [] => false
  | c :: _ => cased.has c

/-- The lowercase form of the rest of a text after `before`, which is kept last character first. -/
def lowerFrom (before : List Char) : List Char → List Char
  | [] => []
  | c :: cs =>
    (if c = 'Σ' then if meetsCased before && !meetsCased cs then ['ς'] else ['σ'] else lowerChar c) ++
      lowerFrom (c :: before) cs

/-- The lowercase form of a text. -/
def lower (s : String) : String := String.ofList (lowerFrom [] s.toList)

end PegCompiler.Case
