/-
What a parser looked for where it failed, and the error that a failed parse ends with.
-/
import PegCompiler.CharClass
import PegCompiler.Text.Position

namespace PegCompiler

/-- What would have been accepted. -/
inductive Expectation
  | literal (text : String) (ignoreCase : Bool)
  | charClass (k : CharClass)
  | any
  | endOfInput
  | named (description : String)
  deriving DecidableEq, Inhabited

/-- The expectation as error messages show it. -/
def Expectation.text : Expectation → String
  | literal s _ => Quoted.visibleString s
  | charClass k => k.text
  | any => "any character"
  | endOfInput => "end of input"
  | named description => description

/-- Why a text was not accepted. -/
structure ParseError where
  message : String
  expected : List Expectation
  found : Option String
  location : Location
  deriving DecidableEq

namespace ParseError

/-- Descriptions as one phrase: `A`, `A or B`, `A, B, or C`. -/
def phrase : List String → String
  | [] => ""
  | [a] => a
  | [a, b] => s!"{a} or {b}"
  | all => String.intercalate ", " all.dropLast ++ ", or " ++ all.getLastD ""

/-- The expectations by their descriptions, in order, one for each description. -/
def arrange (expected : List Expectation) : List (String × Expectation) :=
  let sorted := (expected.map fun e => (e.text, e)).mergeSort (fun a b => decide (a.1 ≤ b.1))
  dedup sorted
where
  /-- Keeps the first of neighbours with one description. -/
  dedup : List (String × Expectation) → List (String × Expectation)
    | [] => []
    | a :: rest =>
      match dedup rest with
      | [] => [a]
      | b :: rest => if a.1 = b.1 then a :: rest else a :: b :: rest

/-- The text found, or the end of the input. -/
def foundText : Option String → String
  | some s => Quoted.visibleString s
  | none => "end of input"

/-- An error that lists what was expected. -/
def ofExpected (expected : List Expectation) (found : Option String) (location : Location) :
    ParseError :=
  let arranged := arrange expected
  { message := s!"Expected {phrase (arranged.map Prod.fst)} but {foundText found} found."
    expected := arranged.map Prod.snd
    found, location }

/-- An error with a message of its own. -/
def custom (message : String) (location : Location) : ParseError := ⟨message, [], none, location⟩

/-- The rule that a parse was asked to start from is not one of the start rules. -/
def unknownStartRule (rule : String) (source : Option String) : ParseError :=
  custom s!"Can't start parsing from rule \"{rule}\"." ⟨source, .first, .first⟩

/-- The error as it is reported. -/
def text (e : ParseError) : String := s!"{e.location.text}: {e.message}"

end ParseError

end PegCompiler
