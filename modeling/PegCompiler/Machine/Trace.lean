/-
Reports of a parser about its rules, and their form as lines of a log.
-/
import PegCompiler.Text.Position

namespace PegCompiler

/-- What happened to a rule. -/
inductive TraceKind
  | enter
  | matched
  | failed
  deriving DecidableEq

def TraceKind.name : TraceKind → String
  | enter => "rule.enter"
  | matched => "rule.match"
  | failed => "rule.fail"

/-- A report. -/
structure TraceEvent where
  kind : TraceKind
  rule : String
  location : Location
  /-- Whether the result was remembered. -/
  cached : Bool
  deriving DecidableEq

namespace TraceEvent

/-- The report as a line, indented by the depth of its rule; the kind takes ten columns. -/
def line (e : TraceEvent) (depth : Nat) : String :=
  let (a, b) := (e.location.start, e.location.stop)
  let kind := e.kind.name
  let blanks (n : Nat) : String := String.ofList (List.replicate n ' ')
  s!"{a.line}:{a.column}-{b.line}:{b.column} " ++ kind ++ blanks (10 - kind.length) ++ " " ++
    blanks (2 * depth) ++ e.rule

/-- The lines of reports that begin at a depth; a rule that is entered is one deeper than the one
before, and one that is left is as deep as when it was entered. -/
def logFrom (depth : Nat) : List TraceEvent → List String
  | [] => []
  | e :: es =>
    if e.kind = .enter then e.line depth :: logFrom (depth + 1) es
    else e.line (depth - 1) :: logFrom (depth - 1) es

/-- The lines of all reports of a parse. -/
def log (events : List TraceEvent) : List String := logFrom 0 events

end TraceEvent

end PegCompiler
