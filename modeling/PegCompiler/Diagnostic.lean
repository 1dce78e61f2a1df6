/-
What the passes have to say about a grammar, and when a session of them counts as failed.
-/
import PegCompiler.Text.Span

namespace PegCompiler

inductive Severity
  | info
  | warning
  | error
  deriving DecidableEq, Inhabited

namespace Severity

def text : Severity → String
  | info => "info"
  | warning => "warning"
  | error => "error"

/-- Severities in order, the worst highest. -/
def rank : Severity → Nat
  | info => 0
  | warning => 1
  | error => 2

/-- The worse of two severities. -/
def worse (a b : Severity) : Severity := if a.rank < b.rank then b else a

end Severity

/-- A further place that a diagnostic points to. -/
structure Related where
  message : String
  span : Span
  deriving DecidableEq, Inhabited

/-- A message about a place in the grammar. -/
structure Diagnostic where
  severity : Severity
  message : String
  span : Span
  related : List Related
  deriving DecidableEq, Inhabited

namespace Diagnostic

def text (d : Diagnostic) : String := s!"{d.span.text} {d.severity.text}: {d.message}"

def error (span : Span) (message : String) : Diagnostic := ⟨.error, message, span, []⟩

def warning (span : Span) (message : String) : Diagnostic := ⟨.warning, message, span, []⟩

end Diagnostic

/-- A grammar was refused: its first error, and all that was said about it. -/
structure Rejection where
  first : Diagnostic
  diagnostics : List Diagnostic
  deriving DecidableEq

namespace Diagnostics

/-- The errors among diagnostics. -/
def errors (ds : List Diagnostic) : List Diagnostic := ds.filter (·.severity = .error)

/-- Refuses if there is an error. -/
def check (ds : List Diagnostic) : Except Rejection Unit :=
  match errors ds with
  | [] => .ok ⟨⟩
  | first :: _ => .error ⟨first, ds⟩

/-- The worst severity there is. -/
def worst? (ds : List Diagnostic) : Option Severity :=
  ds.foldl (fun w d => some (w.elim d.severity (·.worse d.severity))) none

end Diagnostics

/-- The first error's message, and how many there are besides. -/
def Rejection.message (r : Rejection) : String :=
  let n := (Diagnostics.errors r.diagnostics).length
  if n > 1 then s!"{r.first.message} (and {n - 1} more errors)" else r.first.message

end PegCompiler
