/-
Repetitions of what may consume nothing: without a bound they may never end, with one they may match
as often as it allows.
-/
import PegCompiler.Analysis.Bounds
import PegCompiler.Analysis.Consumption

namespace PegCompiler.Analysis

/-- A repetition that need not consume and that nothing ends. -/
def endlessParse (span : Span) : Diagnostic :=
  .error span ("Possible infinite loop when parsing " ++
    "(repetition used with an expression that may not consume any input)")

/-- The complaint about a counted repetition that need not consume. -/
def idleRepetition (span : Span) (min : Option Boundary) (max : Boundary) : Diagnostic :=
  if max.isUnbounded then
    .error span ("Possible infinite loop when repeating " ++
      "(repetition used with an expression that may not consume any input)")
  else
    match min.getD max, max with
    | .constant _, .constant (some most) =>
      .warning span s!"An expression may not consume any input and may always match {most} times"
    | _, _ =>
      .warning span ("An expression may not consume any input and may always match with a maximum " ++
        "repetition count")

/-- The complaint about one expression. -/
def emptyRepetition? (g : Grammar) : Expr → Consumption.Asking (Option Diagnostic)
  | .zeroOrMore i body | .oneOrMore i body => do
    if ← Consumption.ofExprIn g body then return none else return some (endlessParse i.span)
  | .repeated i body min max delimiter => do
    if ← Consumption.ofExprIn g body then return none
    else if ← delimiter.elim (return false) (Consumption.ofExprIn g) then return none
    else return some (idleRepetition i.span min max)
  | _ => return none

/-- Repetitions of what may consume nothing. -/
def emptyRepetitions (g : Grammar) : List Diagnostic :=
  ((g.liveExprs.mapM (emptyRepetition? g)).run .empty).1.filterMap id

end PegCompiler.Analysis
