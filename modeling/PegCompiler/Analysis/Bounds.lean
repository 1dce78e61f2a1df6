/-
Checks on single expressions: the constant bounds of repetitions, and `@` under an action.
-/
import PegCompiler.Diagnostic
import PegCompiler.Grammar.Basic

namespace PegCompiler

namespace Boundary

/-- The number that the bound is known to be. -/
def fixed? : Boundary → Option Nat
  | constant (some n) => some n
  | _ => none

/-- Whether there is no bound. -/
def isUnbounded : Boundary → Bool
  | constant none => true
  | _ => false

end Boundary

namespace Analysis

/-- A complaint about bounds that no number of repetitions meets. -/
def boundsProblem? : Expr → Option Diagnostic
  | .repeated i _ min max _ =>
    match min.bind Boundary.fixed?, max.fixed? with
    | _, some 0 => some (.error i.span "The maximum count of repetitions of the rule must be > 0")
    | some least, some most =>
      if least > most then
        some (.error i.span (s!"The minimum count of repetitions of the rule ({least}) must be " ++
          s!"<= the maximum count ({most})"))
      else none
    | _, _ => none
  | _ => none

/-- Repetitions whose bounds cannot be met. -/
def repetitionBounds (g : Grammar) : List Diagnostic := g.liveExprs.filterMap boundsProblem?

/-- The expressions whose results the action on an expression sees. -/
def actionElements : Expr → List Expr
  | .sequence _ elements => elements
  | body => [body]

/-- A complaint about an element marked with `@` under an action. -/
def pickProblem? (code : HostCode) : Expr → Option Diagnostic
  | .labeled i label true _ =>
    some { severity := .error, message := "\"@\" cannot be used with an action block"
           span := label.elim i.span (·.span), related := [⟨"Action block location", code.span⟩] }
  | _ => none

/-- The complaints about one expression's `@` marks. -/
def pickProblems : Expr → List Diagnostic
  | .action _ body code => (actionElements body).filterMap (pickProblem? code)
  | _ => []

/-- Elements marked with `@` under an action. -/
def picks (g : Grammar) : List Diagnostic := g.liveExprs.flatMap pickProblems

end Analysis

end PegCompiler
