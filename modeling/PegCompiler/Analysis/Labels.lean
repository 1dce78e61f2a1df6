/-
Checks on labels. A label is visible in the later elements of its sequence and in whatever they
contain, and nowhere else. It may not be a reserved word, may not be defined where it is visible
already, and has to be visible where a repetition counts with it.
-/
import PegCompiler.Diagnostic
import PegCompiler.Grammar.Basic

namespace PegCompiler.Analysis

/-- The labels visible at a place, with where they were defined. -/
abbrev Scope := List (String × Span)

namespace Scope

/-- The scope with a label, which stays as it is if it is there already. -/
def define (scope : Scope) (label : Located String) : Scope :=
  if (scope.lookup label.val).isSome then scope else scope ++ [(label.val, label.span)]

/-- The scope after an expression: only a label on the expression itself is added. -/
def after (scope : Scope) : Expr → Scope
  | .labeled _ (some label) _ _ => scope.define label
  | _ => scope

end Scope

/-- What is wrong with defining a label. -/
def labelProblems (reserved : List String) (scope : Scope) (label : Located String) : List Diagnostic :=
  (if reserved.contains label.val then
    [.error label.span s!"Label can't be a reserved word \"{label.val}\""] else []) ++
  match scope.lookup label.val with
  | some first =>
    [{ severity := .error, message := s!"Label \"{label.val}\" is already defined", span := label.span
       related := [⟨"Original label location", first⟩] }]
  | none => []

/-- What is wrong with counting with a bound. -/
def boundProblems (scope : Scope) : Boundary → List Diagnostic
  | .label name =>
    if (scope.lookup name.val).isSome then []
    else [.error name.span s!"Label \"{name.val}\" is not defined"]
  | _ => []

mutual

/-- The problems with labels in an expression where `scope` is visible. -/
def labelsIn (reserved : List String) (scope : Scope) : Expr → List Diagnostic
  | .choice _ first others => labelsIn reserved scope first ++ labelsInEach reserved scope others
  | .sequence _ elements => labelsInOrder reserved scope elements
  | .labeled _ label _ body =>
    labelsIn reserved scope body ++ label.elim [] (labelProblems reserved scope)
  | .repeated _ body min max none =>
    min.elim [] (boundProblems scope) ++ boundProblems scope max ++ labelsIn reserved scope body
  | .repeated _ body min max (some delimiter) =>
    min.elim [] (boundProblems scope) ++ boundProblems scope max ++
      labelsIn reserved scope delimiter ++ labelsIn reserved scope body
  | .action _ body _ | .text _ body | .simpleAnd _ body | .simpleNot _ body | .optional _ body
  | .zeroOrMore _ body | .oneOrMore _ body | .group _ body | .named _ _ body =>
    labelsIn reserved scope body
  | .semanticAnd .. | .semanticNot .. | .ruleRef .. | .literal .. | .charClass .. | .any .. => []

/-- The problems in expressions that see the same labels. -/
def labelsInEach (reserved : List String) (scope : Scope) : List Expr → List Diagnostic
  | [] => []
  | e :: es => labelsIn reserved scope e ++ labelsInEach reserved scope es

/-- The problems in expressions of which each sees the labels of those before it. -/
def labelsInOrder (reserved : List String) (scope : Scope) : List Expr → List Diagnostic
  | [] => []
  | e :: es => labelsIn reserved scope e ++ labelsInOrder reserved (scope.after e) es

end

/-- The problems with labels in the rules of a grammar. -/
def labels (g : Grammar) (reserved : List String) : List Diagnostic :=
  g.live.flatMap fun (_, rule) => labelsIn reserved [] rule.body

end PegCompiler.Analysis
