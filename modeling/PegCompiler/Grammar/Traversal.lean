/-
Going over the expressions of a rule by their numbers, with a stack of those that are left. The stack ends with the one
to come next, so the direct subexpressions of an expression are put on it from the last one to the first.
-/
import PegCompiler.Grammar.Basic

namespace PegCompiler

/-- The list with everything from a place on in reverse order. -/
def reverseFrom {α : Type} (start : Nat) (l : List α) : List α := l.take start ++ (l.drop start).reverse

namespace Grammar

/-- Goes over what is on a stack and all it contains, after what was gone over before. It is `none` if a number leads to
no expression, or if there is no end to it. -/
def visit (g : Grammar) (out stack : List ExprId) : Option (List ExprId) :=
  match stack.getLast? with
  | none => some out
  | some handle => do
    let e ← g.arena[handle]?
    let left := stack.dropLast
    g |>.visit (out ++ [handle]) (reverseFrom left.length (left ++ e.children.map Expr.id))
partial_fixpoint

/-- The numbers of the expressions in the body of a rule. -/
def ruleExprs (g : Grammar) (r : RuleId) : Option (List ExprId) := do
  let rule ← g.rule? r
  g.visit [] [rule.body.id]

end Grammar

end PegCompiler
