/-
Whether an expression is sure to consume input whenever it succeeds. A rule that asks about itself
is assumed not to consume; an answer that rests on such an assumption about a rule still being asked
is not remembered, so that a later question finds the same answer as a first one.
-/
import PegCompiler.Grammar.Basic

namespace PegCompiler.Analysis

/-- The answers known so far, and the state of the question being answered. -/
structure Consumption where
  known : List (RuleId × Bool)
  /-- Rules whose answers are being worked out. -/
  active : List RuleId
  /-- Whether an active rule was assumed not to consume. -/
  provisional : Bool
  deriving Inhabited

namespace Consumption

/-- Nothing is known. -/
def empty : Consumption := ⟨[], [], false⟩

/-- Asking a question changes what is known. -/
abbrev Asking := StateM Consumption

/-- Whether a repetition runs its body at least a known number of times, and how many. -/
def sureCount (min : Option Boundary) (max : Boundary) : Nat :=
  match min.getD max with
  | .constant (some n) => n
  | _ => 0

mutual

/-- Whether an expression consumes, where `rule` tells it of rules. -/
def ofExpr (rule : RuleId → Asking Bool) : Expr → Asking Bool
  | .literal _ value _ => return value != ""
  | .charClass .. | .any .. => return true
  | .sequence _ elements => someOf rule elements
  | .choice _ first others => do if ← ofExpr rule first then everyOf rule others else return false
  | .repeated _ body min max none =>
    if sureCount min max = 0 then return false else ofExpr rule body
  | .repeated _ body min max (some delimiter) => do
    if sureCount min max = 0 then return false
    else if ← ofExpr rule body then return true
    else if sureCount min max > 1 then ofExpr rule delimiter
    else return false
  | .ruleRef _ _ (some target) => rule target
  | .ruleRef _ _ none => return false
  | .labeled _ _ _ body | .action _ body _ | .named _ _ body | .text _ body | .oneOrMore _ body
  | .group _ body => ofExpr rule body
  | .simpleAnd .. | .simpleNot .. | .semanticAnd .. | .semanticNot .. | .optional ..
  | .zeroOrMore .. => return false

/-- Whether one of the expressions consumes; those after the first that does are not asked. -/
def someOf (rule : RuleId → Asking Bool) : List Expr → Asking Bool
  | [] => return false
  | e :: es => do if ← ofExpr rule e then return true else someOf rule es

/-- Whether each of the expressions consumes; those after the first that does not are not asked. -/
def everyOf (rule : RuleId → Asking Bool) : List Expr → Asking Bool
  | [] => return true
  | e :: es => do if ← ofExpr rule e then everyOf rule es else return false

end

/-- Whether the body of a rule consumes, where `onward` tells it of the rules that it refers to. -/
def ofBody (g : Grammar) (onward : RuleId → Asking Bool) (r : RuleId) : Asking Bool :=
  match g.rule? r with
  | some rule => ofExpr onward rule.body
  | none => return false

/-- Whether a rule consumes, where `onward` tells it of the rules that its body refers to. -/
def ofRuleVia (g : Grammar) (onward : RuleId → Asking Bool) (r : RuleId) : Asking Bool := do
  let s ← get
  match s.known.lookup r with
  | some answer => return answer
  | none =>
    if s.active.contains r then
      set { s with provisional := true }
      return false
    else
      set { s with active := r :: s.active, provisional := false }
      let answer ← ofBody g onward r
      modify fun t =>
        { known := if t.provisional then t.known else (r, answer) :: t.known
          active := t.active.erase r
          provisional := t.provisional || s.provisional }
      return answer

/-- Whether a rule consumes, with at most `fuel` rules asked within each other. -/
def ofRuleWithin (g : Grammar) : (fuel : Nat) → RuleId → Asking Bool
  | 0, _ => return false
  | fuel + 1, r => ofRuleVia g (ofRuleWithin g fuel) r

/-- Whether a rule consumes. No rule is active twice, so there is fuel for all of them. -/
def ofRule (g : Grammar) (r : RuleId) : Asking Bool := ofRuleWithin g (g.rules.length + 1) r

/-- Whether an expression of the grammar consumes. -/
def ofExprIn (g : Grammar) (e : Expr) : Asking Bool := ofExpr (ofRule g) e

end Consumption

end PegCompiler.Analysis
