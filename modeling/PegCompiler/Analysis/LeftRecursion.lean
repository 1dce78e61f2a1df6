/-
Left recursion: cycles of rules that can come back to where they started without consuming input.
A walk enters the expressions that can be reached before anything is consumed; a reference to a rule
on the path of the walk closes a cycle. Every set of rules is reported once.
-/
import PegCompiler.Analysis.Consumption
import PegCompiler.Diagnostic

namespace PegCompiler.Analysis

/-- What a walk knows and has found. -/
structure CycleWalk where
  consumption : Consumption
  /-- Rules walked to the end. -/
  walked : List RuleId
  /-- The rules of each reported cycle, in order. -/
  reported : List (List RuleId)
  /-- The reports, last one first. -/
  reports : List Diagnostic
  deriving Inhabited

namespace CycleWalk

abbrev Walking := StateM CycleWalk

/-- A question about consumption. -/
def ask {α : Type} (question : Consumption.Asking α) : Walking α := fun w =>
  let (answer, consumption) := question w.consumption
  (answer, { w with consumption })

/-- The way from the first rule of the walk to here: rules, and the places of the references that
lead from each to the next. -/
structure Path where
  rules : List RuleId
  references : List Span

/-- The step at a place of a cycle of `length` references, numbered from one. -/
def step (g : Grammar) (rules : List RuleId) (length : Nat) (place : Span × Nat) : Related :=
  let (span, i) := place
  if i + 1 = length then
    ⟨s!"Step {i + 1}: call itself without input consumption - left recursion", span⟩
  else
    let callee := g.ruleName (rules.getD (i + 1) 0)
    ⟨s!"Step {i + 1}: call of the rule \"{callee}\" without input consumption", span⟩

/-- What is said of a cycle of rules, whose last reference leads to its first rule, `target`. -/
def cycleError (g : Grammar) (rules : List RuleId) (references : List Span) (target : RuleId) : Diagnostic :=
  let chain := String.intercalate " -> " ((rules ++ [target]).map g.ruleName)
  { severity := .error
    message := s!"Possible infinite loop when parsing (left recursion: {chain})"
    span := ((g.rule? target).map (·.nameSpan)).getD .empty
    related := references.zipIdx.map (step g rules references.length) }

/-- Reports a cycle of rules, unless its rules were reported together before. -/
def report (g : Grammar) (rules : List RuleId) (references : List Span) (target : RuleId) :
    Walking Unit := fun w =>
  let members := rules.mergeSort (fun a b => a ≤ b)
  if w.reported.contains members then (⟨⟩, w)
  else
    let found := cycleError g rules references target
    (⟨⟩, { w with reported := members :: w.reported, reports := found :: w.reports })

section Walks

variable (consumes : Expr → Consumption.Asking Bool) (enter : Span → RuleId → Walking Unit)

mutual

/-- Walks what an expression reaches before it has consumed anything, as `consumes` tells; `enter` is
told of every reference met, with its place. -/
def walkExpr : Expr → Walking Unit
  | .sequence _ elements => walkInOrder elements
  | .choice _ first others => do
    walkExpr first
    walkEach others
  | .repeated _ body _ _ none => walkExpr body
  | .repeated _ body _ _ (some delimiter) => do
    walkExpr body
    if ← ask (consumes body) then return ⟨⟩ else walkExpr delimiter
  | .ruleRef i _ (some target) => enter i.span target
  | .labeled _ _ _ body | .action _ body _ | .named _ _ body | .text _ body | .oneOrMore _ body
  | .group _ body | .simpleAnd _ body | .simpleNot _ body | .optional _ body
  | .zeroOrMore _ body => walkExpr body
  | .ruleRef _ _ none | .semanticAnd .. | .semanticNot .. | .literal .. | .charClass .. | .any .. =>
    return ⟨⟩

/-- Walks elements up to the first that is sure to consume. -/
def walkInOrder : List Expr → Walking Unit
  | [] => return ⟨⟩
  | e :: es => do
    walkExpr e
    if ← ask (consumes e) then return ⟨⟩ else walkInOrder es

/-- Walks every one of the expressions. -/
def walkEach : List Expr → Walking Unit
  | [] => return ⟨⟩
  | e :: es => do
    walkExpr e
    walkEach es

end

end Walks

/-- Walks the body of a rule, the last one of `rules`. A reference to one of `rules` closes a cycle;
another one goes on along the path by `onward`. -/
def walkBody (g : Grammar) (consumes : Expr → Consumption.Asking Bool) (rules : List RuleId)
    (references : List Span) (onward : Path → RuleId → Walking Unit) (r : RuleId) : Walking Unit :=
  let enter (span : Span) (target : RuleId) : Walking Unit :=
    match rules.idxOf? target with
    | some start => report g (rules.drop start) ((references ++ [span]).drop start) target
    | none => onward ⟨rules, references ++ [span]⟩ target
  match g.rule? r with
  | some rule => walkExpr consumes enter rule.body
  | none => return ⟨⟩

/-- Walks a rule at the end of a path, unless it was walked before; `onward` walks those after it. -/
def walkRuleVia (g : Grammar) (consumes : Expr → Consumption.Asking Bool)
    (onward : Path → RuleId → Walking Unit) (path : Path) (r : RuleId) : Walking Unit := do
  if (← get).walked.contains r then return ⟨⟩
  else
    walkBody g consumes (path.rules ++ [r]) path.references onward r
    modify fun w => { w with walked := r :: w.walked }

/-- Walks a rule at the end of a path, with at most `fuel` further rules on it. -/
def walkRule (g : Grammar) : (fuel : Nat) → Path → RuleId → Walking Unit
  | 0, _, _ => return ⟨⟩
  | fuel + 1, path, r => walkRuleVia g (Consumption.ofExprIn g) (walkRule g fuel) path r

end CycleWalk

/-- Every cycle of rules that can be left-recursive. No rule is twice on a path, so there is fuel for
the longest. -/
def leftRecursion (g : Grammar) : List Diagnostic :=
  let walk := g.liveIds.forM (CycleWalk.walkRule g (g.rules.length + 1) ⟨[], []⟩)
  (walk.run default).2.reports.reverse

end PegCompiler.Analysis
