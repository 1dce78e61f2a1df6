/-
Whether an expression can match, judged without the input: always, sometimes or never. Rules refer to
each other, so a rule starts from the estimate `sometimes`, which its own body may read, and is judged
again until the estimate stays the same. Results are kept by expression and by rule; what was found
before a failure stays.
-/
import PegCompiler.Grammar.Basic

namespace PegCompiler

/-- Whether an expression can match. -/
inductive MatchResult
  | always
  | sometimes
  | never
  deriving DecidableEq, Inhabited

namespace MatchResult

/-- The result of what matches just where this does not. -/
def negate : MatchResult → MatchResult
  | always => never
  | sometimes => sometimes
  | never => always

def name : MatchResult → String
  | always => "Always"
  | sometimes => "Sometimes"
  | never => "Never"

/-- The result of two alternatives. -/
def or : MatchResult → MatchResult → MatchResult
  | always, _ | _, always => always
  | never, never => never
  | _, _ => sometimes

/-- The result of two elements, one after the other. -/
def and : MatchResult → MatchResult → MatchResult
  | never, _ | _, never => never
  | always, always => always
  | _, _ => sometimes

/-- The result of a repetition of at least `least` and, if there is a bound, at most `most` items, two
of which a delimiter may part. -/
def repeatedBetween (least : Nat) (most : Option Nat) (body : MatchResult)
    (delimiter : Option MatchResult) : MatchResult :=
  if most.any (· < least) then never
  else if most = some 0 || least = 0 then always
  else
    -- a delimiter is only needed where two items are
    match body, if 2 ≤ least then delimiter else none with
    | never, _ => never
    | always, some delimiter => delimiter
    | always, none => always
    | sometimes, some never => never
    | sometimes, _ => sometimes

/-- The result of a repetition; bounds that are no constants may be met or not. -/
def repeated (min : Option Boundary) (max : Boundary) (body : MatchResult)
    (delimiter : Option MatchResult) : MatchResult :=
  match min.getD max, max with
  | .constant least, .constant most => repeatedBetween (least.getD 0) most body delimiter
  | _, _ => sometimes

end MatchResult

/-- Results by expression and by rule; rules that were not reached have none. -/
structure Matches where
  exprs : Array MatchResult
  rules : Array (Option MatchResult)
  deriving Inhabited

namespace Matches

/-- Nothing is known: every expression sometimes matches. -/
def unknown (exprs rules : Nat) : Matches :=
  ⟨Array.replicate exprs .sometimes, Array.replicate rules none⟩

/-- The result of an expression. -/
def ofExpr (m : Matches) (e : Expr) : MatchResult := m.exprs.getD e.id .sometimes

/-- The result of a rule, if it was reached. -/
def ofRule? (m : Matches) (r : RuleId) : Option MatchResult := m.rules.getD r none

end Matches

namespace Analysis

/-- Why results cannot be found. -/
inductive MatchingError
  | unresolved (name : String)
  | divergent (rule : String)
  deriving DecidableEq

def MatchingError.message : MatchingError → String
  | unresolved name => s!"reference to rule \"{name}\" is unresolved"
  | divergent rule => s!"match result of rule \"{rule}\" did not converge"

namespace Matching

/-- Finding results adds to them; a failure keeps what was found. -/
abbrev Finding := EStateM MatchingError Matches

/-- Notes the result of an expression. -/
def note (e : Expr) (result : MatchResult) : Finding MatchResult := do
  modify fun m => { m with exprs := m.exprs.setIfInBounds e.id result }
  return result

/-- Notes the estimate of a rule. -/
def estimate (r : RuleId) (result : MatchResult) : Finding Unit :=
  modify fun m => { m with rules := m.rules.setIfInBounds r (some result) }

mutual

/-- The result of an expression, where `rule` tells that of rules. -/
def findExpr (rule : RuleId → Finding MatchResult) : Expr → Finding MatchResult
  | e@(.choice _ first others) => do
    let result ← findExpr rule first
    note e (← findAny rule result others)
  | e@(.sequence _ elements) => do note e (← findAll rule .always elements)
  | e@(.labeled _ _ _ body) | e@(.action _ body _) | e@(.named _ _ body) | e@(.text _ body)
  | e@(.oneOrMore _ body) | e@(.group _ body) | e@(.simpleAnd _ body) => do
    note e (← findExpr rule body)
  | e@(.simpleNot _ body) => do note e (← findExpr rule body).negate
  | e@(.optional _ body) | e@(.zeroOrMore _ body) => do
    let _ ← findExpr rule body
    note e .always
  | e@(.repeated _ body min max none) => do
    note e (.repeated min max (← findExpr rule body) none)
  | e@(.repeated _ body min max (some delimiter)) => do
    let body ← findExpr rule body
    let delimiter ← findExpr rule delimiter
    note e (.repeated min max body (some delimiter))
  | e@(.ruleRef _ _ (some target)) => do note e (← rule target)
  | .ruleRef _ name none => throw (.unresolved name)
  | e@(.literal _ value _) => note e (if value = "" then .always else .sometimes)
  | e@(.charClass _ k) => note e (if k.parts.isEmpty && !k.inverted then .never else .sometimes)
  | e@(.any ..) | e@(.semanticAnd ..) | e@(.semanticNot ..) => note e .sometimes

/-- The result of `sofar` or one of the alternatives, each of which is judged. -/
def findAny (rule : RuleId → Finding MatchResult) (sofar : MatchResult) :
    List Expr → Finding MatchResult
  | [] => return sofar
  | e :: es => do
    let result ← findExpr rule e
    findAny rule (sofar.or result) es

/-- The result of `sofar` and all of the elements, each of which is judged. -/
def findAll (rule : RuleId → Finding MatchResult) (sofar : MatchResult) :
    List Expr → Finding MatchResult
  | [] => return sofar
  | e :: es => do
    let result ← findExpr rule e
    findAll rule (sofar.and result) es

end

/-- How often a rule is judged before its result counts as divergent. -/
def maxRounds : Nat := 6

/-- Judges a rule at most `rounds` times, until the estimate stays the same. -/
def settle (r : RuleId) (name : String) (judge : Finding MatchResult) :
    (rounds : Nat) → (estimated : MatchResult) → Finding MatchResult
  | 0, _ => throw (.divergent name)
  | rounds + 1, estimated => do
    let next ← judge
    estimate r next
    if next = estimated then return estimated else settle r name judge rounds next

/-- The result of a rule, with at most `fuel` rules judged within each other. -/
def findRuleWithin (g : Grammar) : (fuel : Nat) → RuleId → Finding MatchResult
  | 0, _ => return .sometimes
  | fuel + 1, r => do
    match (← get).ofRule? r, g.rule? r with
    | some result, _ => return result
    | none, some rule =>
      estimate r .sometimes
      settle r rule.name (findExpr (findRuleWithin g fuel) rule.body) maxRounds .sometimes
    | none, none => return .sometimes

/-- The result of a rule. A rule that is being judged has an estimate, so there is fuel for all. -/
def findRule (g : Grammar) (r : RuleId) : Finding MatchResult := findRuleWithin g (g.rules.length + 1) r

/-- Finds the results of the remaining rules. -/
def findLive (g : Grammar) : Finding Unit :=
  g.liveIds.forM fun r => do let _ ← findRule g r

end Matching

end Analysis

end PegCompiler
