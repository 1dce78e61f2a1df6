/-
Building a grammar from a draft: expressions are numbered, references find the first rule of their
name, and the two mistakes that a draft can hold by itself are refused.
-/
import PegCompiler.Grammar.Basic

namespace PegCompiler

/-- What is wrong with a draft. -/
inductive DraftProblem
  | emptyChoice
  | reversedRange (first last : Char)
  deriving DecidableEq

/-- A problem and the expression that has it. -/
structure DraftError where
  problem : DraftProblem
  span : Span
  deriving DecidableEq

namespace DraftError

def message (e : DraftError) : String :=
  match e.problem with
  | .emptyChoice => "Choice must have at least one alternative"
  | .reversedRange first last => s!"Invalid character range: {first}-{last}."

def text (e : DraftError) : String := s!"{e.span.text}: {e.message}"

end DraftError

namespace Draft

/-- Numbering counts up from the next free number. -/
abbrev Numbering := StateT ExprId (Except DraftError)

/-- The next number, for an expression with a span. -/
def number (span : Span) : Numbering Expr.Info := fun next => .ok (⟨next, span⟩, next + 1)

/-- Refuses a range whose ends are the wrong way round. -/
def checkParts (span : Span) (parts : List ClassPart) : Numbering Unit :=
  match parts.find? fun | .range first last => last < first | .char _ => false with
  | some (.range first last) => throw ⟨.reversedRange first last, span⟩
  | _ => pure ⟨⟩

mutual

/-- The expression with numbers, and with references to the rules called `names`. -/
def Expr.place (names : List String) : Draft.Expr → Numbering PegCompiler.Expr
  | .choice span [] => throw ⟨.emptyChoice, span⟩
  | .choice span (first :: others) => do
    let first ← first.place names
    let others ← placeAll names others
    return .choice (← number span) first others
  | .sequence span elements => do
    let elements ← placeAll names elements
    return .sequence (← number span) elements
  | .labeled span label labelSpan pick body => do
    let body ← body.place names
    return .labeled (← number span) (label.map (⟨·, labelSpan⟩)) pick body
  | .action span body code => do
    let body ← body.place names
    return .action (← number span) body code
  | .text span body => do
    let body ← body.place names
    return .text (← number span) body
  | .simpleAnd span body => do
    let body ← body.place names
    return .simpleAnd (← number span) body
  | .simpleNot span body => do
    let body ← body.place names
    return .simpleNot (← number span) body
  | .semanticAnd span code => return .semanticAnd (← number span) code
  | .semanticNot span code => return .semanticNot (← number span) code
  | .optional span body => do
    let body ← body.place names
    return .optional (← number span) body
  | .zeroOrMore span body => do
    let body ← body.place names
    return .zeroOrMore (← number span) body
  | .oneOrMore span body => do
    let body ← body.place names
    return .oneOrMore (← number span) body
  | .repeated span body min max none => do
    let body ← body.place names
    return .repeated (← number span) body min max none
  | .repeated span body min max (some delimiter) => do
    let body ← body.place names
    let delimiter ← delimiter.place names
    return .repeated (← number span) body min max (some delimiter)
  | .group span body => do
    let body ← body.place names
    return .group (← number span) body
  | .ruleRef span name => return .ruleRef (← number span) name (names.idxOf? name)
  | .literal span value ignoreCase => return .literal (← number span) value ignoreCase
  | .charClass span k => do
    checkParts span k.parts
    return .charClass (← number span) k
  | .any span => return .any (← number span)
  | .named span name body => do
    let body ← body.place names
    return .named (← number span) name body

def Expr.placeAll (names : List String) : List Draft.Expr → Numbering (List PegCompiler.Expr)
  | [] => return []
  | e :: es => do
    let e ← e.place names
    let es ← placeAll names es
    return e :: es

end

/-- The rule with its body placed. -/
def Rule.place (names : List String) (r : Draft.Rule) : Numbering PegCompiler.Rule := do
  let body ← r.body.place names
  return ⟨r.name, r.nameSpan, r.displayName, body, r.span⟩

/-- The grammar that the draft describes. -/
def build? (d : Draft) : Except DraftError Grammar := do
  let (rules, _) ← (d.rules.mapM (Rule.place (d.rules.map (·.name)))).run 0
  return ⟨d.topLevelInitializer, d.initializer, rules, []⟩

end Draft

end PegCompiler
