/-
Checks on the names of rules: which rules a parse may start from, which references stand for nothing,
which names are declared twice, which rules nothing refers to.
-/
import PegCompiler.Diagnostic
import PegCompiler.Grammar.Basic

namespace PegCompiler.Analysis

/-- The start rules called by name, each once, and a complaint about every name that no rule has. -/
def namedStartRules (g : Grammar) : List String → (found : List RuleId) → List RuleId × List Diagnostic
  | [], found => (found, [])
  | name :: names, found =>
    match g.ruleByName? name with
    | some r => namedStartRules g names (if found.contains r then found else found ++ [r])
    | none =>
      let (found, complaints) := namedStartRules g names found
      (found, .error .empty s!"Unknown start rule \"{name}\"" :: complaints)

/-- The rules that a parse may start from: the first if none is named, all if one name is `*`. -/
def startRules (g : Grammar) (names : List String) : List RuleId × List Diagnostic :=
  let (rules, complaints) :=
    if names.isEmpty then (g.liveIds.take 1, [])
    else if names.contains "*" then (g.liveIds, [])
    else namedStartRules g names []
  (rules, complaints ++
    if g.live.isEmpty then [.error .empty "Grammar must contain at least one rule"] else [])

/-- A complaint about a reference that stands for no rule. -/
def undefinedRule? : Expr → Option Diagnostic
  | .ruleRef i name none => some (.error i.span s!"Rule \"{name}\" is not defined")
  | _ => none

/-- References that stand for no rule. -/
def undefinedRules (g : Grammar) : List Diagnostic := g.liveExprs.filterMap undefinedRule?

/-- Rules whose name an earlier rule has, each with the place of the first. -/
def duplicatesAfter (seen : List (String × Span)) : List Rule → List Diagnostic
  | [] => []
  | r :: rules =>
    match seen.lookup r.name with
    | some first =>
      { severity := .error, message := s!"Rule \"{r.name}\" is already defined", span := r.nameSpan
        related := [⟨"Original rule location", first⟩] } :: duplicatesAfter seen rules
    | none => duplicatesAfter (seen ++ [(r.name, r.nameSpan)]) rules

/-- Rules whose name is taken. -/
def duplicateRules (g : Grammar) : List Diagnostic := duplicatesAfter [] (g.live.map (·.2))

/-- Rules that are neither started from nor referred to. -/
def unusedRules (g : Grammar) (start : List RuleId) : List Diagnostic :=
  let used := g.liveExprs.filterMap Expr.target?
  g.live.filterMap fun (r, rule) =>
    if start.contains r || used.contains r then none
    else some (.warning rule.nameSpan s!"Rule \"{rule.name}\" is not referenced")

end PegCompiler.Analysis
