/-
Proxy rules, whose whole body is a reference to another rule. References to a proxy are pointed at
its target, proxy by proxy in the order of declaration, each with the body that it has by then; a
proxy that no parse starts from is then removed.
-/
import PegCompiler.Diagnostic
import PegCompiler.Grammar.Basic

namespace PegCompiler.Grammar

/-- The rule that a proxy stands for; none if the rule is no proxy. A rule with a name of its own for
error messages is none, nor is one that refers to itself. -/
def proxyTarget? (g : Grammar) (r : RuleId) : Option RuleId :=
  match g.rule? r with
  | some ⟨_, _, none, .ruleRef _ _ (some target), _⟩ => if target = r then none else some target
  | _ => none

/-- The reference that replaces one to a proxy. -/
def redirect (g : Grammar) (proxy target : RuleId) (ref : Expr.Reference) : Expr.Reference :=
  if ref.target = some proxy then ⟨g.ruleName target, some target⟩ else ref

/-- What is said about a reference that is redirected. -/
def redirected? (g : Grammar) (proxy target : RuleId) (e : Expr) : Option Diagnostic :=
  if e.target? = some proxy then
    some { severity := .info, span := e.span
           message := s!"Proxy rule \"{g.ruleName proxy}\" replaced by the rule \"{g.ruleName target}\""
           related := [⟨"This rule will be used", ((g.rule? target).map (·.nameSpan)).getD .empty⟩] }
  else none

/-- Points the references in the given rules from a proxy to its target. -/
def bypass (g : Grammar) (rules : List RuleId) (proxy target : RuleId) : Grammar × List Diagnostic :=
  let bodies := (g.numbered.filter fun (r, _) => rules.contains r).map (·.2.body)
  (g.mapBodies fun r body => if rules.contains r then body.mapRefs (g.redirect proxy target) else body,
    bodies.flatMap fun body => body.preorder.filterMap (g.redirected? proxy target))

/-- Bypasses every proxy among `candidates`, and gives those that are not started from. -/
def bypassAll (rules start : List RuleId) (g : Grammar) :
    (candidates : List RuleId) → Grammar × List RuleId × List Diagnostic
  | [] => (g, [], [])
  | r :: candidates =>
    match g.proxyTarget? r with
    | none => bypassAll rules start g candidates
    | some target =>
      let (g, said) := g.bypass rules r target
      let (g, proxies, more) := bypassAll rules start g candidates
      (g, if start.contains r then proxies else r :: proxies, said ++ more)

/-- The grammar without proxies, but for those that a parse starts from. -/
def removeProxies (g : Grammar) (start : List RuleId) : Grammar × List Diagnostic :=
  let (g, proxies, said) := bypassAll g.liveIds start g g.liveIds
  (proxies.foldl Grammar.remove g, said)

end PegCompiler.Grammar
