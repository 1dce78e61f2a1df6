/-
Grammars. Every expression carries its number and its span; the numbers run through the whole
grammar, children before parents, so `Grammar.arena` lists the expressions by number. References
know the rule they stand for. Rules keep their numbers when a pass removes some of them.
-/
import PegCompiler.Grammar.Draft

namespace PegCompiler

abbrev ExprId := Nat

abbrev RuleId := Nat

/-- What every expression carries. -/
structure Expr.Info where
  id : ExprId
  span : Span
  deriving DecidableEq, Inhabited

/-- A parsing expression. A choice has at least one alternative. -/
inductive Expr
  | choice (info : Expr.Info) (first : Expr) (others : List Expr)
  | sequence (info : Expr.Info) (elements : List Expr)
  | labeled (info : Expr.Info) (label : Option (Located String)) (pick : Bool) (body : Expr)
  | action (info : Expr.Info) (body : Expr) (code : HostCode)
  | text (info : Expr.Info) (body : Expr)
  | simpleAnd (info : Expr.Info) (body : Expr)
  | simpleNot (info : Expr.Info) (body : Expr)
  | semanticAnd (info : Expr.Info) (code : HostCode)
  | semanticNot (info : Expr.Info) (code : HostCode)
  | optional (info : Expr.Info) (body : Expr)
  | zeroOrMore (info : Expr.Info) (body : Expr)
  | oneOrMore (info : Expr.Info) (body : Expr)
  | repeated (info : Expr.Info) (body : Expr) (min : Option Boundary) (max : Boundary)
      (delimiter : Option Expr)
  | group (info : Expr.Info) (body : Expr)
  | ruleRef (info : Expr.Info) (name : String) (target : Option RuleId)
  | literal (info : Expr.Info) (value : String) (ignoreCase : Bool)
  | charClass (info : Expr.Info) (k : CharClass)
  | any (info : Expr.Info)
  | named (info : Expr.Info) (name : String) (body : Expr)
  deriving Inhabited

namespace Expr

def info : Expr → Info
  | choice i _ _ | sequence i _ | labeled i _ _ _ | action i _ _ | text i _ | simpleAnd i _
  | simpleNot i _ | semanticAnd i _ | semanticNot i _ | optional i _ | zeroOrMore i _ | oneOrMore i _
  | repeated i _ _ _ _ | group i _ | ruleRef i _ _ | literal i _ _ | charClass i _ | any i
  | named i _ _ => i

def id (e : Expr) : ExprId := e.info.id

def span (e : Expr) : Span := e.info.span

/-- The kind of an expression as the JSON form names it. -/
def kind : Expr → String
  | choice .. => "choice"
  | sequence .. => "sequence"
  | labeled .. => "labeled"
  | action .. => "action"
  | text .. => "text"
  | simpleAnd .. => "simple_and"
  | simpleNot .. => "simple_not"
  | semanticAnd .. => "semantic_and"
  | semanticNot .. => "semantic_not"
  | optional .. => "optional"
  | zeroOrMore .. => "zero_or_more"
  | oneOrMore .. => "one_or_more"
  | repeated .. => "repeated"
  | group .. => "group"
  | ruleRef .. => "rule_ref"
  | literal .. => "literal"
  | charClass .. => "class"
  | any .. => "any"
  | named .. => "named"

/-- The direct subexpressions, left to right; a repetition's body comes before its delimiter. -/
def children : Expr → List Expr
  | choice _ first others => first :: others
  | sequence _ elements => elements
  | labeled _ _ _ body | action _ body _ | text _ body | simpleAnd _ body | simpleNot _ body
  | optional _ body | zeroOrMore _ body | oneOrMore _ body | group _ body | named _ _ body => [body]
  | repeated _ body _ _ delimiter => body :: delimiter.toList
  | semanticAnd .. | semanticNot .. | ruleRef .. | literal .. | charClass .. | any .. => []

mutual

/-- The expression and all it contains, parents before children. -/
def preorder : Expr → List Expr
  | choice i first others => choice i first others :: (first.preorder ++ preorderAll others)
  | sequence i elements => sequence i elements :: preorderAll elements
  | labeled i label pick body => labeled i label pick body :: body.preorder
  | action i body code => action i body code :: body.preorder
  | text i body => text i body :: body.preorder
  | simpleAnd i body => simpleAnd i body :: body.preorder
  | simpleNot i body => simpleNot i body :: body.preorder
  | optional i body => optional i body :: body.preorder
  | zeroOrMore i body => zeroOrMore i body :: body.preorder
  | oneOrMore i body => oneOrMore i body :: body.preorder
  | repeated i body min max none => repeated i body min max none :: body.preorder
  | repeated i body min max (some delimiter) =>
    repeated i body min max (some delimiter) :: (body.preorder ++ delimiter.preorder)
  | group i body => group i body :: body.preorder
  | named i name body => named i name body :: body.preorder
  | e@(semanticAnd ..) | e@(semanticNot ..) | e@(ruleRef ..) | e@(literal ..) | e@(charClass ..)
  | e@(any ..) => [e]

def preorderAll : List Expr → List Expr
  | [] => []
  | e :: es => e.preorder ++ preorderAll es

end

mutual

/-- The expression and all it contains, children before parents. -/
def postorder : Expr → List Expr
  | choice i first others => first.postorder ++ postorderAll others ++ [choice i first others]
  | sequence i elements => postorderAll elements ++ [sequence i elements]
  | labeled i label pick body => body.postorder ++ [labeled i label pick body]
  | action i body code => body.postorder ++ [action i body code]
  | text i body => body.postorder ++ [text i body]
  | simpleAnd i body => body.postorder ++ [simpleAnd i body]
  | simpleNot i body => body.postorder ++ [simpleNot i body]
  | optional i body => body.postorder ++ [optional i body]
  | zeroOrMore i body => body.postorder ++ [zeroOrMore i body]
  | oneOrMore i body => body.postorder ++ [oneOrMore i body]
  | repeated i body min max none => body.postorder ++ [repeated i body min max none]
  | repeated i body min max (some delimiter) =>
    body.postorder ++ delimiter.postorder ++ [repeated i body min max (some delimiter)]
  | group i body => body.postorder ++ [group i body]
  | named i name body => body.postorder ++ [named i name body]
  | e@(semanticAnd ..) | e@(semanticNot ..) | e@(ruleRef ..) | e@(literal ..) | e@(charClass ..)
  | e@(any ..) => [e]

def postorderAll : List Expr → List Expr
  | [] => []
  | e :: es => e.postorder ++ postorderAll es

end

/-- A reference: its name and the rule it stands for, if there is one. -/
structure Reference where
  name : String
  target : Option RuleId
  deriving DecidableEq

mutual

/-- The expression with every reference replaced by `f` of it. -/
def mapRefs (f : Reference → Reference) : Expr → Expr
  | choice i first others => choice i (first.mapRefs f) (mapRefsAll f others)
  | sequence i elements => sequence i (mapRefsAll f elements)
  | labeled i label pick body => labeled i label pick (body.mapRefs f)
  | action i body code => action i (body.mapRefs f) code
  | text i body => text i (body.mapRefs f)
  | simpleAnd i body => simpleAnd i (body.mapRefs f)
  | simpleNot i body => simpleNot i (body.mapRefs f)
  | optional i body => optional i (body.mapRefs f)
  | zeroOrMore i body => zeroOrMore i (body.mapRefs f)
  | oneOrMore i body => oneOrMore i (body.mapRefs f)
  | repeated i body min max none => repeated i (body.mapRefs f) min max none
  | repeated i body min max (some delimiter) =>
    repeated i (body.mapRefs f) min max (some (delimiter.mapRefs f))
  | group i body => group i (body.mapRefs f)
  | ruleRef i name target => ruleRef i (f ⟨name, target⟩).name (f ⟨name, target⟩).target
  | named i name body => named i name (body.mapRefs f)
  | e@(semanticAnd ..) | e@(semanticNot ..) | e@(literal ..) | e@(charClass ..) | e@(any ..) => e

def mapRefsAll (f : Reference → Reference) : List Expr → List Expr
  | [] => []
  | e :: es => e.mapRefs f :: mapRefsAll f es

end

/-- The rule that a reference stands for. -/
def target? : Expr → Option RuleId
  | ruleRef _ _ target => target
  | _ => none

end Expr

/-- A named expression. -/
structure Rule where
  name : String
  nameSpan : Span
  /-- What error messages call the rule, instead of what it expects. -/
  displayName : Option String
  body : Expr
  span : Span
  deriving Inhabited

/-- Rules in the order of their declarations, of which some may have been removed. -/
structure Grammar where
  /-- Host code for the top of the generated file. -/
  topLevelInitializer : Option HostCode
  /-- Host code for the generated parser. -/
  initializer : Option HostCode
  rules : List Rule
  removed : List RuleId
  deriving Inhabited

namespace Grammar

/-- The rule with a number. -/
def rule? (g : Grammar) (r : RuleId) : Option Rule := g.rules[r]?

/-- The name of a rule. -/
def ruleName (g : Grammar) (r : RuleId) : String := ((g.rule? r).map (·.name)).getD ""

/-- The rules with their numbers. -/
def numbered (g : Grammar) : List (RuleId × Rule) := g.rules.zipIdx.map fun (rule, i) => (i, rule)

/-- The rules that were not removed, with their numbers. -/
def live (g : Grammar) : List (RuleId × Rule) := g.numbered.filter fun (i, _) => !g.removed.contains i

/-- The numbers of the rules that were not removed. -/
def liveIds (g : Grammar) : List RuleId := g.live.map (·.1)

/-- The first of the remaining rules with a name. -/
def ruleByName? (g : Grammar) (name : String) : Option RuleId :=
  (g.live.find? fun (_, rule) => rule.name == name).map (·.1)

/-- The expressions of the remaining rules, parents before children. -/
def liveExprs (g : Grammar) : List Expr := g.live.flatMap fun (_, rule) => rule.body.preorder

/-- All expressions by number. -/
def arena (g : Grammar) : List Expr := g.rules.flatMap fun rule => rule.body.postorder

/-- The grammar without a rule. -/
def remove (g : Grammar) (r : RuleId) : Grammar :=
  { g with removed := if g.removed.contains r then g.removed else g.removed ++ [r] }

/-- The grammar with new bodies for the rules that `f` changes. -/
def mapBodies (g : Grammar) (f : RuleId → Expr → Expr) : Grammar :=
  { g with rules := g.rules.zipIdx.map fun (rule, i) => { rule with body := f i rule.body } }

end Grammar

end PegCompiler
