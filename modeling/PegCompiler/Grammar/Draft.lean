/-
A grammar as it is handed over: a tree of expressions in which rules are named, not yet found, and
which nothing has checked. `Draft.build?` (module `Grammar.Build`) makes a grammar of it.
-/
import PegCompiler.CharClass
import PegCompiler.Text.Span

namespace PegCompiler

/-- A bound on the number of repetitions. -/
inductive Boundary
  /-- A number; none where there is no bound. -/
  | constant (count : Option Nat)
  /-- The value of an earlier label. -/
  | label (name : Located String)
  /-- The result of host code. -/
  | computed (code : HostCode)
  deriving DecidableEq, Inhabited

/-- A parsing expression in which references are names. -/
inductive Draft.Expr
  | choice (span : Span) (alternatives : List Draft.Expr)
  | sequence (span : Span) (elements : List Draft.Expr)
  | labeled (span : Span) (label : Option String) (labelSpan : Span) (pick : Bool) (body : Draft.Expr)
  | action (span : Span) (body : Draft.Expr) (code : HostCode)
  | text (span : Span) (body : Draft.Expr)
  | simpleAnd (span : Span) (body : Draft.Expr)
  | simpleNot (span : Span) (body : Draft.Expr)
  | semanticAnd (span : Span) (code : HostCode)
  | semanticNot (span : Span) (code : HostCode)
  | optional (span : Span) (body : Draft.Expr)
  | zeroOrMore (span : Span) (body : Draft.Expr)
  | oneOrMore (span : Span) (body : Draft.Expr)
  | repeated (span : Span) (body : Draft.Expr) (min : Option Boundary) (max : Boundary)
      (delimiter : Option Draft.Expr)
  | group (span : Span) (body : Draft.Expr)
  | ruleRef (span : Span) (name : String)
  | literal (span : Span) (value : String) (ignoreCase : Bool)
  | charClass (span : Span) (k : CharClass)
  | any (span : Span)
  | named (span : Span) (name : String) (body : Draft.Expr)
  deriving Inhabited

/-- A rule of a draft. -/
structure Draft.Rule where
  name : String
  nameSpan : Span
  displayName : Option String
  body : Draft.Expr
  span : Span
  deriving Inhabited

/-- A grammar before it is built. -/
structure Draft where
  /-- Host code for the top of the generated file. -/
  topLevelInitializer : Option HostCode
  /-- Host code for the generated parser. -/
  initializer : Option HostCode
  rules : List Draft.Rule
  deriving Inhabited

/-! ## Constructors for drafts that were written nowhere -/

namespace Draft.Expr

/-- The expression with a span of its own. -/
def withSpan (e : Draft.Expr) (span : Span) : Draft.Expr :=
  match e with
  | choice _ alternatives => choice span alternatives
  | sequence _ elements => sequence span elements
  | labeled _ label labelSpan pick body => labeled span label labelSpan pick body
  | action _ body code => action span body code
  | text _ body => text span body
  | simpleAnd _ body => simpleAnd span body
  | simpleNot _ body => simpleNot span body
  | semanticAnd _ code => semanticAnd span code
  | semanticNot _ code => semanticNot span code
  | optional _ body => optional span body
  | zeroOrMore _ body => zeroOrMore span body
  | oneOrMore _ body => oneOrMore span body
  | repeated _ body min max delimiter => repeated span body min max delimiter
  | group _ body => group span body
  | ruleRef _ name => ruleRef span name
  | literal _ value ignoreCase => literal span value ignoreCase
  | charClass _ k => charClass span k
  | any _ => any span
  | named _ name body => named span name body

/-- Text as it is written. -/
def exactly (value : String) : Draft.Expr := literal .empty value false

/-- Text in any case. -/
def inAnyCase (value : String) : Draft.Expr := literal .empty value true

/-- The parts for pairs of first and last characters; a pair of equals is one character. -/
def partsOfRanges (ranges : List (Char × Char)) : List ClassPart :=
  ranges.map fun (first, last) => if first = last then .char first else .range first last

/-- A class of ranges. -/
def oneOf (ranges : List (Char × Char)) (inverted ignoreCase : Bool) : Draft.Expr :=
  charClass .empty ⟨partsOfRanges ranges, inverted, ignoreCase⟩

/-- A rule. -/
def ref (name : String) : Draft.Expr := ruleRef .empty name

/-- One after the other. -/
def seq (elements : List Draft.Expr) : Draft.Expr := sequence .empty elements

/-- The first that matches. -/
def firstOf (alternatives : List Draft.Expr) : Draft.Expr := choice .empty alternatives

/-- A named result. -/
def called (body : Draft.Expr) (label : String) : Draft.Expr := labeled .empty (some label) .empty false body

/-- The result that its sequence stands for. -/
def picked (body : Draft.Expr) : Draft.Expr := labeled .empty none .empty true body

/-- Host code for a result. -/
def thenDo (body : Draft.Expr) (code : String) : Draft.Expr := action .empty body ⟨code, .empty⟩

/-- Any number of times. -/
def star (body : Draft.Expr) : Draft.Expr := zeroOrMore .empty body

/-- At least once. -/
def plus (body : Draft.Expr) : Draft.Expr := oneOrMore .empty body

end Draft.Expr

/-- A rule without spans. -/
def Draft.Rule.of (name : String) (body : Draft.Expr) (displayName : Option String) : Draft.Rule :=
  ⟨name, .empty, displayName, body, .empty⟩

end PegCompiler
