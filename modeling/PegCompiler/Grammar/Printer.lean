/-
Grammars in the notation of parsing expressions. An expression is put in parentheses where its
operator binds less tightly than its place needs.
-/
import PegCompiler.Grammar.Basic

namespace PegCompiler

namespace Boundary

/-- The bound as grammar notation writes it; nothing for no bound. -/
def notated : Boundary → String
  | constant (some n) => toString n
  | constant none => ""
  | label name => name.val
  | computed code => "\x7b" ++ code.val ++ "\x7d"

end Boundary

namespace ClassPart

/-- The part as grammar notation writes it. -/
def notated : ClassPart → String
  | char c => Quoted.bareChar c
  | range first last => Quoted.bareChar first ++ "-" ++ Quoted.bareChar last

end ClassPart

namespace Expr

/-- The text in parentheses if the condition holds. -/
def parens (condition : Bool) (s : String) : String := if condition then "(" ++ s ++ ")" else s

/-- A mark for an option that is on. -/
def flag (on : Bool) (mark : String) : String := if on then mark else ""

/-- The bounds of a repetition. -/
def notateBounds (min : Option Boundary) (max : Boundary) : String :=
  min.elim "" (·.notated ++ "..") ++ max.notated

mutual

/-- The expression where at least the precedence `least` is needed: a choice has precedence 0, an
action 1, a sequence 2, what stands before an expression 3, what stands after one 4, and the rest 5. -/
def notate : Expr → (least : Nat) → String
  | choice _ first others, least => parens (0 < least) (first.notate 1 ++ notateAll " / " 1 others)
  | sequence _ [], least => parens (2 < least) "()"
  | sequence _ (first :: others), least =>
    parens (2 < least) (first.notate 3 ++ notateAll " " 3 others)
  | labeled _ label pick body, least =>
    parens (3 < least) (flag pick "@" ++ (label.elim "" (·.val ++ ":")) ++ body.notate 4)
  | action _ body code, least =>
    parens (1 < least) (body.notate 2 ++ " \x7b" ++ code.val ++ "\x7d")
  | text _ body, least => parens (3 < least) ("$" ++ body.notate 4)
  | simpleAnd _ body, least => parens (3 < least) ("&" ++ body.notate 4)
  | simpleNot _ body, least => parens (3 < least) ("!" ++ body.notate 4)
  | semanticAnd _ code, _ => "&\x7b" ++ code.val ++ "\x7d"
  | semanticNot _ code, _ => "!\x7b" ++ code.val ++ "\x7d"
  | optional _ body, least => parens (4 < least) (body.notate 5 ++ "?")
  | zeroOrMore _ body, least => parens (4 < least) (body.notate 5 ++ "*")
  | oneOrMore _ body, least => parens (4 < least) (body.notate 5 ++ "+")
  | repeated _ body min max none, least =>
    parens (4 < least) (body.notate 5 ++ "|" ++ notateBounds min max ++ "|")
  | repeated _ body min max (some delimiter), least =>
    parens (4 < least) (body.notate 5 ++ "|" ++ notateBounds min max ++ ", " ++ delimiter.notate 0 ++ "|")
  | group _ body, _ => "(" ++ body.notate 0 ++ ")"
  | ruleRef _ name _, _ => name
  | literal _ value ignoreCase, _ => "\"" ++ Quoted.bare value ++ "\"" ++ flag ignoreCase "i"
  | charClass _ k, _ =>
    "[" ++ flag k.inverted "^" ++ String.join (k.parts.map ClassPart.notated) ++ "]" ++
      flag k.ignoreCase "i"
  | any _, _ => "."
  | named _ _ body, least => body.notate least

/-- The expressions, each after a separator. -/
def notateAll (separator : String) (least : Nat) : List Expr → String
  | [] => ""
  | e :: es => separator ++ e.notate least ++ notateAll separator least es

end

end Expr

/-- A rule on a line of its own. -/
def Rule.notated (r : Rule) : String :=
  let shown := r.displayName.elim "" fun a => " \"" ++ Quoted.bare a ++ "\""
  r.name ++ shown ++ " = " ++ r.body.notate 0 ++ "\n"

/-- The remaining rules of the grammar, one line each. -/
def Grammar.notated (g : Grammar) : String := String.join (g.live.map fun (_, rule) => rule.notated)

end PegCompiler
