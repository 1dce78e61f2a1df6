/-
Two small grammars with the functions of their host code: a pair of letters, and sums of numbers that
`neg` negates.
-/
import PegCompiler.Grammar.Build
import PegCompiler.Machine.Parser
import PegCompiler.Text.Decimal

namespace PegCompiler

/-- A grammar, and functions for all its host code. -/
structure Sample where
  draft : Draft
  bindings : List (String × HostFn)

namespace Sample

open Draft.Expr

/-- `Start = "a" "b"`. -/
def pair : Sample where
  draft := ⟨none, none, [.of "Start" (seq [exactly "a", exactly "b"]) none]⟩
  bindings := []

/-- The value of a run of digits; zero if it does not fit. -/
def numberOf (view : HostView) : Value := .int ((Decimal.int? view.text).getD 0)

/-- The whole numbers among the items of an array. -/
def intsOf : Value → List Int
  | .array items => items.filterMap Value.int?
  | _ => []

/-- The first number and those after it, added. -/
def totalOf (head tail : Value) : Value :=
  .int (Value.wrapInt ((intsOf tail).foldl (· + ·) (head.int?.getD 0)))

def negated (v : Value) : Value := .int (Value.wrapInt (-(v.int?.getD 0)))

/-- Numbers with a plus between them, blanks around it, the whole negated after `neg` in any case. -/
def sum : Sample where
  draft := ⟨none, none, [
    .of "Start" (firstOf [
      (seq [inAnyCase "neg", ref "_", (ref "Sum").called "v"]).thenDo "negated",
      ref "Sum"]) none,
    .of "Sum" ((seq [
      (ref "Num").called "head",
      (seq [ref "_", exactly "+", ref "_", (ref "Num").picked]).star.called "tail"]).thenDo "total")
      none,
    .of "Num" ((oneOf [('0', '9')] false false).plus.thenDo "number") (some "number"),
    .of "_" (exactly " ").star none]⟩
  bindings := [
    ("negated", fun _ args => negated (args.headD .null)),
    ("total", fun _ args => totalOf (args.headD .null) (args.getD 1 .null)),
    ("number", fun view _ => numberOf view)]

/-- The parser of a sample, with or without remembered results. -/
def parser? (s : Sample) (cache : Bool) : Option Parser :=
  match s.draft.build? with
  | .error _ => none
  | .ok grammar =>
    match compile grammar { CompileOptions.default with cache } with
    | .ok (.parser p, _) => some (s.bindings.foldl (fun p (code, f) => p.bind code f) p)
    | _ => none

end Sample

end PegCompiler
