/-
Parsers: compiled rules together with the functions that stand for their host code. A parse needs a
function for all host code of the parser, and a start rule; it succeeds if that rule matches all of
the input.
-/
import PegCompiler.Compilation
import PegCompiler.Machine.Run

namespace PegCompiler

/-- What a parse is asked for besides its input. -/
structure ParseOptions where
  /-- The rule to start from, the parser's first start rule if it is not given. -/
  startRule : Option String
  /-- The name of the input in locations. -/
  source : Option String
  /-- Whether someone listens to the rules' reports. -/
  tracing : Bool
  deriving Inhabited

/-- Why a parse has no result. -/
inductive RunError
  | rejected (why : ParseError)
  | fault (why : Fault)
  deriving DecidableEq

/-- How the start rule of a parse ended, whether it matched or not. -/
structure Outcome where
  result : Value
  pos : Nat
  maxFailPos : Nat
  expected : List Expectation

structure Parser where
  /-- Rules that were removed have no code. -/
  rules : Array (Option (RuleCode Raw))
  startRules : List RuleId
  constants : Constants
  cache : Bool
  trace : Bool
  bindings : Bindings

namespace Parser

/-- The code of the remaining rules by number. -/
def rulesOf (c : Compilation) : Array (Option (RuleCode Raw)) :=
  (c.grammar.numbered.map fun (r, rule) =>
    if c.grammar.removed.contains r then none
    else some ⟨rule.name, Code.decode (c.codeOf r).words⟩).toArray

/-- The parser of a compilation, nothing bound yet. -/
def ofCompilation (c : Compilation) : Except InternalError Parser :=
  if c.startRules.isEmpty then .error .noStartRules
  else
    .ok { rules := rulesOf c, startRules := c.startRules, constants := c.constants
          cache := c.options.cache, trace := c.options.trace, bindings := [] }

/-- The name of a rule, if it is there. -/
def ruleName? (p : Parser) (r : RuleId) : Option String := (p.rules.getD r none).map (·.name)

def startRuleNames (p : Parser) : List String := p.startRules.filterMap p.ruleName?

/-- All host code in the order of its first use, with its kind. -/
def functions (p : Parser) : List (FunctionKind × String) :=
  p.constants.functions.toList.map fun f => (f.kind, Bindings.key f.code)

/-- Lets a function stand for all host code with a text. -/
def bind (p : Parser) (code : String) (f : HostFn) : Parser :=
  { p with bindings := p.bindings.bind code f }

/-- The parser as it is shown to programmers. -/
def text (p : Parser) : String :=
  let yesNo (b : Bool) : String := if b then "true" else "false"
  let names := String.intercalate ", " (p.startRuleNames.map Quoted.string)
  "Parser \x7b start_rules: [" ++ names ++ s!"], functions: {p.constants.functions.size}, " ++
    s!"bound: {p.bindings.length}, cache: " ++ yesNo p.cache ++ ", trace: " ++ yesNo p.trace ++ " \x7d"

/-- The first host code without a function. -/
def unbound? (p : Parser) : Option String :=
  (p.functions.find? fun (_, code) => (p.bindings.find? code).isNone).map (·.2)

/-- The rule that a parse starts from. -/
def entry (p : Parser) (o : ParseOptions) : Except ParseError RuleId :=
  match o.startRule with
  | none => .ok (p.startRules.headD 0)
  | some name =>
    match p.startRules.find? fun r => p.ruleName? r == some name with
    | some r => .ok r
    | none => .error (.unknownStartRule name o.source)

/-- A constant, or a fault if there is none with this number. -/
def constant {α : Type} (pool : Pool α) (fault : Nat → Fault) (i : Nat) : Except Fault α :=
  match pool.get? i with
  | some a => .ok a
  | none => .error (fault i)

/-- A function's kind, and what is bound to its code. -/
def function (p : Parser) (i : Nat) : Except Fault (FunctionKind × HostFn) := do
  let f ← constant p.constants.functions .unknownFunction i
  match p.bindings.find? f.code with
  | some host => return (f.kind, host)
  | none => throw (.unbound (Bindings.key f.code))

/-- What the machine runs. -/
def program (p : Parser) : Program Raw where
  rules := p.rules
  literal := constant p.constants.literals .unknownLiteral
  charClass := constant p.constants.classes .unknownClass
  expectation := constant p.constants.expectations .unknownExpectation
  function := p.function
  defect := .undecodable
  cache := p.cache
  trace := p.trace

/-- Runs the start rule with a given amount of fuel. -/
def runWithin (p : Parser) (fuel : Nat) (input : String) (o : ParseOptions) :
    Except RunError Value × ParseState :=
  let st := ParseState.start input o.source o.tracing
  match p.unbound?, p.entry o with
  | some code, _ => (.error (.fault (.unbound code)), st)
  | none, .error why => (.error (.rejected why), st)
  | none, .ok r =>
    match Machine.rule p.program fuel r st with
    | .ok v st => (.ok v, st)
    | .error why st => (.error (.fault why), st)

/-- More steps inside each other than any machine can take. -/
def plenty : Nat := 1000000000000000000

/-- Runs the start rule, and gives the rules' reports too. -/
def run (p : Parser) (input : String) (o : ParseOptions) : Except RunError Outcome × List TraceEvent :=
  let (result, st) := p.runWithin plenty input o
  (result.map fun v => ⟨v, st.pos, st.maxFailPos, st.expected.toList⟩, st.events)

/-- How a run with an end state counts as a parse. -/
def finish (result : Except RunError Value) (st : ParseState) : Except RunError Value :=
  match result with
  | .ok v => (st.finish v).1.mapError .rejected
  | .error why => .error why

/-- Parses all of an input, and gives the rules' reports too. -/
def parse (p : Parser) (input : String) (o : ParseOptions) : Except RunError Value × List TraceEvent :=
  let (result, st) := p.runWithin plenty input o
  (finish result st, st.events)

end Parser

namespace RunError

/-- The error as it is reported. -/
def text : RunError → String
  | rejected why => why.text
  | fault (.unbound code) => Fault.message (.unbound code)
  | fault why => InternalError.report why.message

end RunError

/-! ## What a compilation is asked for -/

/-- What a compilation gives. -/
inductive Output
  | parser (p : Parser)
  | source (text : String)
  | sourceAndMap (text : String) (map : SourceMap)
  | ast (c : Compilation)

/-- The output of a finished compilation. -/
def Compilation.output (c : Compilation) : Except InternalError Output :=
  match c.options.output, c.code with
  | .parser, _ => (Parser.ofCompilation c).map .parser
  | .source, some code => .ok (.source code.source)
  | .source, none => .error .sourceMissing
  | .sourceAndMap, some ⟨source, some map⟩ => .ok (.sourceAndMap source map)
  | .sourceAndMap, _ => .error .sourceMapMissing
  | .ast, _ => .ok (.ast c)

/-- Compiles a grammar: the output, and what was said about the grammar. -/
def compile (grammar : Grammar) (options : CompileOptions) :
    Except CompileError (Output × List Diagnostic) := do
  let s ← Session.complete grammar options
  match s.compilation.output with
  | .ok output => return (output, s.diagnostics)
  | .error why => throw (.failed why)

end PegCompiler
