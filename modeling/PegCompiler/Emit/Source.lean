/-
The source text of a parser: constants, entry point, and a method for every function and rule.
-/
import PegCompiler.Emit.RuleBody
import PegCompiler.Grammar.Basic
import PegCompiler.Options

namespace PegCompiler

/-- The compiled code of a rule, and the greatest slot it uses. -/
structure Bytecode where
  words : List Nat
  maxSlot : Nat
  deriving DecidableEq, Inhabited

namespace Bytecode

def empty : Bytecode := ⟨[], 0⟩

end Bytecode

namespace Source

/-- What a parser's source text is made of. -/
structure Parts where
  grammar : Grammar
  options : CompileOptions
  startRules : List RuleId
  constants : Constants
  bytecode : RuleId → Bytecode

/-! ## Constants -/

def partText : ClassPart → String
  | .char c => "ClassPart::Char(" ++ Quoted.char c ++ ")"
  | .range first last => "ClassPart::Range(" ++ Quoted.char first ++ ", " ++ Quoted.char last ++ ")"

def boolText (b : Bool) : String := if b then "true" else "false"

def classText (k : CharClass) : String :=
  "CharClass \x7b parts: Cow::Borrowed(&[" ++ String.intercalate ", " (k.parts.map partText) ++
    "]), inverted: " ++ boolText k.inverted ++ ", ignore_case: " ++ boolText k.ignoreCase ++ " \x7d"

def expectationText : Expectation → String
  | .literal text ignoreCase =>
    "Expectation::Literal \x7b text: Cow::Borrowed(" ++ Quoted.string text ++ "), ignore_case: " ++
      boolText ignoreCase ++ " \x7d"
  | .charClass k => "Expectation::Class(" ++ classText k ++ ")"
  | .any => "Expectation::Any"
  | .endOfInput => "Expectation::End"
  | .named description =>
    "Expectation::Other \x7b description: Cow::Borrowed(" ++ Quoted.string description ++ ") \x7d"

/-- The constants' lines. -/
def constantLines (k : Constants) : List String :=
  (k.literals.indexed.map fun (i, s) => s!"const L{i}: &str = " ++ Quoted.string s ++ ";") ++
  (k.classes.indexed.map fun (i, c) => s!"const C{i}: CharClass = " ++ classText c ++ ";") ++
  (k.expectations.indexed.map fun (i, e) =>
    s!"const E{i}: Expectation = " ++ expectationText e ++ ";")

/-! ## Methods -/

/-- A block of one statement. -/
def block (head body : String) (w : CodeWriter) : CodeWriter :=
  ((w.openBlock (head ++ " \x7b")).line body).closeBlock "\x7d"

/-- What host code can call. -/
def helpers (w : CodeWriter) : CodeWriter :=
  let w := w.line "/// Text matched by the expression the running action is attached to."
  let w := block "fn text(&self) -> &'a str" "self.st.saved_text()" w
  let w := block "fn offset(&self) -> usize" "self.st.saved_pos" w
  let w := block "fn range(&self) -> std::ops::Range<usize>" "self.st.saved_pos..self.st.pos" w
  let w := w.openBlock "fn location(&mut self) -> Location \x7b"
  let w := w.line "let (start, end) = (self.st.saved_pos, self.st.pos);"
  let w := w.line "self.st.location(start, end)"
  w.closeBlock "\x7d"

/-- The type of a function's result. -/
def resultType : FunctionKind → String
  | .action => "Value"
  | .predicate => "bool"
  | .boundary => "usize"

/-- The method of a function. -/
def function (i : Nat) (f : HostFunction) (w : CodeWriter) : CodeWriter :=
  let params := String.join (f.params.map fun p => s!", {p}: Value")
  let w := w.openBlock (s!"fn f{i}(&mut self{params}) -> " ++ resultType f.kind ++ " \x7b")
  let w := match f.kind with
    | .action => ((w.openBlock "Value::from(\x7b").code f.code f.span).closeBlock "\x7d)"
    | .predicate | .boundary => w.code f.code f.span
  w.closeBlock "\x7d"

/-- A statement for a parser that someone watches, if the option asks for it. -/
def traced (o : CompileOptions) (statement : String) (w : CodeWriter) : CodeWriter :=
  if o.trace then block "if self.st.tracing()" statement w else w

/-- The method of a rule. -/
def rule (p : Parts) (r : RuleId) (rule : Rule) (w : CodeWriter) : Except EmitError CodeWriter := do
  let quoted := Quoted.string rule.name
  let bytecode := p.bytecode r
  let w := w.pushOrigin rule.span
  let w := w.openBlock (s!"fn parse_{rule.name}(&mut self) -> Value " ++ "\x7b")
  let w := w.line "let start = self.st.pos;"
  let w := traced p.options s!"self.st.trace_enter({quoted}, start);" w
  let w :=
    if p.options.cache then
      let w := w.openBlock (s!"if let Some(cached) = self.st.cache_lookup({r}) " ++ "\x7b")
      let w := traced p.options s!"self.st.trace_exit({quoted}, start, &cached, true);" w
      (w.line "return cached;").closeBlock "\x7d"
    else w
  let context : RuleBody.Context :=
    { rule := rule.name, limit := bytecode.maxSlot, constants := p.constants
      ruleName? := fun i => p.grammar.live.lookup i |>.map (·.name) }
  let body ← RuleBody.ofCode context (Code.decode bytecode.words)
  let w := body.write w
  let w := if p.options.cache then w.line s!"self.st.cache_store({r}, start, &s0);" else w
  let w := traced p.options s!"self.st.trace_exit({quoted}, start, &s0, false);" w
  return ((w.line "s0").closeBlock "\x7d").popOrigin

/-- The methods of rules. -/
def rules (p : Parts) : List (RuleId × Rule) → CodeWriter → Except EmitError CodeWriter
  | [], w => return w
  | (r, body) :: rest, w => do
    let w ← rule p r body w
    rules p rest w

/-! ## The whole text -/

/-- The function that parses, which needs a start rule. -/
def entryPoint (p : Parts) (w : CodeWriter) : Except EmitError CodeWriter := do
  let names := p.startRules.map p.grammar.ruleName
  match names with
  | [] => throw .noStartRules
  | first :: _ =>
    let list := String.intercalate ", " (names.map Quoted.string)
    let w := w.line
      "/// Rules `parse` can start from, the first one is used unless another is requested."
    let w := w.line s!"pub const START_RULES: &[&str] = &[{list}];"
    let w := w.blank
    let w := w.openBlock
      "pub fn parse(input: &str, options: ParseOptions) -> Result<Value, ParseError> \x7b"
    let w := w.line ("let start_rule = options.start_rule.clone().unwrap_or_else(|| " ++
      Quoted.string first ++ ".to_owned());")
    let w := w.line "let source = options.grammar_source.clone();"
    let w := w.line "let mut parser = Parser \x7b st: ParseState::new(input, options) \x7d;"
    let w := w.openBlock "let result = match start_rule.as_str() \x7b"
    let w := names.foldl (fun w n => w.line (Quoted.string n ++ s!" => parser.parse_{n}(),")) w
    let w := w.line "_ => return Err(ParseError::unknown_start_rule(&start_rule, source)),"
    let w := w.closeBlock "\x7d;"
    let w := w.line "parser.st.finish(result)"
    return w.closeBlock "\x7d"

/-- What comes before the constants. -/
def header (o : CompileOptions) (top : Option HostCode) : CodeWriter :=
  let w := CodeWriter.empty.line "// Generated by pegc, edits will be lost."
  let w := w.blank
  let w := w.line "#[allow(unused_imports)]"
  let w := w.line "use std::borrow::Cow;"
  let w := w.line "#[allow(unused_imports)]"
  let w := w.line (s!"use {o.runtimePath}::" ++ "\x7bCharClass, ClassPart, Expectation, Location, " ++
    "ParseError, ParseOptions, ParseState, Value\x7d;")
  let w := w.blank
  top.elim w fun code => (w.code code.val code.span).blank

/-- The lines of a parser. -/
def write (p : Parts) : Except EmitError CodeWriter := do
  let w := header p.options p.grammar.topLevelInitializer
  let constants := constantLines p.constants
  let w := constants.foldl CodeWriter.line w
  let w := if constants.isEmpty then w else w.blank
  let w ← entryPoint p w
  let w := w.blank
  let w := w.line "struct Parser<'a> \x7b"
  let w := w.line "    st: ParseState<'a>,"
  let w := w.line "\x7d"
  let w := w.blank
  let w := w.line ("#[allow(non_snake_case, dead_code, unused_mut, unused_variables, " ++
    "unused_assignments, unused_braces, clippy::all)]")
  let w := w.openBlock "impl<'a> Parser<'a> \x7b"
  let w := helpers w
  let w := p.grammar.initializer.elim w fun code => w.code code.val code.span
  let w := p.constants.functions.indexed.foldl (fun w (i, f) => function i f w) w
  let w ← rules p p.grammar.live w
  return w.closeBlock "\x7d"

end Source

end PegCompiler
