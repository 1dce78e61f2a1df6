/-
A run of the command line: a grammar is read from a file and compiled, what was said about it is
reported, and its parser is used or the output is shown. A run ends with the first error.
-/
import PegCompiler.Cli.Arguments
import PegCompiler.Cli.Files
import PegCompiler.Grammar.Build
import PegCompiler.Grammar.Printer
import PegCompiler.Json.Printer
import PegCompiler.Json.Reader
import PegCompiler.Machine.Parser

namespace PegCompiler.Cli

/-- Why a run ended early. -/
inductive Failure
  | arguments (why : ArgumentError)
  | unreadable (path : String) (why : FileError)
  | unwritable (path : String) (why : FileError)
  | invalidOptions (path : String)
  /-- The text of a file is no grammar, perhaps only because it is nested too deep somewhere. -/
  | invalidGrammar (path : String) (deep : Option Json.Place)
  | draft (why : DraftError)
  | rejected
  | internal (why : InternalError)
  | parse (why : RunError)
  | noInput
  deriving DecidableEq

def Failure.message : Failure → String
  | arguments why => why.message
  | unreadable path why => s!"Failed to read `{path}`: {why.message}"
  | unwritable path why => s!"Failed to write `{path}`: {why.message}"
  | invalidOptions path => s!"Invalid options in `{path}`"
  | invalidGrammar path none => s!"Invalid grammar in `{path}`"
  | invalidGrammar path (some place) =>
    s!"Invalid grammar in `{path}`: recursion limit exceeded at line {place.line} column {place.column}"
  | draft why => why.text
  | rejected => "Grammar has errors"
  | internal why => why.text
  | parse why => why.text
  | noInput => "Nothing to do with the parser"

/-- What a run writes to its two streams. -/
structure Printed where
  out : String
  err : String
  deriving DecidableEq, Inhabited

/-- A run over some way to use files. -/
abbrev Running (m : Type → Type) := ExceptT Failure (StateT Printed m)

section

variable {m : Type → Type} [Monad m]

def printOut (s : String) : Running m Unit := modify fun p => { p with out := p.out ++ s }

def printErr (s : String) : Running m Unit := modify fun p => { p with err := p.err ++ s }

/-- The text of a file. -/
def readFile (fs : FileAccess m) (path : String) : Running m String := do
  match ← (fs.read path : m _) with
  | .ok text => return text
  | .error why => throw (.unreadable path why)

def writeFile (fs : FileAccess m) (path text : String) : Running m Unit := do
  match ← (fs.write path text : m _) with
  | .ok _ => return ⟨⟩
  | .error why => throw (.unwritable path why)

/-! ## Reports -/

/-- Where a span begins: line and column if the grammar's text is known, or else the span itself. -/
def placeText (grammarText : Option String) (s : Span) : String :=
  match grammarText with
  | some text =>
    let p := Position.ofOffset text.toList s.start
    s!"{p.line}:{p.column}"
  | none => s.text

/-- A diagnostic about a file, with a line for every related place. -/
def reportText (file : String) (grammarText : Option String) (d : Diagnostic) : String :=
  let line (indent kind message : String) (s : Span) : String :=
    indent ++ s!"{file}:{placeText grammarText s} {kind}: {message}\n"
  line "" d.severity.text d.message d.span ++
    String.join (d.related.map fun r => line "  " "note" r.message r.span)

def reportAll (file : String) (grammarText : Option String) (ds : List Diagnostic) : Running m Unit :=
  printErr (String.join (ds.map (reportText file grammarText)))

/-! ## Outputs -/

/-- Shows a text, or writes it to the file for it. -/
def emit (fs : FileAccess m) (a : Arguments) (text : String) : Running m Unit :=
  match a.outFile with
  | some path => writeFile fs path text
  | none => printOut text

/-- Parses a file and shows the value. -/
def parseFile (fs : FileAccess m) (a : Arguments) (p : Parser) : Running m Unit := do
  match a.parse with
  | none => throw .noInput
  | some path =>
    let input ← readFile fs path
    match (p.parse input ⟨none, some path, p.trace⟩).1 with
    | .ok v => emit fs a (v.text ++ "\n")
    | .error why => throw (.parse why)

/-- The grammar, and which of its rules can match. -/
def grammarText (c : Compilation) : String :=
  c.grammar.notated ++ String.join (c.grammar.live.filterMap fun (r, rule) =>
    (c.found.ofRule? r).map fun result => s!"# {rule.name} {result.name}\n")

/-- Shows the grammar and the code, or one of them if only that is asked for. -/
def emitAnalysis (fs : FileAccess m) (a : Arguments) (c : Compilation) : Running m Unit := do
  let both := !a.showGrammar && !a.showCode
  let grammar := if a.showGrammar || both then grammarText c else ""
  let code ← if a.showCode || both then
      match c.listing with
      | .ok text => pure text
      | .error why => throw (.internal why)
    else pure ""
  emit fs a (grammar ++ code)

/-- Shows source text, and writes the map if there is a file for it. -/
def emitSource (fs : FileAccess m) (a : Arguments) (source : String) (map : Option SourceMap) :
    Running m Unit := do
  emit fs a source
  match map, a.map with
  | some map, some path => writeFile fs path (map.toJson.pretty 0)
  | _, _ => return ⟨⟩

/-- Uses or shows what a compilation gave. -/
def deliver (fs : FileAccess m) (a : Arguments) : Output → Running m Unit
  | .parser p => parseFile fs a p
  | .source source => emitSource fs a source none
  | .sourceAndMap source map => emitSource fs a source (some map)
  | .ast c => emitAnalysis fs a c

/-! ## The run -/

/-- The options of the file for them, if there is one, with those of the arguments. -/
def readOptions (fs : FileAccess m) (a : Arguments) : Running m CompileOptions := do
  match a.options with
  | none => return a.override .default
  | some path =>
    match (Json.ofText? (← readFile fs path)).bind CompileOptions.ofJson? with
    | some o => return a.override o
    | none => throw (.invalidOptions path)

/-- The draft in a file. -/
def readDraft (fs : FileAccess m) (path : String) : Running m Draft := do
  let text ← readFile fs path
  match Draft.ofText? text with
  | some d => return d
  | none => throw (.invalidGrammar path (Draft.tooDeepAt? text))

/-- The text of a file, if there is one. -/
def readText? (fs : FileAccess m) : (path : Option String) → Running m (Option String)
  | some path => return some (← readFile fs path)
  | none => return none

/-- The grammar of a draft. -/
def build (d : Draft) : Running m Grammar :=
  match d.build? with
  | .ok grammar => return grammar
  | .error why => throw (.draft why)

/-- Does what the arguments ask for. -/
def main (fs : FileAccess m) (args : List String) : Running m Unit := do
  match Arguments.ofList args with
  | .error why => throw (.arguments why)
  | .ok (a, path) =>
    let options ← readOptions fs a
    let draft ← readDraft fs path
    let text ← readText? fs a.grammarText
    let grammar ← build draft
    let report := reportAll (a.grammarText.getD path) text
    match compile grammar options with
    | .ok (output, ds) =>
      report ds
      deliver fs a output
    | .error (.rejected why) =>
      report why.diagnostics
      throw .rejected
    | .error (.failed why) => throw (.internal why)

/-- Does what the arguments ask for: what was written to the two streams, and whether all went well. -/
def run (fs : FileAccess m) (args : List String) : m (Printed × Bool) := do
  match ← (main fs args).run ⟨"", ""⟩ with
  | (.ok _, p) => return (p, true)
  | (.error why, p) => return ({ p with err := p.err ++ s!"error: {why.message}\n" }, false)

end

end PegCompiler.Cli
