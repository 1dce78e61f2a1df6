/-
The arguments of the command line. They are read from left to right, up to the first that is wrong;
a flag that takes a value may be given again, and the last value counts, but for start rules, which
add up. What the arguments leave open comes from a file of options.
-/
import PegCompiler.Options

namespace PegCompiler.Cli

/-- What is wrong with arguments. -/
inductive ArgumentError
  | missingValue (flag : String)
  | unknownOutput (name : String)
  | unknownFlag (flag : String)
  | noGrammar
  | severalGrammars
  deriving DecidableEq

def ArgumentError.message : ArgumentError → String
  | missingValue flag => s!"Expected an argument after {flag}"
  | unknownOutput name =>
    let known := String.intercalate ", " (OutputKind.all.map fun k => s!"`{k.name}`")
    s!"Unknown output kind {name}: unknown variant `{name}`, expected one of {known}"
  | unknownFlag flag => s!"Unknown flag {flag}"
  | noGrammar => "No grammar file provided"
  | severalGrammars => "Only one grammar file may be provided"

/-- What the arguments ask for. -/
structure Arguments where
  /-- What is neither a flag nor its value. -/
  files : List String
  /-- The file of the text that the grammar was read from. -/
  grammarText : Option String
  /-- The file of options. -/
  options : Option String
  startRules : List String
  cache : Bool
  trace : Bool
  runtimePath : Option String
  output : Option OutputKind
  /-- Whether to show the grammar. -/
  showGrammar : Bool
  /-- Whether to show the code of the rules. -/
  showCode : Bool
  /-- The file for the source map. -/
  map : Option String
  /-- The file for what is shown otherwise. -/
  outFile : Option String
  /-- The file to be parsed. -/
  parse : Option String
  deriving DecidableEq

namespace Arguments

/-- Nothing is asked for. -/
def empty : Arguments :=
  { files := [], grammarText := none, options := none, startRules := [], cache := false, trace := false
    runtimePath := none, output := none, showGrammar := false, showCode := false, map := none
    outFile := none, parse := none }

/-- What a flag does that takes no value. -/
def switch? : String → Option (Arguments → Arguments)
  | "--bytecode" => some fun a => { a with showCode := true }
  | "--ast" => some fun a => { a with showGrammar := true }
  | "--cache" => some fun a => { a with cache := true }
  | "--trace" => some fun a => { a with trace := true }
  | "--source" | "--rustfmt" | "--bench" => some id
  | _ => none

/-- What a flag does with its value. -/
def setting? : String → Option (String → Arguments → Except ArgumentError Arguments)
  | "--map" => some fun v a => .ok { a with map := some v }
  | "--start-rule" => some fun v a => .ok { a with startRules := a.startRules ++ [v] }
  | "--runtime-path" => some fun v a => .ok { a with runtimePath := some v }
  | "--output" => some fun v a =>
    match OutputKind.ofName? v with
    | some kind => .ok { a with output := some kind }
    | none => .error (.unknownOutput v)
  | "--out-file" | "-o" => some fun v a => .ok { a with outFile := some v }
  | "--options" => some fun v a => .ok { a with options := some v }
  | "--grammar-text" => some fun v a => .ok { a with grammarText := some v }
  | "--parse" => some fun v a => .ok { a with parse := some v }
  | _ => none

/-- What an argument does that is no flag that is known. -/
def file (name : String) (a : Arguments) : Except ArgumentError Arguments :=
  if name.startsWith "--" then .error (.unknownFlag name) else .ok { a with files := a.files ++ [name] }

/-- The arguments `a` and then those of a list. -/
def read (a : Arguments) : List String → Except ArgumentError Arguments
  | [] => .ok a
  | [flag] =>
    match switch? flag, setting? flag with
    | some f, _ => .ok (f a)
    | none, some _ => .error (.missingValue flag)
    | none, none => a.file flag
  | flag :: value :: rest =>
    match switch? flag, setting? flag with
    | some f, _ => (f a).read (value :: rest)
    | none, some f => do (← f value a).read rest
    | none, none => do (← a.file flag).read (value :: rest)

/-- The arguments that a list stands for, and the file of the grammar. -/
def ofList (args : List String) : Except ArgumentError (Arguments × String) := do
  let a ← empty.read args
  match a.files with
  | [] => throw .noGrammar
  | [grammar] => return (a, grammar)
  | _ => throw .severalGrammars

/-- What a compilation gives if the arguments name no output. -/
def impliedOutput (a : Arguments) : OutputKind :=
  if a.parse.isSome then .parser
  else if a.showGrammar || a.showCode then .ast
  else if a.map.isSome then .sourceAndMap
  else .source

/-- The options of a file with those that the arguments determine. -/
def override (a : Arguments) (o : CompileOptions) : CompileOptions :=
  { o with
    allowedStartRules := if a.startRules.isEmpty then o.allowedStartRules else a.startRules
    cache := o.cache || a.cache
    trace := o.trace || a.trace
    output := a.output.getD a.impliedOutput
    runtimePath := a.runtimePath.getD o.runtimePath }

end Arguments

end PegCompiler.Cli
