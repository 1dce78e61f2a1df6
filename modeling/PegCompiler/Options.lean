/-
The options of a compilation and their JSON form.
-/
import PegCompiler.Grammar.DraftJson

namespace PegCompiler

/-- What a compilation is asked for. -/
inductive OutputKind
  /-- A parser that runs the code. -/
  | parser
  /-- Source text. -/
  | source
  /-- Source text, and where each line of it comes from. -/
  | sourceAndMap
  /-- The grammar with every result of its analysis. -/
  | ast
  deriving DecidableEq, Inhabited

namespace OutputKind

def name : OutputKind → String
  | parser => "parser"
  | source => "source"
  | sourceAndMap => "source-and-map"
  | ast => "ast"

def all : List OutputKind := [parser, source, sourceAndMap, ast]

def ofName? (s : String) : Option OutputKind := all.find? (·.name == s)

/-- A kind by its name, which may also be the only field of an object, with null for a value. -/
def ofJson? : Json → Option OutputKind
  | .str s => ofName? s
  | .obj [(s, .null)] => ofName? s
  | _ => none

end OutputKind

structure CompileOptions where
  /-- The rules that a parse may start from: none means the first rule, `*` means all. -/
  allowedStartRules : List String
  /-- Whether results are remembered for every rule and position. -/
  cache : Bool
  /-- Whether rules report when they are entered and left. -/
  trace : Bool
  output : OutputKind
  /-- Words that are no labels. -/
  reservedWords : List String
  /-- Where generated code finds the parsing library. -/
  runtimePath : String
  deriving DecidableEq

namespace CompileOptions

/-- The words that the generated language keeps for itself. -/
def keywords : List String := [
  "abstract", "as", "async", "await", "become", "box", "break", "const", "continue", "crate",
  "do", "dyn", "else", "enum", "extern", "false", "final", "fn", "for", "gen", "if", "impl",
  "in", "let", "loop", "macro", "match", "mod", "move", "mut", "override", "priv", "pub", "ref",
  "return", "self", "Self", "static", "struct", "super", "trait", "true", "try", "type",
  "typeof", "union", "unsafe", "unsized", "use", "virtual", "where", "while", "yield"]

def default : CompileOptions := ⟨[], false, false, .parser, keywords, "pegc_runtime"⟩

instance : Inhabited CompileOptions := ⟨default⟩

open Json in
/-- Options as an object or an array of fields, each with a default. -/
def ofJson? (j : Json) : Option CompileOptions := do
  let names := ["allowedStartRules", "cache", "trace", "output", "reservedWords", "runtimePath"]
  match ← fields? names j with
  | [start, cache, trace, output, reserved, path] =>
    return ⟨← orElse [] (list? string?) start, ← orElse false bool? cache, ← orElse false bool? trace,
      ← orElse .parser OutputKind.ofJson? output,
      ← orElse keywords (list? string?) reserved, ← orElse default.runtimePath string? path⟩
  | _ => none

def toJson (o : CompileOptions) : Json :=
  .obj [("allowedStartRules", .arr (o.allowedStartRules.map .str)), ("cache", .bool o.cache),
    ("trace", .bool o.trace), ("output", .str o.output.name),
    ("reservedWords", .arr (o.reservedWords.map .str)), ("runtimePath", .str o.runtimePath)]

end CompileOptions

end PegCompiler
