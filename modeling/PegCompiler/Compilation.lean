/-
A compilation: a grammar and all that its passes find out. Passes come in three stages. Checks only
speak about the grammar, and an error among what they say refuses it; the passes that transform the
grammar and those that generate code need a grammar that was not refused, and fail on others where
they have to. What a pass did before it failed stays done.
-/
import PegCompiler.Analysis.Bounds
import PegCompiler.Analysis.EmptyRepetition
import PegCompiler.Analysis.Labels
import PegCompiler.Analysis.LeftRecursion
import PegCompiler.Analysis.References
import PegCompiler.Code.Assembly
import PegCompiler.Code.Listing
import PegCompiler.Code.OfExpr
import PegCompiler.Emit.Source
import PegCompiler.Grammar.Proxy

namespace PegCompiler

/-- Why a pass, or what uses its results, cannot go on. -/
inductive InternalError
  | matching (why : Analysis.MatchingError)
  | noCode (why : CodeError)
  | noSourceText (why : EmitError)
  | undecodable (why : DecodeError)
  | noStartRules
  | sourceMissing
  | sourceMapMissing
  deriving DecidableEq

namespace InternalError

def message : InternalError → String
  | matching why => why.message
  | noCode why => why.message
  | noSourceText why => why.message
  | undecodable why => why.message
  | noStartRules => "parser has no start rules"
  | sourceMissing => "no source was generated"
  | sourceMapMissing => "no source map was generated"

/-- A failure of the compiler as it is reported. -/
def report (message : String) : String := s!"internal compiler error: {message}"

def text (e : InternalError) : String := report e.message

end InternalError

/-- Generated source text, with its map if one was asked for. -/
structure Generated where
  source : String
  map : Option SourceMap
  deriving DecidableEq

structure Compilation where
  grammar : Grammar
  options : CompileOptions
  startRules : List RuleId
  /-- Which expressions and rules can match. -/
  found : Matches
  /-- The code of every rule, empty until it is compiled. -/
  bytecode : List Bytecode
  constants : Constants
  code : Option Generated
  deriving Inhabited

namespace Compilation

/-- The compilation before any pass. -/
def start (grammar : Grammar) (options : CompileOptions) : Compilation :=
  { grammar, options
    startRules := []
    found := .unknown grammar.arena.length grammar.rules.length
    bytecode := grammar.rules.map fun _ => .empty
    constants := .empty
    code := none }

/-- The code of a rule. -/
def codeOf (c : Compilation) (r : RuleId) : Bytecode := c.bytecode.getD r .empty

/-- The compilation with other code for a rule. -/
def setCode (c : Compilation) (r : RuleId) (code : Bytecode) : Compilation :=
  { c with bytecode := c.bytecode.set r code }

/-- How rules are compiled by what is known about matching. -/
def plan (c : Compilation) : Code.Plan :=
  ⟨c.found.ofExpr, c.options.output = .sourceAndMap⟩

/-- What source text is written from. -/
def parts (c : Compilation) : Source.Parts :=
  ⟨c.grammar, c.options, c.startRules, c.constants, c.codeOf⟩

/-- The listing of one rule's code. -/
def ruleListing (c : Compilation) (r : RuleId) (name : String) : Except InternalError String :=
  let bytecode := c.codeOf r
  match Code.lines c.constants 1 (Code.decode bytecode.words) with
  | .ok lines => .ok (s!"{name} (rule {r}, max_sp {bytecode.maxSlot}):\n" ++ lines)
  | .error why => .error (.undecodable why)

/-- The listing of the code of all remaining rules. -/
def listing (c : Compilation) : Except InternalError String := do
  return String.join (← c.grammar.live.mapM fun (r, rule) => c.ruleListing r rule.name)

end Compilation

/-! ## Passes -/

/-- A compilation at work, and what was said about its grammar so far. -/
structure Session where
  compilation : Compilation
  diagnostics : List Diagnostic
  deriving Inhabited

abbrev Working := EStateM InternalError Session

namespace Working

/-- Says more about the grammar. -/
def say (ds : List Diagnostic) : Working Unit :=
  modify fun s => { s with diagnostics := s.diagnostics ++ ds }

/-- Changes the compilation. -/
def change (f : Compilation → Compilation) : Working Unit :=
  modify fun s => { s with compilation := f s.compilation }

/-- The compilation as it is. -/
def current : Working Compilation := return (← get).compilation

/-- Says what a check of the compilation finds. -/
def check (find : Compilation → List Diagnostic) : Working Unit := do say (find (← current))

/-- Determines the start rules. -/
def findStartRules : Working Unit := do
  let c ← current
  let (startRules, ds) := Analysis.startRules c.grammar c.options.allowedStartRules
  change fun c => { c with startRules }
  say ds

/-- Replaces proxies by what they stand for. -/
def removeProxies : Working Unit := do
  let c ← current
  let (grammar, ds) := c.grammar.removeProxies c.startRules
  change fun c => { c with grammar }
  say ds

/-- Finds out what can match. -/
def findMatches : Working Unit := fun s =>
  match Analysis.Matching.findLive s.compilation.grammar s.compilation.found with
  | .ok _ found => .ok ⟨⟩ { s with compilation := { s.compilation with found } }
  | .error why found => .error (.matching why) { s with compilation := { s.compilation with found } }

/-- Compiles a rule. -/
def compileRule (r : RuleId) (rule : Rule) : Working Unit := fun s =>
  let c := s.compilation
  match (Code.ofRule c.plan rule).assemble c.constants with
  | .ok code constants =>
    let bytecode : Bytecode := ⟨code.encode, Code.peak c.plan rule.body 0⟩
    .ok ⟨⟩ { s with compilation := { c with constants }.setCode r bytecode }
  | .error why constants => .error (.noCode why) { s with compilation := { c with constants } }

/-- Compiles the remaining rules. -/
def compileRules : Working Unit := do
  (← current).grammar.live.forM fun (r, rule) => compileRule r rule

/-- Writes the source text. -/
def writeSource : Working Unit := do
  let c ← current
  match Source.write c.parts with
  | .ok w =>
    let map := if c.options.output = .sourceAndMap then some w.map else none
    change fun c => { c with code := some ⟨w.source, map⟩ }
  | .error why => throw (.noSourceText why)

end Working

inductive Pass
  | startRules
  | undefinedRules
  | duplicateRules
  | unusedRules
  | labels
  | repetitionBounds
  | leftRecursion
  | emptyRepetitions
  | picks
  | proxies
  | matching
  | bytecode
  | source
  deriving DecidableEq

namespace Pass

def run : Pass → Working Unit
  | startRules => Working.findStartRules
  | undefinedRules => Working.check fun c => Analysis.undefinedRules c.grammar
  | duplicateRules => Working.check fun c => Analysis.duplicateRules c.grammar
  | unusedRules => Working.check fun c => Analysis.unusedRules c.grammar c.startRules
  | labels => Working.check fun c => Analysis.labels c.grammar c.options.reservedWords
  | repetitionBounds => Working.check fun c => Analysis.repetitionBounds c.grammar
  | leftRecursion => Working.check fun c => Analysis.leftRecursion c.grammar
  | emptyRepetitions => Working.check fun c => Analysis.emptyRepetitions c.grammar
  | picks => Working.check fun c => Analysis.picks c.grammar
  | proxies => Working.removeProxies
  | matching => Working.findMatches
  | bytecode => Working.compileRules
  | source => Working.writeSource

end Pass

inductive Stage
  | check
  | transform
  | generate
  deriving DecidableEq

namespace Stage

/-- The passes of a stage, in order. -/
def passes : Stage → List Pass
  | check => [.startRules, .undefinedRules, .duplicateRules, .unusedRules, .labels, .repetitionBounds,
    .leftRecursion, .emptyRepetitions, .picks]
  | transform => [.proxies, .matching]
  | generate => [.bytecode, .source]

/-- Runs the passes of a stage up to the first that fails. -/
def run (s : Stage) : Working Unit := s.passes.forM Pass.run

end Stage

/-! ## Whole compilations -/

/-- Why a grammar was not compiled. -/
inductive CompileError
  | rejected (why : Rejection)
  | failed (why : InternalError)
  deriving DecidableEq

def CompileError.message : CompileError → String
  | rejected why => why.message
  | failed why => why.text

/-- Runs a stage; a failure loses the compilation. -/
def Session.advance (s : Session) (stage : Stage) : Except CompileError Session :=
  match stage.run s with
  | .ok _ s => .ok s
  | .error why _ => .error (.failed why)

/-- Runs all stages on a grammar. -/
def Session.complete (grammar : Grammar) (options : CompileOptions) : Except CompileError Session := do
  let s ← Session.advance ⟨.start grammar options, []⟩ .check
  match Diagnostics.check s.diagnostics with
  | .ok _ => (← s.advance .transform).advance .generate
  | .error why => throw (.rejected why)

end PegCompiler
