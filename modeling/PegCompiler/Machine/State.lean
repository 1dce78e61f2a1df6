/-
The state of a parse: where it is, where it failed farthest and what it expected there, what it
remembers of rules, and what it has reported.
-/
import PegCompiler.Expectation
import PegCompiler.Machine.Trace
import PegCompiler.Text.Input
import PegCompiler.Value
import Std.Data.HashMap

namespace PegCompiler

/-- What a remembered result depends on. -/
structure CacheKey where
  pos : Nat
  rule : Nat
  silent : Bool
  deriving DecidableEq, Hashable

/-- A remembered result and where the rule ended. -/
structure CacheEntry where
  next : Nat
  result : Value

structure ParseState where
  input : Input
  /-- The name of the input in locations. -/
  source : Option String
  pos : Nat
  /-- Where the text of an action begins. -/
  saved : Nat
  /-- Failures are recorded while this is zero. -/
  silent : Nat
  maxFailPos : Nat
  /-- What was expected there, in order. -/
  expected : Array Expectation
  cache : Std.HashMap CacheKey CacheEntry
  /-- The reports so far, if anyone listens. -/
  trace : Option (Array TraceEvent)

namespace ParseState

/-- The state at the start of an input. -/
def start (input : String) (source : Option String) (tracing : Bool) : ParseState :=
  { input := .ofString input, source, pos := 0, saved := 0, silent := 0, maxFailPos := 0
    expected := #[], cache := {}, trace := if tracing then some #[] else none }

/-- The text from the position on. -/
def rest (st : ParseState) : List Char := st.input.rest st.pos

/-! ## Tests -/

def matchAny (st : ParseState) : Bool := st.pos < st.input.size

def matchString (st : ParseState) (s : String) : Bool := s.toList.isPrefixOf st.rest

def matchClass (st : ParseState) (k : CharClass) : Bool := st.rest.head?.any k.has

/-- What is left of a text after a given beginning. -/
def dropStart? : (start text : List Char) → Option (List Char)
  | [], text => some text
  | _ :: _, [] => none
  | c :: start, d :: text => if c = d then dropStart? start text else none

/-- The shortest beginning of a text whose characters in lower case are `want`. -/
def icStart? (want : List Char) : List Char → Option (List Char)
  | [] => if want.isEmpty then some [] else none
  | c :: cs =>
    if want.isEmpty then some []
    else (dropStart? (Case.lowerChar c) want).bind fun want => (icStart? want cs).map (c :: ·)

/-- What is accepted for a lowercase text in any case. -/
def icMatch? (st : ParseState) (lowered : String) : Option (List Char) :=
  icStart? lowered.toList st.rest

def matchStringIc (st : ParseState) (lowered : String) : Bool := (st.icMatch? lowered).isSome

/-! ## Consuming -/

/-- Consumes characters, which are the value. -/
def accept (st : ParseState) (cs : List Char) : Value × ParseState :=
  (.str (String.ofList cs), { st with pos := st.pos + Input.byteLength cs })

def acceptN (st : ParseState) (n : Nat) : Value × ParseState := st.accept (st.rest.take n)

def acceptString (st : ParseState) (s : String) : Value × ParseState :=
  (.str s, { st with pos := st.pos + s.utf8ByteSize })

/-- Consumes what the lowercase text matches, as it is written in the input. -/
def acceptStringIc (st : ParseState) (lowered : String) : Value × ParseState :=
  st.accept ((st.icMatch? lowered).getD [])

/-- The text from an offset to the position. -/
def text (st : ParseState) (start : Nat) : String := st.input.slice start st.pos

/-! ## Failing -/

/-- Records what was expected at a position, unless a failure farther on is known. -/
def recordFailure (st : ParseState) (pos : Nat) (e : Expectation) : ParseState :=
  if pos < st.maxFailPos then st
  else if st.maxFailPos < pos then { st with maxFailPos := pos, expected := #[e] }
  else { st with expected := st.expected.push e }

/-- The state after a failure, recorded unless failures are silenced. -/
def fail (st : ParseState) (e : Expectation) : ParseState :=
  if st.silent = 0 then st.recordFailure st.pos e else st

def location (st : ParseState) (start stop : Nat) : Location :=
  ⟨st.source, st.input.position start, st.input.position stop⟩

/-- The error about the farthest failure. -/
def error (st : ParseState) : ParseError :=
  let found := (st.input.rest st.maxFailPos).head?
  .ofExpected st.expected.toList (found.map Char.toString)
    (st.location st.maxFailPos (st.maxFailPos + found.elim 0 Char.utf8Size))

/-- How a parse ends whose start rule had a result: well if it matched all of the input. -/
def finish (st : ParseState) (result : Value) : Except ParseError Value × ParseState :=
  if result.isFailed then (.error st.error, st)
  else if st.pos = st.input.size then (.ok result, st)
  else
    let st := st.recordFailure st.pos .endOfInput
    (.error st.error, st)

/-! ## Remembering -/

/-- The key of a rule at a position. -/
def key (st : ParseState) (rule pos : Nat) : CacheKey := ⟨pos, rule, st.silent > 0⟩

/-- The remembered result of a rule at the position, and the state where the rule ended. -/
def remembered? (st : ParseState) (rule : Nat) : Option (Value × ParseState) :=
  (st.cache[st.key rule st.pos]?).map fun e => (e.result, { st with pos := e.next })

/-- Remembers the result of a rule that began at an offset and ended here. -/
def remember (st : ParseState) (rule start : Nat) (result : Value) : ParseState :=
  { st with cache := st.cache.insert (st.key rule start) ⟨st.pos, result⟩ }

/-! ## Reporting -/

def tracing (st : ParseState) : Bool := st.trace.isSome

/-- Adds a report. -/
def report (st : ParseState) (kind : TraceKind) (rule : String) (start stop : Nat) (cached : Bool) :
    ParseState :=
  let event : TraceEvent := ⟨kind, rule, st.location start stop, cached⟩
  { st with trace := st.trace.map (·.push event) }

def reportEnter (st : ParseState) (rule : String) (start : Nat) : ParseState :=
  st.report .enter rule start start false

/-- Reports that a rule matched up to here, or that it failed. -/
def reportExit (st : ParseState) (rule : String) (start : Nat) (result : Value) (cached : Bool) :
    ParseState :=
  if result.isFailed then st.report .failed rule start start cached
  else st.report .matched rule start st.pos cached

/-- The reports so far. -/
def events (st : ParseState) : List TraceEvent := (st.trace.map (·.toList)).getD []

end ParseState

end PegCompiler
