/-
The instructions of the stack machine, as a tree in which blocks are nested. How an instruction names
its constants is left open: `Inline` code holds them, `Pooled` code has their indexes and is sound,
`Raw` code has indexes too but comes from words that may be no code at all. Where an instruction
cannot be, code has a defect.
-/
import PegCompiler.Code.Constants

namespace PegCompiler

/-- What an instruction may hold besides numbers. -/
inductive Operand
  | literal
  | charClass
  | expectation
  | function
  | origin
  | defect
  deriving DecidableEq

/-- A way to write operands. -/
abbrev Naming := Operand → Type

/-- Why words are no code; offsets count from the start of the block. -/
inductive DecodeError
  | truncated (offset : Nat)
  | overrun (offset : Nat)
  | unknownOpcode (word offset : Nat)
  deriving DecidableEq

def DecodeError.message : DecodeError → String
  | truncated offset => s!"bytecode truncated at offset {offset}"
  | overrun offset => s!"bytecode block at offset {offset} overruns its code"
  | unknownOpcode word offset => s!"unknown opcode {word} at offset {offset}"

/-- Why an expression has no code. -/
inductive CodeError
  | unresolved (rule : String)
  | labelNotInScope (label : String)
  | slotAboveTop (slot : Nat) (top : Int)
  deriving DecidableEq

def CodeError.message : CodeError → String
  | unresolved rule => s!"reference to rule \"{rule}\" is unresolved"
  | labelNotInScope label => s!"label \"{label}\" of a repetition count is not in scope"
  | slotAboveTop slot top => s!"slot {slot} is above the top of the stack at {top}"

/-- Constants stand where they are used. -/
@[reducible] def Inline : Naming
  | .literal => String
  | .charClass => CharClass
  | .expectation => Expectation
  | .function => HostFunction
  | .origin => Span
  | .defect => CodeError

/-- Constants are indexes into pools, and there are no defects. -/
@[reducible] def Pooled : Naming
  | .defect => Empty
  | _ => Nat

/-- Constants are indexes into pools, known or not. -/
@[reducible] def Raw : Naming
  | .defect => DecodeError
  | _ => Nat

/-- A condition. -/
inductive Test (ν : Naming)
  /-- The top value counts as true. -/
  | isTrue
  /-- The top value is a failure. -/
  | isError
  /-- The top value is no failure. -/
  | isOk
  /-- The array on top has fewer items than a number. -/
  | fewer (n : Nat)
  /-- The array on top has at least as many items as a number. -/
  | atLeast (n : Nat)
  /-- The array on top has fewer items than the value at a distance says. -/
  | fewerThan (distance : Nat)
  /-- The array on top has at least as many items as the value at a distance says. -/
  | atLeastThan (distance : Nat)
  /-- There is a character. -/
  | anyChar
  | string (literal : ν .literal)
  /-- The text, given in lower case, comes in any case. -/
  | stringIc (literal : ν .literal)
  | charClass (k : ν .charClass)

/-- An instruction. A distance counts slots down from the top of the stack. -/
inductive Instr (ν : Naming)
  | pushEmptyString
  | pushNull
  | pushFailed
  | pushEmptyArray
  /-- Pushes the position. -/
  | pushPos
  | pop
  /-- Goes back to the position on top, and pops it. -/
  | popPos
  | popN (n : Nat)
  /-- Pops the slot below the top. -/
  | nip
  /-- Pops a value and appends it to the array below. -/
  | append
  /-- Pops values and pushes the array of them. -/
  | wrap (n : Nat)
  /-- Pops a position and pushes the text from there to here. -/
  | text
  /-- Pops slots and pushes the picked ones of them, as an array unless it is one. -/
  | pluck (pop : Nat) (picks : List Nat)
  | cond (test : Test ν) (yes no : List (Instr ν))
  /-- Repeats the body as long as the top value is no failure. -/
  | whileOk (body : List (Instr ν))
  /-- Consumes characters. -/
  | acceptN (n : Nat)
  | acceptString (literal : ν .literal)
  /-- Consumes what the literal, given in lower case, matches in any case. -/
  | acceptStringIc (literal : ν .literal)
  /-- Pushes a failure and records what was expected. -/
  | fail (expected : ν .expectation)
  /-- Saves the position at a distance. -/
  | loadSavedPos (distance : Nat)
  /-- Saves the current position. -/
  | updateSavedPos
  /-- Calls a function with the values at distances, pops slots and pushes the result. -/
  | call (function : ν .function) (pop : Nat) (args : List Nat)
  /-- Runs a rule and pushes its result. -/
  | rule (r : Nat)
  /-- Failures are not recorded from here. -/
  | silence
  /-- Ends the last `silence`. -/
  | unsilence
  /-- What follows comes from a place in the grammar. -/
  | mapPush (origin : ν .origin)
  /-- Ends the last `mapPush`. -/
  | mapPop
  /-- There is no instruction here. -/
  | defect (why : ν .defect)

/-- A block of instructions. -/
abbrev Code (ν : Naming) := List (Instr ν)

end PegCompiler
