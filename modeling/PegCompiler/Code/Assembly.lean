/-
From code that holds its constants to code that refers to pools. `gather` adds the constants of code
to the pools, in the order in which they are met, and stops at a defect; a place in the grammar is
added where its bracket closes, after the places inside. `link` then replaces every constant by its
index.
-/
import PegCompiler.Code.Instr
import PegCompiler.Code.Words

namespace PegCompiler

/-- The pools, and the places whose brackets are open, innermost first. -/
structure Gathered where
  constants : Constants
  opened : List Span

/-- Adding to the pools; what was added before a defect stays. -/
abbrev Gathering := EStateM CodeError Gathered

/-- Changes the pools. -/
def Gathering.add (f : Constants → Constants) : Gathering Unit :=
  modify fun g => { g with constants := f g.constants }

namespace Constants

def addLiteral (s : String) (k : Constants) : Constants := { k with literals := k.literals.add s }

def addClass (c : CharClass) (k : Constants) : Constants := { k with classes := k.classes.add c }

def addExpectation (e : Expectation) (k : Constants) : Constants :=
  { k with expectations := k.expectations.add e }

def addFunction (f : HostFunction) (k : Constants) : Constants :=
  { k with functions := k.functions.add f }

def addOrigin (s : Span) (k : Constants) : Constants := { k with origins := k.origins.add s }

end Constants

/-- Closes the innermost bracket. -/
def Gathering.close : Gathering Unit :=
  modify fun g =>
    match g.opened with
    | [] => g
    | s :: opened => ⟨g.constants.addOrigin s, opened⟩

/-- Adds the constants of a condition. -/
def Test.gather : Test Inline → Gathering Unit
  | .string s | .stringIc s => .add (Constants.addLiteral s)
  | .charClass k => .add (Constants.addClass k)
  | .isTrue | .isError | .isOk | .fewer _ | .atLeast _ | .fewerThan _ | .atLeastThan _ | .anyChar =>
    return ⟨⟩

mutual

/-- Adds the constants of an instruction. -/
def Instr.gather : Instr Inline → Gathering Unit
  | .cond test yes no => do
    test.gather
    Code.gather yes
    Code.gather no
  | .whileOk body => Code.gather body
  | .acceptString s | .acceptStringIc s => .add (Constants.addLiteral s)
  | .fail e => .add (Constants.addExpectation e)
  | .call f _ _ => .add (Constants.addFunction f)
  | .mapPush s => modify fun g => { g with opened := s :: g.opened }
  | .mapPop => Gathering.close
  | .defect e => throw e
  | .pushEmptyString | .pushNull | .pushFailed | .pushEmptyArray | .pushPos | .pop | .popPos | .popN _
  | .nip | .append | .wrap _ | .text | .pluck _ _ | .acceptN _ | .loadSavedPos _ | .updateSavedPos
  | .rule _ | .silence | .unsilence => return ⟨⟩

/-- Adds the constants of code. -/
def Code.gather : Code Inline → Gathering Unit
  | [] => return ⟨⟩
  | i :: code => do
    i.gather
    Code.gather code

end

namespace Pool

/-- The index of a constant that was added. -/
def indexOf {α : Type} [DecidableEq α] (p : Pool α) (a : α) : Nat := (p.index? a).getD 0

end Pool

/-- The condition with indexes for constants. -/
def Test.link (k : Constants) : Test Inline → Test Pooled
  | .isTrue => .isTrue
  | .isError => .isError
  | .isOk => .isOk
  | .fewer n => .fewer n
  | .atLeast n => .atLeast n
  | .fewerThan d => .fewerThan d
  | .atLeastThan d => .atLeastThan d
  | .anyChar => .anyChar
  | .string s => .string (k.literals.indexOf s)
  | .stringIc s => .stringIc (k.literals.indexOf s)
  | .charClass c => .charClass (k.classes.indexOf c)

mutual

/-- The instruction with indexes for constants; nothing for a defect. -/
def Instr.link (k : Constants) : Instr Inline → Code Pooled
  | .pushEmptyString => [.pushEmptyString]
  | .pushNull => [.pushNull]
  | .pushFailed => [.pushFailed]
  | .pushEmptyArray => [.pushEmptyArray]
  | .pushPos => [.pushPos]
  | .pop => [.pop]
  | .popPos => [.popPos]
  | .popN n => [.popN n]
  | .nip => [.nip]
  | .append => [.append]
  | .wrap n => [.wrap n]
  | .text => [.text]
  | .pluck n picks => [.pluck n picks]
  | .cond test yes no => [.cond (test.link k) (Code.link k yes) (Code.link k no)]
  | .whileOk body => [.whileOk (Code.link k body)]
  | .acceptN n => [.acceptN n]
  | .acceptString s => [.acceptString (k.literals.indexOf s)]
  | .acceptStringIc s => [.acceptStringIc (k.literals.indexOf s)]
  | .fail e => [.fail (k.expectations.indexOf e)]
  | .loadSavedPos d => [.loadSavedPos d]
  | .updateSavedPos => [.updateSavedPos]
  | .call f n args => [.call (k.functions.indexOf f) n args]
  | .rule r => [.rule r]
  | .silence => [.silence]
  | .unsilence => [.unsilence]
  | .mapPush s => [.mapPush (k.origins.indexOf s)]
  | .mapPop => [.mapPop]
  | .defect _ => []

/-- The code with indexes for constants. -/
def Code.link (k : Constants) : Code Inline → Code Pooled
  | [] => []
  | i :: code => i.link k ++ Code.link k code

end

/-- Adds the constants of code to the pools and links it to them. -/
def Code.assemble (code : Code Inline) : EStateM CodeError Constants (Code Pooled) := fun k =>
  match code.gather ⟨k, []⟩ with
  | .ok _ g => .ok (Code.link g.constants code) g.constants
  | .error e g => .error e g.constants

end PegCompiler
