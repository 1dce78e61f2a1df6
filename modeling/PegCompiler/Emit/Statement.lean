/-
Statements of a generated method. A method works on local variables, one for each slot of its stack
that holds a position and one for each that holds a value, and on the state of the parse. Taking a
value leaves null in its variable.
-/
import PegCompiler.Code.Constants
import PegCompiler.Emit.CodeWriter

namespace PegCompiler

/-- What a slot holds. -/
inductive SlotKind
  | pos
  | value
  deriving DecidableEq, Inhabited

namespace SlotKind

/-- The letter that names of such slots begin with. -/
def letter : SlotKind → String
  | pos => "p"
  | value => "s"

def name : SlotKind → String
  | pos => "Pos"
  | value => "Value"

end SlotKind

/-- The local variable of a slot. -/
def localName (kind : SlotKind) (slot : Nat) : String := s!"{kind.letter}{slot}"

/-- A condition; numbers of variables are slots. -/
inductive Condition
  | truthy (value : Nat)
  | failed (value : Nat)
  | succeeded (value : Nat)
  | fewer (array count : Nat)
  | atLeast (array count : Nat)
  | fewerThan (array bound : Nat)
  | atLeastThan (array bound : Nat)
  | anyChar
  | string (literal : Nat)
  | stringIc (literal : Nat)
  | charClass (k : Nat)
  deriving DecidableEq

/-- What a value may be computed from. -/
inductive Computation
  | emptyString
  | null
  | failed
  | emptyArray
  /-- Takes a value. -/
  | take (value : Nat)
  /-- Takes values into an array. -/
  | array (values : List Nat)
  /-- The text from a position to the current one. -/
  | textFrom (pos : Nat)
  | acceptN (count : Nat)
  | acceptString (literal : Nat)
  | acceptStringIc (literal : Nat)
  | fail (expected : Nat)
  /-- Calls a function with copies of values. -/
  | call (kind : FunctionKind) (function : Nat) (args : List Nat)
  /-- Calls the method of a rule. -/
  | rule (name : String)
  deriving DecidableEq

inductive Statement
  | set (value : Nat) (result : Computation)
  /-- Keeps the current position. -/
  | keepPos (pos : Nat)
  | copyPos (pos source : Nat)
  /-- Goes back to a position. -/
  | restorePos (pos : Nat)
  /-- Takes a value and appends it to an array. -/
  | append (array item : Nat)
  /-- Saves a position for host code. -/
  | savePos (pos : Nat)
  /-- Saves the current position for host code. -/
  | saveCurrent
  | silence
  | unsilence
  /-- What follows comes from a place in the grammar. -/
  | origin (span : Span)
  /-- Ends the last `origin`. -/
  | endOrigin
  | when (test : Condition) (yes : List Statement)
  | ite (test : Condition) (yes no : List Statement)
  /-- Repeats as long as a value is no failure. -/
  | whileOk (value : Nat) (body : List Statement)

/-! ## Text -/

/-- The variable of a value. -/
def valueName (slot : Nat) : String := localName .value slot

/-- The variable of a position. -/
def posName (slot : Nat) : String := localName .pos slot

/-- A value taken out of its variable. -/
def takenText (slot : Nat) : String := s!"std::mem::take(&mut {valueName slot})"

def Condition.text : Condition → String
  | truthy v => s!"{valueName v}.is_truthy()"
  | failed v => s!"{valueName v}.is_failed()"
  | succeeded v => s!"!{valueName v}.is_failed()"
  | fewer array n => s!"{valueName array}.len() < {n}"
  | atLeast array n => s!"{valueName array}.len() >= {n}"
  | fewerThan array bound => s!"{valueName array}.len() < {valueName bound}.count_or(0)"
  | atLeastThan array bound => s!"{valueName array}.len() >= {valueName bound}.count_or(usize::MAX)"
  | anyChar => "self.st.match_any()"
  | string l => s!"self.st.match_str(L{l})"
  | stringIc l => s!"self.st.match_str_ic(L{l})"
  | charClass k => s!"self.st.match_class(&C{k})"

/-- The result of a function as a value. -/
def resultText (kind : FunctionKind) (call : String) : String :=
  match kind with
  | .action => call
  | .predicate => s!"Value::Bool({call})"
  | .boundary => s!"Value::from({call})"

def Computation.text : Computation → String
  | emptyString => "Value::Str(String::new())"
  | null => "Value::Null"
  | failed => "Value::Failed"
  | emptyArray => "Value::Array(Vec::new())"
  | take v => takenText v
  | array vs => "Value::Array(vec![" ++ String.intercalate ", " (vs.map takenText) ++ "])"
  | textFrom p => s!"self.st.text({posName p})"
  | acceptN n => s!"self.st.accept_n({n})"
  | acceptString l => s!"self.st.accept_str(L{l})"
  | acceptStringIc l => s!"self.st.accept_str_ic(L{l})"
  | fail e => s!"self.st.fail(&E{e})"
  | call kind f args =>
    resultText kind (s!"self.f{f}(" ++ String.intercalate ", " (args.map (valueName · ++ ".clone()")) ++ ")")
  | rule name => s!"self.parse_{name}()"

namespace Statement

mutual

/-- Writes a statement. -/
def write : Statement → CodeWriter → CodeWriter
  | set v c, w => w.line s!"{valueName v} = {c.text};"
  | keepPos p, w => w.line s!"{posName p} = self.st.pos;"
  | copyPos p source, w => w.line s!"{posName p} = {posName source};"
  | restorePos p, w => w.line s!"self.st.pos = {posName p};"
  | append array item, w => w.line s!"{valueName array}.push({takenText item});"
  | savePos p, w => w.line s!"self.st.saved_pos = {posName p};"
  | saveCurrent, w => w.line "self.st.saved_pos = self.st.pos;"
  | silence, w => w.line "self.st.silent_fails += 1;"
  | unsilence, w => w.line "self.st.silent_fails -= 1;"
  | origin span, w => w.pushOrigin span
  | endOrigin, w => w.popOrigin
  | when test yes, w => (writeAll yes (w.openBlock ("if " ++ test.text ++ " \x7b"))).closeBlock "\x7d"
  | ite test yes no, w =>
    let w := writeAll yes (w.openBlock ("if " ++ test.text ++ " \x7b"))
    (writeAll no (w.reopenBlock "\x7d else \x7b")).closeBlock "\x7d"
  | whileOk v body, w =>
    (writeAll body (w.openBlock ("while !" ++ valueName v ++ ".is_failed() \x7b"))).closeBlock "\x7d"

/-- Writes statements. -/
def writeAll : List Statement → CodeWriter → CodeWriter
  | [], w => w
  | s :: ss, w => writeAll ss (s.write w)

end

end Statement

end PegCompiler
