/-
A small language for host code that only looks at a call: at its arguments, at the text and the place
that it is about. Its terms are functions that can be bound to host code; they always have a value.
-/
import PegCompiler.Machine.Host
import PegCompiler.Text.Decimal

namespace PegCompiler

inductive HostTerm
  | const (v : Value)
  /-- An argument; null if there is none with this number. -/
  | arg (index : Nat)
  /-- All arguments. -/
  | args
  /-- The number of arguments. -/
  | argCount
  /-- The text that the call is about. -/
  | text
  /-- The whole input. -/
  | input
  /-- Where the text begins. -/
  | offset
  /-- Where the text begins and where it ends. -/
  | range
  /-- Where the text is, in lines and columns. -/
  | location
  /-- A value as a whole number; null if it is none. -/
  | int (t : HostTerm)
  /-- The sum of all whole numbers in values. -/
  | sum (ts : List HostTerm)
  /-- The number of items of an array. -/
  | length (t : HostTerm)
  | list (ts : List HostTerm)
  /-- Whether values are equal. -/
  | equal (ts : List HostTerm)
  | not (t : HostTerm)
  | ite (test yes no : HostTerm)
  deriving Inhabited

namespace HostTerm

/-- A value as a whole number: one itself, or a text that is one. -/
def intOf (v : Value) : Value := ((v.int?.orElse fun _ => v.str?.bind Decimal.int?).map Value.int).getD .null

mutual

/-- The sum of all whole numbers in a value, at any depth. -/
def sumOf : Value → Int
  | .int n => n
  | .array items => sumOfItems items
  | _ => 0

def sumOfItems : List Value → Int
  | [] => 0
  | v :: vs => sumOf v + sumOfItems vs

end

/-- Whether neighbours are equal. -/
def allEqual : List Value → Bool
  | a :: b :: vs => a == b && allEqual (b :: vs)
  | _ => true

/-- Where a text begins and where it ends. -/
def locationText (l : Location) : String := l.text ++ s!"-{l.stop.line}:{l.stop.column}"

mutual

/-- The value of a term in a call. -/
def eval (view : HostView) (arguments : List Value) : HostTerm → Value
  | const v => v
  | arg i => arguments.getD i .null
  | args => .array arguments
  | argCount => .int arguments.length
  | text => .str view.text
  | input => .str view.input.text
  | offset => .int view.saved
  | range => .array [.int view.saved, .int view.pos]
  | location => .str (locationText view.location)
  | int t => intOf (t.eval view arguments)
  | sum ts => .int (Value.wrapInt (sumOfItems (evalAll view arguments ts)))
  | length t => .int (t.eval view arguments).size
  | list ts => .array (evalAll view arguments ts)
  | equal ts => .bool (allEqual (evalAll view arguments ts))
  | not t => .bool !(t.eval view arguments).truthy
  | ite test yes no =>
    if (test.eval view arguments).truthy then yes.eval view arguments else no.eval view arguments

def evalAll (view : HostView) (arguments : List Value) : List HostTerm → List Value
  | [] => []
  | t :: ts => t.eval view arguments :: evalAll view arguments ts

end

/-- The term as a function that can be bound. -/
def function (t : HostTerm) : HostFn := fun view arguments => t.eval view arguments

end HostTerm

end PegCompiler
