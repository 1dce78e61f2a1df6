/-
Host code as the machine sees it: a function of what a call can see of the parse and of the values of
its arguments. A parser does not read host code, so functions are bound to it by its text, blanks
around it aside.
-/
import PegCompiler.Machine.State
import PegCompiler.Text.Lines

namespace PegCompiler

/-- What host code can see of a parse. -/
structure HostView where
  input : Input
  source : Option String
  saved : Nat
  pos : Nat

namespace HostView

def of (st : ParseState) : HostView := ⟨st.input, st.source, st.saved, st.pos⟩

/-- The text that the code is about. -/
def text (v : HostView) : String := v.input.slice v.saved v.pos

def location (v : HostView) : Location :=
  ⟨v.source, v.input.position v.saved, v.input.position v.pos⟩

end HostView

/-- A function for host code: of what a call can see and of its arguments, with no state of its own. -/
abbrev HostFn := HostView → List Value → Value

/-- Functions by the text of their code. -/
abbrev Bindings := List (String × HostFn)

namespace Bindings

/-- The text that code is found by. -/
def key (code : String) : String := Lines.trim code

/-- Binds code to a function, instead of one that it was bound to. -/
def bind (bs : Bindings) (code : String) (f : HostFn) : Bindings :=
  (key code, f) :: bs.filter (·.1 != key code)

/-- The function that code is bound to. -/
def find? (bs : Bindings) (code : String) : Option HostFn := bs.lookup (key code)

end Bindings

end PegCompiler
