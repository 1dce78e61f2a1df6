/-
Places in the grammar text: a byte range, and a value together with the range it was written in.
-/
namespace PegCompiler

/-- A range of bytes of the grammar text, the end excluded. -/
structure Span where
  start : Nat
  stop : Nat
  deriving DecidableEq, Inhabited

namespace Span

/-- The span of what was never written down. -/
def empty : Span := ⟨0, 0⟩

/-- The span as messages show it. -/
def text (s : Span) : String := s!"{s.start}..{s.stop}"

end Span

/-- A value and where it was written. -/
structure Located (α : Type) where
  val : α
  span : Span
  deriving DecidableEq, Inhabited

/-- Host code embedded in a grammar. -/
abbrev HostCode := Located String

end PegCompiler
