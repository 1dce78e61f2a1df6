/-
The property `White_Space`, which decides what trimming removes.
-/
import PegCompiler.Text.Unicode.CodeRanges

namespace PegCompiler.Unicode

/-- The characters with the property `White_Space`. -/
def blank : CodeRanges := [
  (0x9, 0xD), (0x20, 0x20), (0x85, 0x85), (0xA0, 0xA0), (0x1680, 0x1680), (0x2000, 0x200A),
  (0x2028, 0x2029), (0x202F, 0x202F), (0x205F, 0x205F), (0x3000, 0x3000)]

/-- Whether trimming removes the character. -/
def isBlank (c : Char) : Bool := blank.has c

/-- The control characters, general category `Cc`. -/
def isControl (c : Char) : Bool :=
  c.toNat < 0x20 || (0x7F ≤ c.toNat && c.toNat < 0xA0)

end PegCompiler.Unicode
