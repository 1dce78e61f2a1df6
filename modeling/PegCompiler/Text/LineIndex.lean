/-
An index of the positions found so far. A look-up walks forward from the closest known position at
or before the offset and is remembered itself, so no part of the text is walked twice from the start.
-/
import PegCompiler.Text.Position

namespace PegCompiler

/-- The characters from a byte offset on; an offset inside a character starts at the next one. -/
def dropBytes : List Char → (bytes : Nat) → List Char
  | [], _ => []
  | c :: cs, bytes => if bytes = 0 then c :: cs else dropBytes cs (bytes - c.utf8Size)

/-- Known positions of one text, each offset at most once. -/
structure LineIndex where
  known : List Position
  deriving Inhabited

namespace LineIndex

/-- Only the start is known. -/
def empty : LineIndex := ⟨[.first]⟩

/-- How many positions are known. -/
def size (i : LineIndex) : Nat := i.known.length

/-- The last known position at or before an offset. -/
def nearest (i : LineIndex) (offset : Nat) : Position :=
  i.known.foldl (fun best p => if p.offset ≤ offset && best.offset ≤ p.offset then p else best) .first

/-- The position of an offset, and the index that knows it. -/
def find (i : LineIndex) (text : List Char) (offset : Nat) : Position × LineIndex :=
  let near := i.nearest offset
  let p := near.walk (dropBytes text near.offset) (offset - near.offset)
  if p.offset = near.offset then (near, i) else (p, ⟨p :: i.known⟩)

end LineIndex

end PegCompiler
