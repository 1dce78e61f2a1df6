/-
Lines and columns. A position is found by walking over the characters before it; an offset past the
end means the end, and one inside a character means its first byte. Lines and columns are numbers of
32 bits: after the greatest comes zero.
-/
namespace PegCompiler

/-- A point of a text: byte offset from zero, line and column from one, columns in characters. -/
structure Position where
  offset : Nat
  line : Nat
  column : Nat
  deriving DecidableEq, Inhabited

namespace Position

/-- The start of every text. -/
def first : Position := ⟨0, 1, 1⟩

/-- The number of 32 bits after another one. -/
def nextWord (n : Nat) : Nat := (n + 1) % 4294967296

/-- The position after one more character. -/
def next (p : Position) (c : Char) : Position :=
  if c = '\n' then ⟨p.offset + c.utf8Size, nextWord p.line, 1⟩
  else ⟨p.offset + c.utf8Size, p.line, nextWord p.column⟩

/-- The position reached from `p` over all characters that lie within the next `bytes` bytes. -/
def walk (p : Position) : List Char → (bytes : Nat) → Position
  | [], _ => p
  | c :: cs, bytes => if c.utf8Size ≤ bytes then walk (p.next c) cs (bytes - c.utf8Size) else p

/-- The position of a byte offset in a text. -/
def ofOffset (text : List Char) (offset : Nat) : Position := first.walk text offset

end Position

/-- A range of a text, with the name of the text if it has one. -/
structure Location where
  source : Option String
  start : Position
  stop : Position
  deriving DecidableEq, Inhabited

namespace Location

/-- The location as messages show it. -/
def text (l : Location) : String :=
  match l.source with
  | some source => s!"{source}:{l.start.line}:{l.start.column}"
  | none => s!"{l.start.line}:{l.start.column}"

end Location

end PegCompiler
