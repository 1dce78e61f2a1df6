/-
A text to be parsed, addressed by byte offsets. `rest` is the text from an offset on, `slice` the
text between two; the table behind them only makes the look-up fast.
-/
import PegCompiler.Text.Position

namespace PegCompiler

/-- A text with the rest of it at every byte offset. -/
structure Input where
  text : String
  chars : List Char
  rests : Array (List Char)

namespace Input

/-- Appends, for every byte of every character, the text from that character on. -/
def restsFrom (table : Array (List Char)) : List Char → Array (List Char)
  | [] => table.push []
  | c :: cs => restsFrom (table ++ Array.replicate c.utf8Size (c :: cs)) cs

def ofString (s : String) : Input := ⟨s, s.toList, restsFrom #[] s.toList⟩

instance : Inhabited Input := ⟨ofString ""⟩

/-- The length in bytes. -/
def size (i : Input) : Nat := i.text.utf8ByteSize

/-- The text from an offset on; nothing past the end. -/
def rest (i : Input) (offset : Nat) : List Char := i.rests.getD offset []

/-- The length in bytes of a list of characters. -/
def byteLength (cs : List Char) : Nat := cs.foldl (fun n c => n + c.utf8Size) 0

/-- The characters that begin within the next `bytes` bytes. -/
def takeBytes : List Char → (bytes : Nat) → List Char
  | [], _ => []
  | c :: cs, bytes => if bytes = 0 then [] else c :: takeBytes cs (bytes - c.utf8Size)

/-- The text between two offsets. -/
def slice (i : Input) (start stop : Nat) : String :=
  String.ofList (takeBytes (i.rest start) (stop - start))

/-- The position of a byte offset. -/
def position (i : Input) (offset : Nat) : Position := .ofOffset i.chars offset

end Input

end PegCompiler
