/-
Writing source text line by line. Every line keeps its indentation and the innermost of the spans that
were open when it was written; the text and its source map are made of these.
-/
import PegCompiler.Emit.SourceMap
import PegCompiler.Text.Lines

namespace PegCompiler

/-- A line of a generated text. -/
structure CodeWriter.Line where
  indent : Nat
  text : String
  origin : Option Span
  deriving DecidableEq, Inhabited

structure CodeWriter where
  lines : Array CodeWriter.Line
  indent : Nat
  /-- The open spans, innermost first. -/
  origins : List Span
  deriving Inhabited

namespace CodeWriter

def empty : CodeWriter := ⟨#[], 0, []⟩

/-- A writer for lines that will be appended to this one. -/
def nested (w : CodeWriter) : CodeWriter := { w with lines := #[] }

/-- Writes a line. -/
def line (w : CodeWriter) (text : String) : CodeWriter :=
  { w with lines := w.lines.push ⟨w.indent, text, w.origins.head?⟩ }

/-- Writes a line without anything. -/
def blank (w : CodeWriter) : CodeWriter := { w with lines := w.lines.push ⟨0, "", none⟩ }

/-- Writes a line that the following ones are inside of. -/
def openBlock (w : CodeWriter) (text : String) : CodeWriter :=
  { w.line text with indent := w.indent + 1 }

/-- Ends the innermost block with a line. -/
def closeBlock (w : CodeWriter) (text : String) : CodeWriter :=
  { w with indent := w.indent - 1 }.line text

/-- Ends the innermost block with a line that opens another one. -/
def reopenBlock (w : CodeWriter) (text : String) : CodeWriter :=
  let w := w.closeBlock text
  { w with indent := w.indent + 1 }

/-- Lines that follow come from a span. -/
def pushOrigin (w : CodeWriter) (span : Span) : CodeWriter := { w with origins := span :: w.origins }

/-- Ends the innermost span. -/
def popOrigin (w : CodeWriter) : CodeWriter := { w with origins := w.origins.tail }

/-- Writes host code: its lines without the blanks at their ends, and without blank lines around. -/
def code (w : CodeWriter) (text : String) (origin : Span) : CodeWriter :=
  let lines := (Lines.split (Lines.trimChars text.toList)).map fun l =>
    String.ofList (Lines.trimEndChars l)
  (lines.foldl line (w.pushOrigin origin)).popOrigin

/-- Writes the lines of another writer. -/
def append (w other : CodeWriter) : CodeWriter := { w with lines := w.lines ++ other.lines }

def size (w : CodeWriter) : Nat := w.lines.size

/-- A line as text. -/
def Line.written (l : Line) : String :=
  String.ofList (List.replicate (4 * l.indent) ' ') ++ l.text ++ "\n"

/-- The text. -/
def source (w : CodeWriter) : String := w.lines.foldl (fun s l => s ++ l.written) ""

/-- Where the lines come from. -/
def map (w : CodeWriter) : SourceMap :=
  ⟨SourceMap.ofOrigins [] 0 (w.lines.toList.map (·.origin))⟩

end CodeWriter

end PegCompiler
