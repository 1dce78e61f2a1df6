/-
Where the lines of a generated text come from: mappings from ranges of lines to spans of the grammar
text, ordered by their lines.
-/
import PegCompiler.Grammar.DraftJson

namespace PegCompiler

/-- Lines from `first` on and before `stop`, counted from zero, come from a span. -/
structure Mapping where
  first : Nat
  stop : Nat
  origin : Span
  deriving DecidableEq, Inhabited

structure SourceMap where
  mappings : List Mapping
  deriving DecidableEq, Inhabited

/-- Halves a range of indexes, which begins at `base`, until one is left: the last one of those that
satisfy `p`, if these come first. -/
def bisect (p : Nat → Bool) (base size : Nat) : Nat :=
  if size ≤ 1 then base
  else bisect p (if p (base + size / 2) then base + size / 2 else base) (size - size / 2)
termination_by size

/-- The number of items of an array that satisfy `p`, if these come first. -/
def countFirst {α : Type} (p : α → Bool) (a : Array α) : Nat :=
  let holds (i : Nat) : Bool := a[i]?.any p
  let last := bisect holds 0 a.size
  if holds last then last + 1 else last

namespace SourceMap

/-- The span that a line comes from. -/
def lookup (m : SourceMap) (line : Nat) : Option Span :=
  let mappings := m.mappings.toArray
  match mappings[countFirst (fun m => m.stop ≤ line) mappings]? with
  | some m => if m.first ≤ line && line < m.stop then some m.origin else none
  | none => none

/-- The mappings with one for a line that follows them; a mapping that the line continues grows. -/
def add (mappings : List Mapping) (line : Nat) (origin : Span) : List Mapping :=
  match mappings with
  | [] => [⟨line, line + 1, origin⟩]
  | last :: before =>
    if last.origin = origin && last.stop = line then { last with stop := line + 1 } :: before
    else ⟨line, line + 1, origin⟩ :: last :: before

/-- The mappings of lines with the spans they come from; `before` holds those of earlier lines, the
last one first, and `line` is the number of the first one here. -/
def ofOrigins (before : List Mapping) (line : Nat) : List (Option Span) → List Mapping
  | [] => before.reverse
  | none :: rest => ofOrigins before (line + 1) rest
  | some origin :: rest => ofOrigins (add before line origin) (line + 1) rest

/-- A range of lines, which has no fields but its ends. -/
def rangeOfJson? (j : Json) : Option Span :=
  match j with
  | .obj fields =>
    if fields.all fun (key, _) => key == "start" || key == "end" then Span.ofJson? j else none
  | j => Span.ofJson? j

open Json in
/-- A mapping from its JSON form. -/
def mappingOfJson? (j : Json) : Option Mapping := do
  match ← fields? ["generated", "original"] j with
  | [some generated, some origin] =>
    let lines ← rangeOfJson? generated
    return ⟨lines.start, lines.stop, ← Span.ofJson? origin⟩
  | _ => none

open Json in
def ofJson? (j : Json) : Option SourceMap := do
  match ← fields? ["mappings"] j with
  | [mappings] => return ⟨← required (list? mappingOfJson?) mappings⟩
  | _ => none

def mappingToJson (m : Mapping) : Json :=
  .obj [("generated", Span.toJson ⟨m.first, m.stop⟩), ("original", m.origin.toJson)]

def toJson (m : SourceMap) : Json := .obj [("mappings", .arr (m.mappings.map mappingToJson))]

end SourceMap

end PegCompiler
