/-
The text and the source map of a writer, over everything that can be done to writers. A writer is a value, so each of
several writers that are made from one another and appended to one another has a history of its own (`History`), and
what it holds is told by the lines that were written in it (`writer_eq`). Its text consists of these lines, and its map
leads from each of them to the innermost span that was open then; only a blank line comes from no span, also within one.
-/
import PegCompiler.Emit.CodeWriter
import PegCompiler.Proofs.Emit.SourceMap

namespace PegCompiler

/-! ## Cutting into lines -/

namespace Lines

attribute [simp] splitFrom

theorem splitFrom_append {cs : List Char} (h : '\n' ∉ cs) (line rest : List Char) :
    splitFrom line (cs ++ rest) = splitFrom (cs.reverse ++ line) rest := by
  induction cs generalizing line with
  | nil => rfl
  | cons c cs ih =>
    have hc : c ≠ '\n' := fun hc => h (hc ▸ List.mem_cons_self)
    have hcs : '\n' ∉ cs := fun hcs => h (List.mem_cons_of_mem _ hcs)
    simp [hc, ih hcs]

/-- Lines that are written one after the other, each with a newline at its end, are what the text is cut into. -/
theorem split_flatMap {lines : List (List Char)} (h : ∀ line ∈ lines, '\n' ∉ line) :
    split (lines.flatMap (· ++ ['\n'])) = lines := by
  unfold split
  induction lines with
  | nil => rfl
  | cons line lines ih =>
    have hlines := ih fun l hl => h l (List.mem_cons_of_mem _ hl)
    rw [List.flatMap_cons, List.append_assoc, splitFrom_append (h line List.mem_cons_self)]
    simp [hlines]

/-- No newline is left in what a text is cut into. -/
theorem not_mem_splitFrom {cs line : List Char} (hline : '\n' ∉ line) : ∀ l ∈ splitFrom line cs, '\n' ∉ l := by
  induction cs generalizing line with
  | nil =>
    intro l hl
    rw [splitFrom] at hl
    split at hl
    · cases hl
    · rw [List.mem_singleton.1 hl, List.mem_reverse]
      exact hline
  | cons c cs ih =>
    rw [splitFrom]
    split
    · rw [List.forall_mem_cons, List.mem_reverse]
      exact ⟨hline, ih List.not_mem_nil⟩
    · rename_i hc
      exact ih fun h => (List.mem_cons.1 h).elim (fun h => hc h.symm) hline

theorem mem_of_mem_trimEndChars {cs : List Char} {c : Char} (h : c ∈ trimEndChars cs) : c ∈ cs := by
  unfold trimEndChars at h
  exact List.mem_reverse.1 ((List.dropWhile_sublist _).mem (List.mem_reverse.1 h))

end Lines

namespace CodeWriter

/-! ## Histories -/

/-- What was done to a writer, the last thing outermost. -/
inductive History
  | empty
  /-- It was made for lines within the writer of another history. -/
  | nested (h : History)
  | line (h : History) (text : String)
  | blank (h : History)
  | openBlock (h : History) (text : String)
  | closeBlock (h : History) (text : String)
  | reopenBlock (h : History) (text : String)
  | pushOrigin (h : History) (span : Span)
  | popOrigin (h : History)
  | code (h : History) (text : String) (origin : Span)
  /-- The lines of the writer of another history were added. -/
  | append (h other : History)

/-- A line with what was known when it was written. -/
structure Written where
  /-- How many blocks it is inside of. -/
  depth : Nat
  text : String
  /-- The spans that were open, the innermost one first. -/
  spans : List Span
  /-- It was written as a line without anything. -/
  isBlank : Bool

namespace Written

/-- The innermost span that was open, unless the line is a blank one. -/
def origin? (l : Written) : Option Span := if l.isBlank then none else l.spans.head?

/-- The line as it is shown, behind its indentation. -/
def shown (l : Written) : List Char := List.replicate (4 * l.depth) ' ' ++ l.text.toList

/-- The line as a writer keeps it. -/
def kept (l : Written) : Line := ⟨l.depth, l.text, l.origin?⟩

theorem toList_written_kept (l : Written) : l.kept.written.toList = l.shown ++ ['\n'] := by
  simp [kept, Line.written, shown]

end Written

/-- The lines of host code. -/
def hostLines (text : String) : List String :=
  (Lines.split (Lines.trimChars text.toList)).map fun l => String.ofList (Lines.trimEndChars l)

namespace History

/-- The writer that it happened to. -/
def writer : History → CodeWriter
  | empty => .empty
  | nested h => h.writer.nested
  | line h text => h.writer.line text
  | blank h => h.writer.blank
  | openBlock h text => h.writer.openBlock text
  | closeBlock h text => h.writer.closeBlock text
  | reopenBlock h text => h.writer.reopenBlock text
  | pushOrigin h span => h.writer.pushOrigin span
  | popOrigin h => h.writer.popOrigin
  | code h text origin => h.writer.code text origin
  | append h other => h.writer.append other.writer

/-- How many blocks are open. -/
def depth : History → Nat
  | empty => 0
  | openBlock h _ => h.depth + 1
  | closeBlock h _ => h.depth - 1
  | reopenBlock h _ => h.depth - 1 + 1
  | nested h | line h _ | blank h | pushOrigin h _ | popOrigin h | code h _ _ | append h _ => h.depth

/-- The spans that are open, the innermost one first. -/
def spans : History → List Span
  | empty => []
  | pushOrigin h span => span :: h.spans
  | popOrigin h => h.spans.tail
  | nested h | line h _ | blank h | openBlock h _ | closeBlock h _ | reopenBlock h _ | code h _ _ | append h _ => h.spans

/-- The lines that were written. -/
def written : History → List Written
  | empty | nested _ => []
  | pushOrigin h _ | popOrigin h => h.written
  | line h text | openBlock h text => h.written ++ [⟨h.depth, text, h.spans, false⟩]
  | closeBlock h text | reopenBlock h text => h.written ++ [⟨h.depth - 1, text, h.spans, false⟩]
  | blank h => h.written ++ [⟨0, "", h.spans, true⟩]
  | code h text origin => h.written ++ (hostLines text).map (⟨h.depth, ·, origin :: h.spans, false⟩)
  | append h other => h.written ++ other.written

/-- No text that was given for a line has the end of a line in it. -/
def Plain : History → Prop
  | empty => True
  | line h text | openBlock h text | closeBlock h text | reopenBlock h text => h.Plain ∧ '\n' ∉ text.toList
  | nested h | blank h | pushOrigin h _ | popOrigin h | code h _ _ => h.Plain
  | append h other => h.Plain ∧ other.Plain

instance decidablePlain : (h : History) → Decidable h.Plain
  | empty => inferInstanceAs (Decidable True)
  | line h _ | openBlock h _ | closeBlock h _ | reopenBlock h _ =>
    have := decidablePlain h
    inferInstanceAs (Decidable (_ ∧ _))
  | nested h | blank h | pushOrigin h _ | popOrigin h | code h _ _ => decidablePlain h
  | append h other =>
    have := decidablePlain h
    have := decidablePlain other
    inferInstanceAs (Decidable (_ ∧ _))

/-! ## What a writer holds -/

theorem foldl_line (w : CodeWriter) (texts : List String) :
    texts.foldl CodeWriter.line w =
      { w with lines := w.lines ++ (texts.map (⟨w.indent, ·, w.origins.head?⟩ : String → Line)).toArray } := by
  induction texts generalizing w with
  | nil => simp
  | cons text texts ih => simp [ih, CodeWriter.line]

/-- A writer holds the lines of its history, and knows what is open. -/
theorem writer_eq (h : History) : h.writer = ⟨(h.written.map Written.kept).toArray, h.depth, h.spans⟩ := by
  induction h with
  | empty => rfl
  | nested h ih => simp [writer, written, depth, spans, CodeWriter.nested, ih]
  | pushOrigin h span ih => simp [writer, written, depth, spans, CodeWriter.pushOrigin, ih]
  | popOrigin h ih => simp [writer, written, depth, spans, CodeWriter.popOrigin, ih]
  | line h text ih => simp [writer, written, depth, spans, CodeWriter.line, Written.kept, Written.origin?, ih]
  | blank h ih => simp [writer, written, depth, spans, CodeWriter.blank, Written.kept, Written.origin?, ih]
  | openBlock h text ih =>
    simp [writer, written, depth, spans, CodeWriter.openBlock, CodeWriter.line, Written.kept, Written.origin?, ih]
  | closeBlock h text ih =>
    simp [writer, written, depth, spans, CodeWriter.closeBlock, CodeWriter.line, Written.kept, Written.origin?, ih]
  | reopenBlock h text ih =>
    simp [writer, written, depth, spans, CodeWriter.reopenBlock, CodeWriter.closeBlock, CodeWriter.line, Written.kept,
      Written.origin?, ih]
  | code h text origin ih =>
    rw [writer, CodeWriter.code, foldl_line, ih]
    simp [written, depth, spans, CodeWriter.pushOrigin, CodeWriter.popOrigin, hostLines, Written.kept, Written.origin?,
      Function.comp_def]
  | append h other ih ihOther => simp [writer, written, depth, spans, CodeWriter.append, ih, ihOther]

theorem toList_foldl_written (lines : List Written) (s : String) :
    ((lines.map Written.kept).foldl (fun s l => s ++ l.written) s).toList =
      s.toList ++ (lines.map Written.shown).flatMap (· ++ ['\n']) := by
  induction lines generalizing s with
  | nil => simp
  | cons l lines ih => simp [ih, Written.toList_written_kept]

theorem source_writer (h : History) : h.writer.source.toList = (h.written.map Written.shown).flatMap (· ++ ['\n']) := by
  rw [writer_eq, CodeWriter.source, List.foldl_toArray, toList_foldl_written]
  rfl

theorem map_writer (h : History) : h.writer.map = ⟨SourceMap.ofOrigins [] 0 (h.written.map Written.origin?)⟩ := by
  rw [writer_eq, CodeWriter.map, List.map_map]
  rfl

/-- Lines have no newline in them: those of host code were cut there. -/
theorem Plain.not_mem_shown {h : History} (hplain : h.Plain) : ∀ l ∈ h.written, '\n' ∉ l.shown := by
  have shown {l : Written} (htext : '\n' ∉ l.text.toList) : '\n' ∉ l.shown := by
    simp [Written.shown, htext]
  have concat {lines : List Written} {l : Written} (hlines : ∀ l ∈ lines, '\n' ∉ l.shown) (htext : '\n' ∉ l.text.toList) :
      ∀ l' ∈ lines ++ [l], '\n' ∉ l'.shown :=
    List.forall_mem_append.2 ⟨hlines, List.forall_mem_singleton.2 (shown htext)⟩
  induction h with
  | empty | nested => nofun
  | pushOrigin h span ih | popOrigin h ih => exact ih hplain
  | line h text ih | openBlock h text ih | closeBlock h text ih | reopenBlock h text ih =>
    exact concat (ih hplain.1) hplain.2
  | blank h ih => exact concat (ih hplain) (by simp)
  | code h text origin ih =>
    refine List.forall_mem_append.2 ⟨ih hplain, List.forall_mem_map.2 fun text' htext' => shown ?_⟩
    obtain ⟨cs, hcs, rfl⟩ := List.mem_map.1 htext'
    rw [String.toList_ofList]
    exact fun hmem => Lines.not_mem_splitFrom List.not_mem_nil cs hcs (Lines.mem_of_mem_trimEndChars hmem)
  | append h other ih ihOther => exact List.forall_mem_append.2 ⟨ih hplain.1, ihOther hplain.2⟩

/-! ## Text and map -/

theorem minimal_map (h : History) : h.writer.map.Minimal := by
  rw [map_writer]
  exact (SourceMap.ofOrigins_spec _).1

/-- A look-up tells what is known of the line. -/
theorem lookup_map (h : History) (i : Nat) : h.writer.map.lookup i = h.written[i]?.bind Written.origin? := by
  rw [map_writer, (SourceMap.ofOrigins_spec _).2, List.getElem?_map]
  cases h.written[i]? <;> rfl

theorem split_source {h : History} (hplain : h.Plain) :
    Lines.split h.writer.source.toList = h.written.map Written.shown := by
  rw [source_writer, Lines.split_flatMap (List.forall_mem_map.2 hplain.not_mem_shown)]

/-- Whatever was done to a writer, its text consists of the lines that were written, and its map, which says no more than
it has to, leads from each line to the innermost span that was open when the line was written, if it is not a blank one. -/
theorem written_lines_are_mapped (h : History) (hplain : h.Plain) :
    Lines.split h.writer.source.toList = h.written.map Written.shown ∧ h.writer.map.Minimal ∧
      ∀ i, h.writer.map.lookup i = h.written[i]?.bind Written.origin? :=
  ⟨split_source hplain, h.minimal_map, h.lookup_map⟩

/-- Host code with a span of its own, written apart for a block of another span. -/
def spliced : History :=
  let outer : History := .openBlock (.pushOrigin (.line .empty "use a;") ⟨4, 8⟩) "if x \x7b"
  let inner : History := .code (.nested outer) " first()\n  .second; \n" ⟨10, 20⟩
  .blank (.closeBlock (.append outer inner) "\x7d")

theorem written_lines_are_mapped_spliced : spliced.Plain ∧
    Lines.split spliced.writer.source.toList =
      ["use a;", "if x \x7b", "    first()", "      .second;", "\x7d", ""].map String.toList ∧
    spliced.writer.map.Minimal ∧
    ∀ i, spliced.writer.map.lookup i =
      [none, some ⟨4, 8⟩, some ⟨10, 20⟩, some ⟨10, 20⟩, some ⟨4, 8⟩, none][i]?.join := by
  have plain : spliced.Plain := by decide
  have shown : spliced.written.map Written.shown =
      ["use a;", "if x \x7b", "    first()", "      .second;", "\x7d", ""].map String.toList := by decide
  have origins : spliced.written.map Written.origin? =
      [none, some ⟨4, 8⟩, some ⟨10, 20⟩, some ⟨10, 20⟩, some ⟨4, 8⟩, none] := by decide
  obtain ⟨lines, minimal, lookup⟩ := written_lines_are_mapped spliced plain
  refine ⟨plain, lines.trans shown, minimal, fun i => ?_⟩
  rw [lookup, ← origins, List.getElem?_map]
  cases spliced.written[i]? <;> rfl

/-- A blank line comes from no span, though one is open. -/
theorem blank_line_of_no_span :
    ¬ ∀ h : History, h.Plain → ∀ i, h.writer.map.lookup i = h.written[i]?.bind (·.spans.head?) := by
  intro h
  have within := h (.blank (.pushOrigin .empty ⟨4, 8⟩)) trivial 0
  rw [lookup_map] at within
  cases within

end History

end CodeWriter

end PegCompiler
