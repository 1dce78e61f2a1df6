/-
Texts and their rests. There is a rest at an offset just where the offset is below the size of the text, and
the bytes of what a literal, a class or the dot takes of it are those of its characters; from a boundary between
characters it leads to another one. What is to match in any case takes something, if it is not empty.
-/
import Mathlib.Data.List.Basic
import PegCompiler.Machine.State

namespace PegCompiler

namespace Input

theorem foldl_utf8Size (cs : List Char) (n m : Nat) :
    cs.foldl (fun n c => n + c.utf8Size) (m + n) = m + cs.foldl (fun n c => n + c.utf8Size) n := by
  induction cs generalizing n with
  | nil => rfl
  | cons c cs ih => rw [List.foldl_cons, Nat.add_assoc, ih, List.foldl_cons]

/-- The size of characters in bytes, from the last one on. -/
theorem byteLength_cons (c : Char) (cs : List Char) : byteLength (c :: cs) = c.utf8Size + byteLength cs := by
  unfold byteLength
  rw [List.foldl_cons, Nat.zero_add]
  exact foldl_utf8Size cs 0 c.utf8Size

theorem byteLength_eq (cs : List Char) : byteLength cs = (String.ofList cs).utf8ByteSize := by
  induction cs with
  | nil => rfl
  | cons c cs ih =>
    rw [byteLength_cons, ih, String.ofList_cons, String.utf8ByteSize_append, String.utf8ByteSize_singleton]

theorem byteLength_toList (s : String) : byteLength s.toList = s.utf8ByteSize := by
  rw [byteLength_eq, String.ofList_toList]

theorem byteLength_pos {cs : List Char} (h : cs ≠ []) : 0 < byteLength cs := by
  cases cs with
  | nil => exact absurd rfl h
  | cons c cs =>
    rw [byteLength_cons]
    have := c.utf8Size_pos
    omega

/-- The rests of a text that stand at the offsets from its first byte on. -/
def rows : List Char → List (List Char)
  | [] => [[]]
  | c :: cs => List.replicate c.utf8Size (c :: cs) ++ rows cs

theorem restsFrom_eq (table : Array (List Char)) (cs : List Char) :
    (restsFrom table cs).toList = table.toList ++ rows cs := by
  induction cs generalizing table with
  | nil => simp [restsFrom, rows]
  | cons c cs ih => simp [restsFrom, rows, ih]

theorem rest_ofString (s : String) (pos : Nat) : (ofString s).rest pos = (rows s.toList).getD pos [] := by
  unfold rest ofString
  rw [Array.getD_eq_getD_getElem?, ← Array.getElem?_toList, restsFrom_eq, List.getD_eq_getElem?_getD]
  rfl

theorem rows_ne_nil_iff (cs : List Char) (pos : Nat) : (rows cs).getD pos [] ≠ [] ↔ pos < byteLength cs := by
  induction cs generalizing pos with
  | nil => cases pos <;> simp [rows, byteLength]
  | cons c cs ih =>
    rw [byteLength_cons, rows, List.getD_eq_getElem?_getD]
    by_cases h : pos < c.utf8Size
    · rw [List.getElem?_append_left (by rw [List.length_replicate]; exact h), List.getElem?_replicate_of_lt h]
      simp
      omega
    · rw [List.getElem?_append_right (by rw [List.length_replicate]; omega), List.length_replicate,
        ← List.getD_eq_getElem?_getD, ih]
      omega

/-- There is a rest below the size of the text. -/
theorem rest_ne_nil_iff (s : String) (pos : Nat) : (ofString s).rest pos ≠ [] ↔ pos < (ofString s).size := by
  rw [rest_ofString, rows_ne_nil_iff, byteLength_toList]
  rfl

/-! ## Boundaries -/

/-- An offset between two characters of a text, or at an end of it. -/
def Boundary (s : String) (pos : Nat) : Prop := String.Pos.Raw.IsValid s ⟨pos⟩

theorem byteLength_append (a b : List Char) : byteLength (a ++ b) = byteLength a + byteLength b := by
  induction a with
  | nil => simp [byteLength]
  | cons c a ih => rw [List.cons_append, byteLength_cons, byteLength_cons, ih, Nat.add_assoc]

theorem boundary_iff {s : String} {pos : Nat} :
    Boundary s pos ↔ ∃ before after, s.toList = before ++ after ∧ byteLength before = pos := by
  unfold Boundary
  rw [String.Pos.Raw.isValid_iff_exists_append]
  constructor
  · rintro ⟨a, b, rfl, h⟩
    refine ⟨a.toList, b.toList, String.toList_append, ?_⟩
    rw [byteLength_toList]
    exact (congrArg String.Pos.Raw.byteIdx h).symm
  · rintro ⟨before, after, h, rfl⟩
    refine ⟨String.ofList before, String.ofList after, ?_, ?_⟩
    · rw [← String.ofList_append, ← h, String.ofList_toList]
    · have size := byteLength_toList (String.ofList before)
      rw [String.toList_ofList] at size
      rw [size]
      rfl

theorem boundary_zero (s : String) : Boundary s 0 := boundary_iff.2 ⟨[], s.toList, rfl, rfl⟩

/-- A boundary is inside of the text, or at its end. -/
theorem Boundary.le_size {s : String} {pos : Nat} (h : Boundary s pos) : pos ≤ (ofString s).size := by
  obtain ⟨before, after, hs, rfl⟩ := boundary_iff.1 h
  have size : (ofString s).size = byteLength s.toList := (byteLength_toList s).symm
  rw [size, hs, byteLength_append]
  omega

/-- At a boundary, the rest of a text is all that is after it. -/
theorem rest_of_append {s : String} {before after : List Char} (h : s.toList = before ++ after) :
    (ofString s).rest (byteLength before) = after := by
  rw [rest_ofString, h]
  clear h
  induction before with
  | nil =>
    cases after with
    | nil => rfl
    | cons c cs =>
      obtain ⟨n, hn⟩ : ∃ n, c.utf8Size = n + 1 := ⟨c.utf8Size - 1, by have := c.utf8Size_pos; omega⟩
      simp [rows, byteLength, hn, List.replicate_succ]
  | cons c before ih =>
    rw [byteLength_cons, List.cons_append, rows, List.getD_eq_getElem?_getD, List.getElem?_append_right (by simp),
      List.length_replicate, Nat.add_sub_cancel_left, ← List.getD_eq_getElem?_getD]
    exact ih

/-- What a text goes on with ends at a boundary. -/
theorem Boundary.add {s : String} {pos : Nat} (h : Boundary s pos) {text : List Char}
    (ht : text <+: (ofString s).rest pos) : Boundary s (pos + byteLength text) := by
  obtain ⟨before, after, hs, rfl⟩ := boundary_iff.1 h
  rw [rest_of_append hs] at ht
  obtain ⟨more, rfl⟩ := ht
  exact boundary_iff.2 ⟨before ++ text, more, by rw [hs, List.append_assoc], byteLength_append before text⟩

theorem takeBytes_append (a b : List Char) : takeBytes (a ++ b) (byteLength a) = a := by
  induction a with
  | nil => cases b <;> simp [takeBytes, byteLength]
  | cons c a ih =>
    have := c.utf8Size_pos
    rw [List.cons_append, byteLength_cons, takeBytes, if_neg (by omega), Nat.add_sub_cancel_left, ih]

/-- From one boundary to a later one there is a part of the text. -/
theorem slice_eq {s : String} {start stop : Nat} (h : Boundary s start) (h' : Boundary s stop) (hle : start ≤ stop) :
    ∃ before here after, s.toList = before ++ here ++ after ∧ byteLength before = start ∧
      byteLength (before ++ here) = stop ∧ (ofString s).slice start stop = String.ofList here := by
  obtain ⟨before, rest, hs, rfl⟩ := boundary_iff.1 h
  obtain ⟨before', after, hs', rfl⟩ := boundary_iff.1 h'
  have parts : ∃ here, before' = before ++ here := by
    rcases List.prefix_or_prefix_of_prefix ⟨rest, hs.symm⟩ ⟨after, hs'.symm⟩ with ⟨here, e⟩ | ⟨more, rfl⟩
    · exact ⟨here, e.symm⟩
    · rw [byteLength_append] at hle
      have none : more = [] := by
        by_contra hne
        have := byteLength_pos hne
        omega
      exact ⟨[], by simp [none]⟩
  obtain ⟨here, rfl⟩ := parts
  refine ⟨before, here, after, hs', rfl, rfl, ?_⟩
  rw [List.append_assoc] at hs'
  unfold slice
  rw [rest_of_append hs', byteLength_append, Nat.add_sub_cancel_left, takeBytes_append]

end Input

namespace ParseState

variable {st : ParseState} {s : String}

/-- There is a character just where there is a rest. -/
theorem matchAny_eq (h : st.input = .ofString s) : st.matchAny = st.rest.head?.isSome := by
  have hrest := Input.rest_ne_nil_iff s st.pos
  unfold matchAny rest
  rw [h, ← Bool.coe_iff_coe, decide_eq_true_iff, ← hrest]
  cases (Input.ofString s).rest st.pos <;> simp

end ParseState

/-! ## In any case -/

namespace Case

/-- No character is lost in lower case. -/
theorem lowerChar_ne_nil (c : Char) : lowerChar c ≠ [] := by
  have several : ∀ n cs, Unicode.lowerSeveral.lookup n = some cs → cs ≠ [] := by
    intro n cs h
    have all : ∀ p ∈ Unicode.lowerSeveral, p.2 ≠ [] := by decide
    obtain ⟨l₁, l₂, hl, -⟩ := List.lookup_eq_some_iff.1 h
    exact all (n, cs) (by rw [hl]; simp)
  unfold lowerChar mapChar
  split
  · simp
  · split
    · rename_i cs h
      simpa using several _ cs h
    · split <;> simp

theorem lower_toList_ne_nil {s : String} (h : s ≠ "") : (lower s).toList ≠ [] := by
  unfold lower
  rw [String.toList_ofList]
  cases hs : s.toList with
  | nil => exact absurd (String.toList_eq_nil_iff.1 hs) h
  | cons c cs =>
    unfold lowerFrom
    split
    · split <;> simp
    · simp [lowerChar_ne_nil]

end Case

theorem ParseState.icStart?_prefix {want cs text : List Char} (h : icStart? want cs = some text) : text <+: cs := by
  induction cs generalizing want text with
  | nil =>
    unfold icStart? at h
    split at h <;> cases h
    exact List.nil_prefix
  | cons c cs ih =>
    unfold icStart? at h
    split at h
    · cases h
      exact List.nil_prefix
    · obtain ⟨left, -, hmap⟩ := Option.bind_eq_some_iff.1 h
      obtain ⟨more, hmore, rfl⟩ := Option.map_eq_some_iff.1 hmap
      exact (List.prefix_cons_inj c).2 (ih hmore)

theorem ParseState.icStart?_ne_nil {want cs text : List Char} (hw : want ≠ []) (h : icStart? want cs = some text) :
    text ≠ [] ∧ cs ≠ [] := by
  have hempty : want.isEmpty = false := by simpa using hw
  cases cs with
  | nil =>
    unfold icStart? at h
    rw [hempty] at h
    cases h
  | cons c cs =>
    unfold icStart? at h
    rw [hempty] at h
    simp only [Bool.false_eq_true, if_false, Option.bind_eq_some_iff, Option.map_eq_some_iff] at h
    obtain ⟨_, -, _, -, rfl⟩ := h
    exact ⟨by simp, by simp⟩

end PegCompiler
