/-
What is read of an input for a text in lower case. Between two characters of the input there is at most one beginning of
the rest whose characters have that text for their forms, one after the other. It ends between two characters again, also
where the form of one has several; what is read is that part of the input as it is written there.
-/
import PegCompiler.Proofs.AnyCase

namespace PegCompiler

namespace ParseState

variable {st : ParseState} {s lowered : String} {w : List Char}

/-- The length in bytes of what a lowercase text matches. -/
def icLength? (st : ParseState) (lowered : String) : Option Nat := (st.icMatch? lowered).map Input.byteLength

/-- The rest begins with characters whose forms make up the text. -/
def Spells (st : ParseState) (lowered : String) (w : List Char) : Prop :=
  w <+: st.rest ∧ Case.lowerEach w = lowered.toList

theorem icMatch?_eq_some_iff_spells : st.icMatch? lowered = some w ↔ st.Spells lowered w := icMatch?_eq_some_iff

/-- There is one beginning that spells a text at most. -/
theorem Spells.unique {w' : List Char} (h : st.Spells lowered w) (h' : st.Spells lowered w') : w = w' := by
  have found := icMatch?_eq_some_iff_spells.2 h
  rw [icMatch?_eq_some_iff_spells.2 h'] at found
  exact (Option.some.inj found).symm

theorem icLength?_eq_some_iff {n : Nat} :
    st.icLength? lowered = some n ↔ ∃ w, st.Spells lowered w ∧ Input.byteLength w = n := by
  unfold icLength?
  simp only [Option.map_eq_some_iff, icMatch?_eq_some_iff_spells]

theorem matchStringIc_iff : st.matchStringIc lowered = true ↔ ∃ w, st.Spells lowered w := by
  unfold matchStringIc
  simp only [Option.isSome_iff_exists, icMatch?_eq_some_iff_spells]

theorem acceptStringIc_of_spells (h : st.Spells lowered w) : st.acceptStringIc lowered =
    (.str (String.ofList w), { st with pos := st.pos + Input.byteLength w }) :=
  acceptStringIc_of_icMatch? (icMatch?_eq_some_iff_spells.2 h)

/-- Where nothing spells the text, nothing is consumed. -/
theorem acceptStringIc_of_not_spells (h : ∀ w, ¬ st.Spells lowered w) :
    st.icLength? lowered = none ∧ st.acceptStringIc lowered = (.str "", st) := by
  have nothing : st.icMatch? lowered = none :=
    Option.eq_none_iff_forall_ne_some.2 fun w hw => h w (icMatch?_eq_some_iff_spells.1 hw)
  unfold icLength? acceptStringIc
  rw [nothing]
  exact ⟨rfl, rfl⟩

/-- A text that ends inside of the form of a character is spelled by nothing: what spells it would end before that
character, with too little, or after it, with too much. -/
theorem not_spells_inside {c : Char} {more a b : List Char} (hrest : st.rest = w ++ c :: more)
    (hc : Case.lowerChar c = a ++ b) (ha : a ≠ []) (hb : b ≠ []) (hlowered : lowered.toList = Case.lowerEach w ++ a)
    (w' : List Char) : ¬ st.Spells lowered w' := by
  rintro ⟨hw', hspells⟩
  rw [hlowered] at hspells
  rcases List.prefix_or_prefix_of_prefix hw' ⟨c :: more, hrest.symm⟩ with ⟨v, rfl⟩ | ⟨v, rfl⟩
  · -- it ends before the character
    rw [Case.lowerEach_append, List.append_assoc] at hspells
    have short := List.self_eq_append_right.1 hspells
    exact ha (List.append_eq_nil_iff.1 short).2
  · rw [Case.lowerEach_append, List.append_cancel_left_eq] at hspells
    rw [hrest, List.prefix_append_right_inj] at hw'
    cases v with
    | nil => exact ha hspells.symm
    | cons d v =>
      -- it ends after the character
      obtain ⟨rfl, -⟩ := List.cons_prefix_cons.1 hw'
      rw [Case.lowerEach_cons, hc, List.append_assoc] at hspells
      have long := List.append_right_eq_self.1 hspells
      exact hb (List.append_eq_nil_iff.1 long).1

/-- From between two characters, what spells a text leads to between two characters, with the text in between. -/
theorem Spells.slice (h : st.Spells lowered w) (hinput : st.input = .ofString s) (hpos : Input.Boundary s st.pos) :
    ∃ rest, st.rest = w ++ rest ∧ Input.Boundary s (st.pos + Input.byteLength w) ∧
      st.input.rest (st.pos + Input.byteLength w) = rest ∧
      st.input.slice st.pos (st.pos + Input.byteLength w) = String.ofList w := by
  have hrest : st.rest = (Input.ofString s).rest st.pos := by rw [← hinput]; rfl
  have stop := hpos.add (hrest ▸ h.1)
  obtain ⟨before, after, hs, hbefore⟩ := Input.boundary_iff.1 hpos
  rw [← hbefore, Input.rest_of_append hs] at hrest
  obtain ⟨rest, hafter⟩ := h.1
  have hs' : s.toList = (before ++ w) ++ rest := by rw [hs, ← hrest, ← hafter, List.append_assoc]
  refine ⟨rest, hafter.symm, stop, ?_, ?_⟩
  · rw [hinput, ← hbefore, ← Input.byteLength_append, Input.rest_of_append hs']
  · unfold Input.slice
    rw [hinput, ← hbefore, Input.rest_of_append hs, Nat.add_sub_cancel_left, ← hrest, ← hafter, Input.takeBytes_append]

/-- What a state of a parse reads of its input `s` for a lowercase text. -/
structure ReadsInAnyCase (st : ParseState) (s lowered : String) : Prop where
  /-- The length is that of a beginning of the rest that spells the text. -/
  length : ∀ n, st.icLength? lowered = some n ↔ ∃ w, st.Spells lowered w ∧ Input.byteLength w = n
  /-- There is at most one. -/
  unique : ∀ w w', st.Spells lowered w → st.Spells lowered w' → w = w'
  /-- The test succeeds just where consuming takes it. -/
  succeeds : st.matchStringIc lowered = true ↔ ∃ w, st.Spells lowered w ∧
    st.acceptStringIc lowered = (.str (String.ofList w), { st with pos := st.pos + Input.byteLength w })
  /-- It is taken as it is written in the input, up to the end of one of its characters. -/
  written : ∀ w, st.Spells lowered w → ∃ st', st.acceptStringIc lowered = (.str (st'.text st.pos), st') ∧
    st'.text st.pos = String.ofList w ∧ st.rest = w ++ st'.rest ∧ Input.Boundary s st'.pos
  /-- Where there is none, the test fails, and nothing is consumed. -/
  nothing : (∀ w, ¬ st.Spells lowered w) →
    st.icLength? lowered = none ∧ st.matchStringIc lowered = false ∧ st.acceptStringIc lowered = (.str "", st)
  /-- There is none for a text that ends inside of the form of a character. -/
  inside : ∀ w c more a b, st.rest = w ++ c :: more → Case.lowerChar c = a ++ b → a ≠ [] → b ≠ [] →
    lowered.toList = Case.lowerEach w ++ a → ∀ w', ¬ st.Spells lowered w'

/-- At every position of every input, what is read for a lowercase text is the beginning of the rest that spells it. -/
theorem readsInAnyCase (st : ParseState) (s lowered : String) (hinput : st.input = .ofString s)
    (hpos : Input.Boundary s st.pos) : st.ReadsInAnyCase s lowered where
  length _ := icLength?_eq_some_iff
  unique _ _ h h' := h.unique h'
  succeeds := by
    rw [matchStringIc_iff]
    constructor
    · rintro ⟨w, h⟩
      exact ⟨w, h, acceptStringIc_of_spells h⟩
    · rintro ⟨w, h, -⟩
      exact ⟨w, h⟩
  written := by
    intro w h
    obtain ⟨rest, hrest, stop, left, slice⟩ := h.slice hinput hpos
    refine ⟨{ st with pos := st.pos + Input.byteLength w }, ?_, slice, ?_, stop⟩
    · rw [acceptStringIc_of_spells h]
      exact congrArg (fun t => (Value.str t, _)) slice.symm
    · exact hrest.trans (congrArg (w ++ ·) left.symm)
  nothing := by
    intro h
    obtain ⟨length, accept⟩ := acceptStringIc_of_not_spells h
    refine ⟨length, ?_, accept⟩
    rw [Bool.eq_false_iff, Ne, matchStringIc_iff]
    rintro ⟨w, hw⟩
    exact h w hw
  inside _ _ _ _ _ hrest hc ha hb hlowered := not_spells_inside hrest hc ha hb hlowered

/-- The state of a parse of `xİX!` after its first character. -/
def afterX : ParseState := { start "xİX!" none false with pos := 1 }

theorem readsInAnyCase_afterX : afterX.ReadsInAnyCase "xİX!" "i̇x" ∧ afterX.Spells "i̇x" ['İ', 'X'] :=
  ⟨readsInAnyCase afterX "xİX!" "i̇x" rfl (Input.boundary_iff.2 ⟨['x'], ['İ', 'X', '!'], rfl, rfl⟩),
    ⟨['!'], rfl⟩, rfl⟩

end ParseState

end PegCompiler
