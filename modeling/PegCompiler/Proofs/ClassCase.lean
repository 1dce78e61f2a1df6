/-
Character classes that are blind to case. A class is never put in lower case itself: it is asked for a character as it is
written, for its lowercase form and for its uppercase form. So it tells two characters apart just where the characters
that turn up in their forms are not the same, and among those with one lowercase form that is so for each stray: `[k]i`
takes the sign for kelvin, and `[K]i` does not.
-/
import PegCompiler.CharClass
import PegCompiler.Proofs.Text.CasePairs

namespace PegCompiler

/-! ## Forms of a character -/

namespace Case

/-- What a class that is blind to case is asked for in the place of a character. -/
def forms (c : Char) : List Char := c :: (lowerChar c ++ upperChar c)

variable {c d : Char}

theorem mem_forms {x : Char} : x ∈ forms c ↔ x = c ∨ x ∈ lowerChar c ∨ x ∈ upperChar c := by
  simp [forms]

/-- A stray is among the forms of no other character with its lowercase form. -/
theorem eq_of_stray_mem_forms (hlower : lowerChar c = lowerChar d) (hstray : Stray c) (h : c ∈ forms d) : c = d := by
  by_contra hne
  rcases mem_forms.1 h with heq | hmem | hmem
  · exact hne heq
  · exact hstray.1 (lowerChar_of_mem (hlower ▸ hmem))
  · exact not_stray_of_mem_upperChar hmem hne hstray

/-- A character in lower case and its uppercase form have the same forms. -/
theorem mem_forms_of_pair (hc : lowerChar c = [c]) (hd : lowerChar d = [c]) (hupper : upperChar c = [d]) {x : Char} :
    x ∈ forms c ↔ x ∈ forms d := by
  rw [mem_forms, mem_forms, hc, hd, hupper, upperChar_of_upperChar hupper]
  simp only [List.mem_singleton]
  tauto

theorem mem_forms_iff_of_not_stray (hlower : lowerChar c = lowerChar d) (hc : ¬ Stray c) (hd : ¬ Stray d) {x : Char} :
    x ∈ forms c ↔ x ∈ forms d := by
  have upper {e : Char} (he : ¬ Stray e) (hne : lowerChar e ≠ [e]) : (lowerChar e).flatMap upperChar = [e] :=
    not_not.1 fun h => he ⟨hne, h⟩
  -- which of the two are in lower case: both or neither only if they are the same character
  by_cases hcl : lowerChar c = [c] <;> by_cases hdl : lowerChar d = [d]
  · have heq : c = d := by simpa [hcl, hdl] using hlower
    rw [heq]
  · have hup := upper hd hdl
    rw [← hlower, hcl, List.flatMap_singleton] at hup
    exact mem_forms_of_pair hcl (hlower ▸ hcl) hup
  · have hup := upper hc hcl
    rw [hlower, hdl, List.flatMap_singleton] at hup
    exact (mem_forms_of_pair hdl (hlower ▸ hdl) hup).symm
  · have heq : c = d := by simpa [hlower, upper hd hdl, eq_comm] using upper hc hcl
    rw [heq]

/-- Characters with one lowercase form have the same forms unless one of them is a stray. -/
theorem mem_forms_iff (hlower : lowerChar c = lowerChar d) :
    (∀ x, x ∈ forms c ↔ x ∈ forms d) ↔ c = d ∨ (¬ Stray c ∧ ¬ Stray d) := by
  constructor
  · intro h
    by_contra hdistinct
    obtain ⟨hne, hstray⟩ := not_or.1 hdistinct
    refine hstray ⟨fun hc => hne ?_, fun hd => hne ?_⟩
    · exact eq_of_stray_mem_forms hlower hc ((h c).1 (mem_forms.2 (.inl rfl)))
    · exact (eq_of_stray_mem_forms hlower.symm hd ((h d).2 (mem_forms.2 (.inl rfl)))).symm
  · rintro (rfl | ⟨hc, hd⟩) x
    · rfl
    · exact mem_forms_iff_of_not_stray hlower hc hd

end Case

/-! ## Classes -/

namespace CharClass

variable {k : CharClass} {c d : Char}

theorem covered_iff_of_ignoreCase (h : k.ignoreCase = true) :
    k.covered c = true ↔ ∃ x ∈ Case.forms c, k.listed x = true := by
  simp [covered, h, Case.forms, List.any_eq_true, or_and_right, exists_or]

/-- The class of one character in any case. -/
def anyCase (x : Char) : CharClass := ⟨[.char x], false, true⟩

theorem anyCase_has {x : Char} : (anyCase x).has c = true ↔ x ∈ Case.forms c := by
  have covered := covered_iff_of_ignoreCase (k := anyCase x) (c := c) rfl
  simpa [has, anyCase, listed, ClassPart.has] using covered

/-- Classes that are blind to case tell two characters apart by the forms that only one of them has. -/
theorem forall_has_eq_iff : (∀ k : CharClass, k.ignoreCase = true → k.has c = k.has d) ↔
    ∀ x, x ∈ Case.forms c ↔ x ∈ Case.forms d := by
  constructor
  · intro h x
    rw [← anyCase_has, ← anyCase_has, h (anyCase x) rfl]
  · intro h k hk
    have covered : k.covered c = k.covered d := by
      rw [Bool.eq_iff_iff, covered_iff_of_ignoreCase hk, covered_iff_of_ignoreCase hk]
      simp only [h]
    rw [has, has, covered]

/-- The classes that are blind to case do not distinguish two characters with one lowercase form, unless one of them is
neither in lower case nor the uppercase form of that form. -/
theorem blind_to_case_iff (h : Case.lowerChar c = Case.lowerChar d) :
    (∀ k : CharClass, k.ignoreCase = true → k.has c = k.has d) ↔ c = d ∨ (¬ Case.Stray c ∧ ¬ Case.Stray d) :=
  forall_has_eq_iff.trans (Case.mem_forms_iff h)

theorem blind_to_case_sigma : Case.lowerChar 'Σ' = Case.lowerChar 'σ' ∧
    ((∀ k : CharClass, k.ignoreCase = true → k.has 'Σ' = k.has 'σ') ↔
      'Σ' = 'σ' ∨ (¬ Case.Stray 'Σ' ∧ ¬ Case.Stray 'σ')) :=
  have lowered : Case.lowerChar 'Σ' = Case.lowerChar 'σ' := by decide +kernel
  ⟨lowered, blind_to_case_iff lowered⟩

/-- The class of the letter K in any case lacks the sign for kelvin, whose lowercase form is that of the letter. -/
theorem kelvin_sign_not_in_class : ¬ ∀ (k : CharClass) (c d : Char), k.ignoreCase = true →
    Case.lowerChar c = Case.lowerChar d → k.has c = k.has d := fun h => by
  have same := h (anyCase 'K') 'K' '\u212A' rfl (by decide +kernel)
  have apart : (anyCase 'K').has 'K' ≠ (anyCase 'K').has '\u212A' := by decide +kernel
  exact apart same

end CharClass

end PegCompiler
