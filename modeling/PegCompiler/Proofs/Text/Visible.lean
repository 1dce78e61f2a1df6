/-
Texts of error messages. They write control characters as escapes and put a backslash before the marks of a notation: the
quotes of a literal, or what has a meaning of its own inside of a class. Of both notations the characters can be read off
again, so a literal is told by what is between its quotes, and a class by what is between its brackets.
-/
import PegCompiler.CharClass
import PegCompiler.Proofs.Text.Escaping

namespace PegCompiler

namespace Quoted

/-! ## Characters -/

/-- What a digit in base sixteen stands for, in upper case. -/
def upperHexDigit (c : Char) : Nat := if c.isDigit then c.toNat - 48 else c.toNat - 55

/-- The character that a visible text begins with, and what is left of the text. -/
def readVisible : List Char → Option (Char × List Char)
  | '\\' :: '0' :: cs => some ('\x00', cs)
  | '\\' :: 't' :: cs => some ('\t', cs)
  | '\\' :: 'n' :: cs => some ('\n', cs)
  | '\\' :: 'r' :: cs => some ('\r', cs)
  | '\\' :: 'x' :: high :: low :: cs => some (Char.ofNat (16 * upperHexDigit high + upperHexDigit low), cs)
  | '\\' :: c :: cs => some (c, cs)
  | c :: cs => some (c, cs)
  | [] => none

theorem upperHexDigit_toUpper : ∀ n < 16, upperHexDigit (Nat.digitChar n).toUpper = n := by decide

/-- Two digits are enough for a byte, and never less are written. -/
theorem twoHexDigits_eq {n : Nat} (h : n < 0x100) : twoHexDigits n =
    String.ofList [(Nat.digitChar (n / 16)).toUpper, (Nat.digitChar (n % 16)).toUpper] := by
  unfold twoHexDigits
  rw [Nat.toDigits_eq_if (by decide)]
  split
  · rename_i small
    rw [Nat.div_eq_of_lt small, Nat.mod_eq_of_lt small]
    rfl
  · rw [Nat.toDigits_of_lt_base (by omega)]
    rfl

theorem upperHexDigit_twoHexDigits {n : Nat} (h : n < 0x100) :
    16 * upperHexDigit (Nat.digitChar (n / 16)).toUpper + upperHexDigit (Nat.digitChar (n % 16)).toUpper = n := by
  rw [upperHexDigit_toUpper _ (by omega), upperHexDigit_toUpper _ (by omega)]
  exact Nat.div_add_mod n 16

variable {c : Char} {cs : List Char}

theorem readVisible_of_ne (h : c ≠ '\\') : readVisible (c :: cs) = some (c, cs) := by
  simp [readVisible, h]

/-- What is made visible is read again. -/
theorem readVisible_visible (h : c ≠ '\\') : readVisible ((visible c).toList ++ cs) = some (c, cs) := by
  unfold visible
  split
  · subst_vars; rfl
  split
  · subst_vars; rfl
  split
  · subst_vars; rfl
  split
  · subst_vars; rfl
  split
  · rename_i hcontrol
    have byte : c.toNat < 0x100 := by
      simp only [Unicode.isControl, Bool.or_eq_true, Bool.and_eq_true, decide_eq_true_eq] at hcontrol
      omega
    rw [twoHexDigits_eq byte, String.toList_append, String.toList_ofList, String.toList_ofList]
    show some (Char.ofNat _, cs) = _
    rw [upperHexDigit_twoHexDigits byte, Char.ofNat_toNat]
  · rw [Char.toString_eq_singleton, String.toList_singleton, List.singleton_append, readVisible_of_ne h]

/-! ## Marks -/

/-- A character with control characters made visible and the marks of a notation after a backslash. -/
def marked (marks : List Char) (c : Char) : List Char := if c ∈ marks then ['\\', c] else (visible c).toList

/-- The marks of a notation: the backslash, and others that no escape begins with. -/
structure IsNotation (marks : List Char) : Prop where
  backslash : '\\' ∈ marks
  others : ∀ m ∈ marks, m ∈ ['\\', '"', ']', '^', '-']

variable {marks : List Char}

theorem readVisible_marked (h : IsNotation marks) : readVisible (marked marks c ++ cs) = some (c, cs) := by
  unfold marked
  split
  · rename_i hmark
    have known := h.others c hmark
    simp only [List.mem_cons, List.not_mem_nil, or_false] at known
    rcases known with rfl | rfl | rfl | rfl | rfl <;> rfl
  · rename_i hplain
    exact readVisible_visible fun hbackslash => hplain (hbackslash ▸ h.backslash)

/-- What is written for a character begins with no mark but the backslash. -/
theorem head?_marked {m : Char} (hm : m ∈ marks) (hbackslash : m ≠ '\\') : (marked marks c ++ cs).head? ≠ some m := by
  unfold marked visible
  split
  · simp [hbackslash.symm]
  · rename_i hplain
    have plain : c ≠ m := fun h => hplain (h ▸ hm)
    split_ifs <;> simp [hbackslash.symm, plain]

/-! ## Literals -/

def literalMarks : List Char := ['\\', '"']

theorem isNotation_literalMarks : IsNotation literalMarks := ⟨by simp [literalMarks], by simp [literalMarks]⟩

theorem toList_visibleString (s : String) :
    (visibleString s).toList = '"' :: (s.toList.flatMap (marked literalMarks) ++ ['"']) := by
  have one : ∀ c : Char, (if c = '\\' then "\\\\" else if c = '"' then "\\\"" else visible c).toList =
      marked literalMarks c := by
    intro c
    unfold marked literalMarks
    by_cases hbackslash : c = '\\'
    · subst hbackslash; rfl
    by_cases hquote : c = '"'
    · subst hquote; rfl
    simp [hbackslash, hquote]
  unfold visibleString
  simp only [String.toList_append, String.toList_join, List.flatMap_map, one]
  rfl

/-- Different texts look different in quotes. -/
theorem visibleString_inj {s s' : String} : visibleString s = visibleString s' ↔ s = s' := by
  rw [← String.toList_inj, toList_visibleString, toList_visibleString, List.cons.injEq, eq_self_iff_true, true_and,
    List.append_cancel_right_eq, ← String.toList_inj]
  exact flatMap_inj_of_read rfl fun _ _ => readVisible_marked isNotation_literalMarks

end Quoted

end PegCompiler
