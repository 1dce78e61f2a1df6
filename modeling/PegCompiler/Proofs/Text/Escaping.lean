/-
Escaped text. Whatever the style, a character can be told from how it is escaped, and from what comes after it: a
backslash says that the next character is not meant by itself, and a code point ends at its closing brace.
-/
import Mathlib.Data.List.TakeDrop
import PegCompiler.Text.Quoted

namespace PegCompiler.Quoted

/-! ## Codes that can be read -/

/-- What codes stand for can be told from the codes one after the other, if one of them can be read off in front. -/
theorem flatMap_inj_of_read {α : Type} {code : α → List Char} {read : List Char → Option (α × List Char)}
    (read_nil : read [] = none) (read_code : ∀ a cs, read (code a ++ cs) = some (a, cs)) {as bs : List α} :
    as.flatMap code = bs.flatMap code ↔ as = bs := by
  have code_ne : ∀ a (cs : List Char), code a ++ cs ≠ [] := by
    intro a cs h
    have empty := congrArg read h
    rw [read_code, read_nil] at empty
    cases empty
  induction as generalizing bs with
  | nil =>
    cases bs with
    | nil => exact iff_of_true rfl rfl
    | cons b bs => exact iff_of_false (code_ne b _).symm (List.cons_ne_nil b bs).symm
  | cons a as ih =>
    cases bs with
    | nil => exact iff_of_false (code_ne a _) (List.cons_ne_nil a as)
    | cons b bs =>
      rw [List.flatMap_cons, List.flatMap_cons, List.cons.injEq]
      constructor
      · intro h
        have front := congrArg read h
        rw [read_code, read_code, Option.some.injEq, Prod.mk.injEq] at front
        exact ⟨front.1, ih.1 front.2⟩
      · rintro ⟨rfl, rfl⟩
        rfl

/-! ## Code points -/

/-- What a digit in base sixteen stands for, in lower case. -/
def hexDigit (c : Char) : Nat := if c.isDigit then c.toNat - 48 else c.toNat - 87

/-- The number that digits in base sixteen denote. -/
def hexValue (ds : List Char) : Nat := ds.foldl (fun n d => 16 * n + hexDigit d) 0

theorem hexDigit_digitChar : ∀ n < 16, hexDigit (Nat.digitChar n) = n := by decide

theorem digitChar_ne_brace : ∀ n < 16, Nat.digitChar n ≠ '\x7d' := by decide

theorem hexValue_toDigits (n : Nat) : hexValue (Nat.toDigits 16 n) = n := by
  induction n using Nat.strongRecOn with
  | ind n ih =>
    rw [Nat.toDigits_eq_if (by decide)]
    split
    · rename_i small
      simp [hexValue, hexDigit_digitChar n small]
    · have front := ih (n / 16) (by omega)
      unfold hexValue at front ⊢
      rw [List.foldl_append, front]
      simp only [List.foldl_cons, List.foldl_nil]
      rw [hexDigit_digitChar _ (Nat.mod_lt n (by decide))]
      omega

theorem ne_brace_of_mem_toDigits {n : Nat} {d : Char} (h : d ∈ Nat.toDigits 16 n) : d ≠ '\x7d' := by
  induction n using Nat.strongRecOn with
  | ind n ih =>
    rw [Nat.toDigits_eq_if (by decide)] at h
    split at h
    · rename_i small
      rw [List.mem_singleton.1 h]
      exact digitChar_ne_brace n small
    · rcases List.mem_append.1 h with h | h
      · exact ih (n / 16) (by omega) h
      · rw [List.mem_singleton.1 h]
        exact digitChar_ne_brace _ (Nat.mod_lt n (by decide))

/-! ## Characters -/

/-- The character that an escaped text begins with, and what is left of the text. -/
def unescape : List Char → Option (Char × List Char)
  | '\\' :: '0' :: cs => some ('\x00', cs)
  | '\\' :: 't' :: cs => some ('\t', cs)
  | '\\' :: 'r' :: cs => some ('\r', cs)
  | '\\' :: 'n' :: cs => some ('\n', cs)
  | '\\' :: 'u' :: '\x7b' :: cs =>
    some (Char.ofNat (hexValue (cs.takeWhile (· != '\x7d'))), (cs.dropWhile (· != '\x7d')).tail)
  | '\\' :: c :: cs => some (c, cs)
  | c :: cs => some (c, cs)
  | [] => none

variable {style : Style} {c : Char} {cs ds : List Char}

theorem unescape_codePoint : unescape ((codePoint c).toList ++ cs) = some (c, cs) := by
  have digits : ∀ d ∈ Nat.toDigits 16 c.toNat, (d != '\x7d') = true := fun d hd =>
    bne_iff_ne.2 (ne_brace_of_mem_toDigits hd)
  have text : (codePoint c).toList ++ cs = '\\' :: 'u' :: '\x7b' :: (Nat.toDigits 16 c.toNat ++ '\x7d' :: cs) := by
    simp [codePoint, hexDigits]
  rw [text, unescape, List.takeWhile_append_of_pos digits, List.dropWhile_append_of_pos digits]
  simp [hexValue_toDigits]

/-- What is escaped is read again. -/
theorem unescape_escape : unescape ((escape style c).toList ++ cs) = some (c, cs) := by
  unfold escape
  split
  · subst_vars; rfl
  split
  · subst_vars; rfl
  split
  · subst_vars; rfl
  split
  · subst_vars; rfl
  split
  · subst_vars; rfl
  rename_i hbackslash
  split
  · rename_i hquote
    simp only [Bool.and_eq_true, decide_eq_true_eq] at hquote
    rw [hquote.1]
    rfl
  split
  · rename_i hquote
    simp only [Bool.and_eq_true, decide_eq_true_eq] at hquote
    rw [hquote.1]
    rfl
  split
  · exact unescape_codePoint
  split
  · simp [unescape, hbackslash]
  · exact unescape_codePoint

/-- Characters can be told from how they are escaped one after the other. -/
theorem flatMap_escape_inj :
    (cs.flatMap fun c => (escape style c).toList) = (ds.flatMap fun c => (escape style c).toList) ↔ cs = ds :=
  flatMap_inj_of_read rfl fun _ _ => unescape_escape

end PegCompiler.Quoted
