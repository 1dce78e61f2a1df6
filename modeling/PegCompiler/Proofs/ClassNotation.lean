/-
Character classes in grammar notation. The notation writes the characters of a class escaped, but for the caret, the
hyphen and the bracket as they are, so what it shows is which characters spell the class. Two classes look the same just
where they are read as one: a caret in front inverts, and a hyphen between two characters makes a range of them. A class
is read as itself where it cannot be mistaken for another, and those of which this holds can be told apart.
-/
import PegCompiler.Grammar.Printer
import PegCompiler.Proofs.Text.Escaping

namespace PegCompiler

/-! ## Parts -/

namespace ClassPart

/-- The characters that spell a part. -/
def spelled : ClassPart → List Char
  | char c => [c]
  | range first last => [first, '-', last]

/-- The parts that characters are read as. -/
def ofSpelling : List Char → List ClassPart
  | first :: '-' :: last :: cs => range first last :: ofSpelling cs
  | c :: cs => char c :: ofSpelling cs
  | [] => []

attribute [simp] ofSpelling

/-- No character that is a part by itself stands before a hyphen and another character. -/
def areClear : List ClassPart → Bool
  | char _ :: char '-' :: _ :: _ => false
  | char _ :: range '-' _ :: _ => false
  | _ :: ps => areClear ps
  | [] => true

/-- The characters of what is escaped without quotes. -/
def bare (c : Char) : List Char := (Quoted.bareChar c).toList

/-- The marks of the notation are not escaped. -/
theorem bare_mark {c : Char} (h : c = '-' ∨ c = '^') : bare c = [c] := by
  rcases h with rfl | rfl <;> rfl

theorem toList_notated (p : ClassPart) : p.notated.toList = p.spelled.flatMap bare := by
  cases p with
  | char c => simp [notated, spelled, bare]
  | range first last =>
    have hyphen : "-".toList = bare '-' := (bare_mark (.inl rfl)).symm
    simp [notated, spelled, hyphen, bare]

theorem flatMap_toList_notated (ps : List ClassPart) :
    (ps.map notated).flatMap String.toList = (ps.flatMap spelled).flatMap bare := by
  simp only [List.flatMap_map, List.flatMap_assoc, toList_notated]

theorem flatMap_spelled_ofSpelling (cs : List Char) : (ofSpelling cs).flatMap spelled = cs := by
  fun_induction ofSpelling cs with
  | case1 first last cs ih => simp [spelled, ih]
  | case2 c cs _ ih => simp [spelled, ih]
  | case3 => rfl

theorem ofSpelling_char {c : Char} {cs : List Char} (h : ∀ last rest, cs ≠ '-' :: last :: rest) :
    ofSpelling (c :: cs) = char c :: ofSpelling cs := by
  rw [ofSpelling]
  intro last rest heq
  exact h last rest heq

/-- Parts are read as themselves where they are clear. -/
theorem ofSpelling_flatMap_spelled_iff (ps : List ClassPart) :
    ofSpelling (ps.flatMap spelled) = ps ↔ areClear ps = true := by
  fun_induction areClear ps with
  | case1 c p ps => cases p <;> simp [spelled]
  | case2 c last ps => simp [spelled]
  | case3 p ps hhyphen hrange ih =>
    cases p with
    | range first last => simp [spelled, ih]
    | char c =>
      -- after it there is no hyphen, or nothing but a hyphen
      have apart : ∀ last rest, ps.flatMap spelled ≠ '-' :: last :: rest := by
        intro last rest heq
        rcases ps with _ | ⟨d | ⟨first, last'⟩, qs⟩
        · cases heq
        · cases qs with
          | nil => cases heq
          | cons q qs =>
            obtain ⟨rfl, -⟩ := List.cons.inj heq
            exact hhyphen c q qs rfl rfl
        · obtain ⟨rfl, -⟩ := List.cons.inj heq
          exact hrange c last' qs rfl rfl
      rw [List.flatMap_cons, spelled, List.singleton_append, ofSpelling_char apart, List.cons.injEq, ih]
      exact and_iff_right rfl
  | case4 => simp

end ClassPart

/-! ## Classes -/

namespace CharClass

/-- The characters that spell a class. -/
def spelled (k : CharClass) : List Char :=
  (if k.inverted then ['^'] else []) ++ k.parts.flatMap ClassPart.spelled

/-- The class that characters are read as. -/
def ofSpelling (ignoreCase : Bool) (cs : List Char) : CharClass :=
  if cs.head? = some '^' then ⟨ClassPart.ofSpelling cs.tail, true, ignoreCase⟩
  else ⟨ClassPart.ofSpelling cs, false, ignoreCase⟩

/-- The class that a class is read as. -/
def asRead (k : CharClass) : CharClass := ofSpelling k.ignoreCase k.spelled

/-- The parts are clear, and no caret in front inverts the class by mistake. -/
def isClear (k : CharClass) : Bool :=
  ClassPart.areClear k.parts && (k.inverted || k.spelled.head? != some '^')

variable {k k' : CharClass}

theorem spelled_ofSpelling (ignoreCase : Bool) (cs : List Char) : (ofSpelling ignoreCase cs).spelled = cs := by
  unfold ofSpelling
  split
  · rename_i hcaret
    obtain ⟨rest, rfl⟩ := List.head?_eq_some_iff.1 hcaret
    simp [spelled, ClassPart.flatMap_spelled_ofSpelling]
  · simp [spelled, ClassPart.flatMap_spelled_ofSpelling]

theorem ignoreCase_ofSpelling (ignoreCase : Bool) (cs : List Char) :
    (ofSpelling ignoreCase cs).ignoreCase = ignoreCase := by
  unfold ofSpelling
  split <;> rfl

/-- Classes are read as one class if the same characters spell them. -/
theorem asRead_eq_iff : k.asRead = k'.asRead ↔ k.spelled = k'.spelled ∧ k.ignoreCase = k'.ignoreCase := by
  constructor
  · intro h
    have spelling := congrArg spelled h
    have blind := congrArg ignoreCase h
    simp only [asRead, spelled_ofSpelling, ignoreCase_ofSpelling] at spelling blind
    exact ⟨spelling, blind⟩
  · rintro ⟨spelling, blind⟩
    rw [asRead, asRead, spelling, blind]

/-- A class is read as itself where it is clear. -/
theorem asRead_eq_self_iff : k.asRead = k ↔ k.isClear = true := by
  obtain ⟨parts, inverted, blind⟩ := k
  have read := ClassPart.ofSpelling_flatMap_spelled_iff parts
  cases inverted with
  | true => simp [asRead, spelled, ofSpelling, isClear, read]
  | false =>
    by_cases hcaret : (parts.flatMap ClassPart.spelled).head? = some '^'
    · obtain ⟨cs, hcs⟩ := List.head?_eq_some_iff.1 hcaret
      simp [asRead, spelled, ofSpelling, isClear, hcs]
    · simp [asRead, spelled, ofSpelling, isClear, read, hcaret]

end CharClass

/-! ## Texts -/

namespace Expr

variable {i i' : Expr.Info} {l l' : Nat} {k k' : CharClass}

theorem toList_notate_charClass : ((Expr.charClass i k).notate l).toList =
    '[' :: (k.spelled.flatMap ClassPart.bare ++ ']' :: if k.ignoreCase then ['i'] else []) := by
  have caret := ClassPart.bare_mark (.inr rfl)
  cases hinverted : k.inverted <;> cases hblind : k.ignoreCase <;>
    simp [notate, flag, CharClass.spelled, hinverted, hblind, ClassPart.flatMap_toList_notated, caret]

/-- Two classes are printed alike where they are read as one. -/
theorem notate_charClass_eq_iff :
    (Expr.charClass i k).notate l = (Expr.charClass i' k').notate l' ↔ k.asRead = k'.asRead := by
  rw [CharClass.asRead_eq_iff, ← String.toList_inj, toList_notate_charClass, toList_notate_charClass, List.cons.injEq,
    eq_self_iff_true, true_and]
  constructor
  · intro h
    have blind : k.ignoreCase = k'.ignoreCase := by
      have last := congrArg List.getLast? h
      cases hk : k.ignoreCase <;> cases hk' : k'.ignoreCase <;> simp [hk, hk'] at last ⊢
    rw [blind] at h
    exact ⟨Quoted.flatMap_escape_inj.1 (List.append_cancel_right h), blind⟩
  · rintro ⟨spelling, blind⟩
    rw [spelling, blind]

/-- Two class expressions are printed alike just where they are read as one class, and a class is read as itself just
where it is clear; so different classes that are clear are printed differently. -/
theorem printed_classes_apart (i i' : Expr.Info) (l l' : Nat) (k k' : CharClass) :
    ((Expr.charClass i k).notate l = (Expr.charClass i' k').notate l' ↔ k.asRead = k'.asRead) ∧
      (k.asRead = k ↔ k.isClear = true) ∧
      (k.isClear = true → k'.isClear = true → k ≠ k' →
        (Expr.charClass i k).notate l ≠ (Expr.charClass i' k').notate l') := by
  refine ⟨notate_charClass_eq_iff, CharClass.asRead_eq_self_iff, fun hk hk' hne htexts => hne ?_⟩
  have read := notate_charClass_eq_iff.1 htexts
  rwa [CharClass.asRead_eq_self_iff.2 hk, CharClass.asRead_eq_self_iff.2 hk'] at read

theorem printed_classes_apart_hyphen :
    (⟨[.range 'a' 'c'], false, false⟩ : CharClass).isClear = true ∧
      (⟨[.char '-', .char 'a', .char 'c'], false, false⟩ : CharClass).isClear = true ∧
      (Expr.charClass default ⟨[.range 'a' 'c'], false, false⟩).notate 0 ≠
        (Expr.charClass default ⟨[.char '-', .char 'a', .char 'c'], false, false⟩).notate 0 :=
  ⟨by decide, by decide, (printed_classes_apart default default 0 0 ⟨[.range 'a' 'c'], false, false⟩
    ⟨[.char '-', .char 'a', .char 'c'], false, false⟩).2.2 (by decide) (by decide) (by decide)⟩

/-- The inverted class without parts is printed as the class of a caret. -/
theorem caret_printed_as_inversion : ¬ ∀ (i i' : Expr.Info) (l l' : Nat) (k k' : CharClass), k ≠ k' →
    (Expr.charClass i k).notate l ≠ (Expr.charClass i' k').notate l' := fun h =>
  h default default 0 0 ⟨[], true, false⟩ ⟨[.char '^'], false, false⟩ (by decide) (notate_charClass_eq_iff.2 rfl)

end Expr

end PegCompiler
