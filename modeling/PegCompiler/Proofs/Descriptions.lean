/-
Descriptions in error messages. They can be read: a description in quotes tells the text of a literal, one in brackets
tells the parts of a class and whether it is inverted, and neither looks like one of the two descriptions in words. Only
whether case is ignored is not told. So an error, which lists the first expectation for each description, lists the first
of those that are the same but for their case; and its message says nothing of the order in which they were recorded.
-/
import PegCompiler.Proofs.Failures
import PegCompiler.Proofs.Text.Visible

namespace PegCompiler

/-! ## Classes -/

namespace ClassPart

/-- What the notation of a class consists of: characters, and marks that have a meaning. -/
inductive Token
  | char (c : Char)
  | hyphen
  | caret

def classMarks : List Char := ['\\', ']', '^', '-']

theorem isNotation_classMarks : Quoted.IsNotation classMarks := ⟨by simp [classMarks], by simp [classMarks]⟩

namespace Token

def code : Token → List Char
  | char c => Quoted.marked classMarks c
  | hyphen => ['-']
  | caret => ['^']

/-- The token that a notation begins with, and what is left of it. -/
def read : List Char → Option (Token × List Char)
  | '-' :: cs => some (hyphen, cs)
  | '^' :: cs => some (caret, cs)
  | cs => (Quoted.readVisible cs).map (Prod.map char id)

theorem read_of_head {cs : List Char} (hhyphen : cs.head? ≠ some '-') (hcaret : cs.head? ≠ some '^') :
    read cs = (Quoted.readVisible cs).map (Prod.map char id) := by
  unfold read
  split
  · exact absurd rfl hhyphen
  · exact absurd rfl hcaret
  · rfl

/-- A character is not read as a mark, as a mark is not meant where it stands after a backslash. -/
theorem read_code (t : Token) (cs : List Char) : read (t.code ++ cs) = some (t, cs) := by
  cases t with
  | hyphen => rfl
  | caret => rfl
  | char c =>
    have hhyphen : (Quoted.marked classMarks c ++ cs).head? ≠ some '-' := Quoted.head?_marked (by decide) (by decide)
    have hcaret : (Quoted.marked classMarks c ++ cs).head? ≠ some '^' := Quoted.head?_marked (by decide) (by decide)
    rw [code, read_of_head hhyphen hcaret, Quoted.readVisible_marked isNotation_classMarks]
    rfl

end Token

/-- The tokens of a part. -/
def tokens : ClassPart → List Token
  | char c => [.char c]
  | range first last => [.char first, .hyphen, .char last]

theorem toList_charText (c : Char) : (charText c).toList = Quoted.marked classMarks c := by
  have marks : (c = '\\' || c = ']' || c = '^' || c = '-') = true ↔ c ∈ classMarks := by
    simp [classMarks, or_assoc]
  unfold charText Quoted.marked
  by_cases hmark : c ∈ classMarks
  · rw [if_pos (marks.2 hmark), if_pos hmark]
    simp
  · rw [if_neg (mt marks.1 hmark), if_neg hmark]

theorem toList_text (p : ClassPart) : p.text.toList = p.tokens.flatMap Token.code := by
  cases p with
  | char c => simp [text, tokens, Token.code, toList_charText]
  | range first last => simp [text, tokens, Token.code, toList_charText]

/-- Parts begin with a character. -/
theorem flatMap_tokens_ne {ps : List ClassPart} {ts : List Token} {t : Token} (ht : ∀ c, t ≠ .char c) :
    ps.flatMap tokens ≠ t :: ts := by
  intro h
  rcases ps with _ | ⟨c | ⟨first, last⟩, ps⟩
  · cases h
  · exact ht c (List.cons.inj h).1.symm
  · exact ht first (List.cons.inj h).1.symm

/-- A character is the beginning of a range just where a hyphen comes after it. -/
theorem flatMap_tokens_inj {ps qs : List ClassPart} : ps.flatMap tokens = qs.flatMap tokens ↔ ps = qs := by
  constructor
  · intro h
    induction ps generalizing qs with
    | nil =>
      rcases qs with _ | ⟨c | ⟨first, last⟩, qs⟩
      · rfl
      · cases h
      · cases h
    | cons p ps ih =>
      rcases p with c | ⟨first, last⟩ <;> rcases qs with _ | ⟨d | ⟨first', last'⟩, qs⟩
      · cases h
      · obtain ⟨same, rest⟩ := List.cons.inj h
        rw [Token.char.inj same, ih rest]
      · exact absurd (List.cons.inj h).2 (flatMap_tokens_ne nofun)
      · cases h
      · exact absurd (List.cons.inj h).2.symm (flatMap_tokens_ne nofun)
      · obtain ⟨same, rest⟩ := List.cons.inj h
        obtain ⟨same', rest⟩ := List.cons.inj (List.cons.inj rest).2
        rw [Token.char.inj same, Token.char.inj same', ih rest]
  · rintro rfl
    rfl

end ClassPart

namespace CharClass

variable {k k' : CharClass}

/-- The tokens between the brackets of a class. -/
def tokens (k : CharClass) : List ClassPart.Token :=
  (if k.inverted then [.caret] else []) ++ k.parts.flatMap ClassPart.tokens

theorem toList_text (k : CharClass) : k.text.toList = '[' :: (k.tokens.flatMap ClassPart.Token.code ++ [']']) := by
  cases hinverted : k.inverted <;>
    simp [text, tokens, hinverted, ClassPart.Token.code, List.flatMap_map, List.flatMap_assoc, ClassPart.toList_text]

theorem tokens_inj : k.tokens = k'.tokens ↔ k.parts = k'.parts ∧ k.inverted = k'.inverted := by
  have first : ∀ {ps : List ClassPart} {ts : List ClassPart.Token}, ps.flatMap ClassPart.tokens ≠ .caret :: ts :=
    ClassPart.flatMap_tokens_ne nofun
  unfold tokens
  cases k.inverted <;> cases k'.inverted <;> simp [ClassPart.flatMap_tokens_inj, first, first.symm]

/-- The notation of a class tells its parts and whether it is inverted. -/
theorem text_inj : k.text = k'.text ↔ k.parts = k'.parts ∧ k.inverted = k'.inverted := by
  rw [← String.toList_inj, toList_text, toList_text, List.cons.injEq, eq_self_iff_true, true_and,
    List.append_cancel_right_eq, ← tokens_inj]
  exact Quoted.flatMap_inj_of_read rfl ClassPart.Token.read_code

end CharClass

/-! ## Expectations -/

namespace Expectation

/-- The description is free text. -/
def IsNamed : Expectation → Prop
  | named _ => True
  | _ => False

/-- Two expectations say the same, but one of them may ignore case where the other does not. -/
inductive SameButCase : Expectation → Expectation → Prop
  | literal (text : String) (blind blind' : Bool) : SameButCase (.literal text blind) (.literal text blind')
  | charClass (parts : List ClassPart) (inverted blind blind' : Bool) :
      SameButCase (.charClass ⟨parts, inverted, blind⟩) (.charClass ⟨parts, inverted, blind'⟩)
  | any : SameButCase .any .any
  | endOfInput : SameButCase .endOfInput .endOfInput

/-- The character that a description begins with, if it has one. -/
def mark : Expectation → Option Char
  | literal _ _ => some '"'
  | charClass _ => some '['
  | any => some 'a'
  | endOfInput => some 'e'
  | named description => description.toList.head?

theorem head?_text (e : Expectation) : e.text.toList.head? = e.mark := by
  cases e with
  | literal s _ => exact congrArg List.head? (Quoted.toList_visibleString s)
  | charClass k => exact congrArg List.head? k.toList_text
  | any | endOfInput | named => rfl

theorem SameButCase.text_eq {a b : Expectation} (h : a.SameButCase b) : a.text = b.text := by
  cases h with
  | charClass => exact CharClass.text_inj.2 ⟨rfl, rfl⟩
  | literal | any | endOfInput => rfl

/-- Descriptions lose nothing but whether case is ignored. -/
theorem text_eq_iff {a b : Expectation} (ha : ¬ a.IsNamed) (hb : ¬ b.IsNamed) : a.text = b.text ↔ a.SameButCase b := by
  constructor
  · intro h
    -- the first character tells which of the four it is
    have marks : a.mark = b.mark := by rw [← head?_text, ← head?_text, h]
    cases a <;> cases b <;> try first
      | exact absurd trivial ha
      | exact absurd trivial hb
      | exact absurd (Option.some.inj marks) (by decide)
    case literal.literal s blind s' blind' =>
      rw [Quoted.visibleString_inj.1 h]
      exact .literal s' blind blind'
    case charClass.charClass k k' =>
      obtain ⟨parts, inverted, blind⟩ := k
      obtain ⟨parts', inverted', blind'⟩ := k'
      obtain ⟨rfl, rfl⟩ := CharClass.text_inj.1 h
      exact .charClass parts inverted blind blind'
    case any.any => exact .any
    case endOfInput.endOfInput => exact .endOfInput
  · exact SameButCase.text_eq

end Expectation

/-! ## Errors -/

namespace ParseError

variable {l l' : List Expectation} {found : Option String} {location location' : Location}

theorem mem_expected_iff {x : Expectation} : x ∈ (ofExpected l found location).expected ↔
    ∃ before after, l = before ++ x :: after ∧ ∀ y ∈ before, y.text ≠ x.text := by
  have listed : x ∈ (arrange l).map Prod.snd ↔ l.find? (fun e => e.text = x.text) = some x := by
    rw [List.mem_map]
    constructor
    · rintro ⟨y, hy, rfl⟩
      rw [text_of_mem_arrange hy]
      exact mem_arrange_iff.1 hy
    · intro h
      exact ⟨(x.text, x), mem_arrange_iff.2 h, rfl⟩
  show x ∈ (arrange l).map Prod.snd ↔ _
  rw [listed, List.find?_eq_some_iff_append]
  simp

/-- The descriptions that an error lists are those of all expectations. -/
theorem mem_descriptions_iff {t : String} : t ∈ (arrange l).map Prod.fst ↔ t ∈ l.map Expectation.text := by
  rw [List.mem_map, List.mem_map]
  constructor
  · rintro ⟨x, hx, rfl⟩
    exact ⟨x.2, List.mem_of_find?_eq_some (mem_arrange_iff.1 hx), text_of_mem_arrange hx⟩
  · rintro ⟨e, he, rfl⟩
    obtain ⟨x, hx⟩ := Option.isSome_iff_exists.1 (List.find?_isSome (p := fun e' => e'.text = e.text).2 ⟨e, he, by simp⟩)
    exact ⟨(e.text, x), mem_arrange_iff.2 hx, rfl⟩

theorem descriptions_congr (h : ∀ t, t ∈ l.map Expectation.text ↔ t ∈ l'.map Expectation.text) :
    (arrange l).map Prod.fst = (arrange l').map Prod.fst := by
  have increasing : ∀ l, ((arrange l).map Prod.fst).Pairwise (· < ·) := fun l =>
    List.pairwise_map.2 (pairwise_arrange l)
  have nodup : ∀ l, ((arrange l).map Prod.fst).Nodup := fun l => (increasing l).imp fun h => h.ne
  have perm := (List.perm_ext_iff_of_nodup (nodup l) (nodup l')).2 fun t => by
    rw [mem_descriptions_iff, mem_descriptions_iff, h]
  exact perm.eq_of_pairwise (fun a b _ _ hab hba => absurd (hab.trans hba) (lt_irrefl _)) (increasing l) (increasing l')

/-- What an error lists of the expectations that were recorded. -/
structure Lists (err : ParseError) (l : List Expectation) : Prop where
  increasing : err.expected.Pairwise fun a b => a.text < b.text
  /-- Those are listed that no other with their description comes before. -/
  first : ∀ x, x ∈ err.expected ↔ ∃ before after, l = before ++ x :: after ∧ ∀ y ∈ before, y.text ≠ x.text
  each : ∀ e ∈ l, ∃! x, x ∈ err.expected ∧ x.text = e.text
  /-- Unless free text looks like one of them, of expectations that are the same but for their case the first is listed,
  and no other. -/
  groups : (∀ a ∈ l, a.IsNamed → ∀ b ∈ l, ¬ b.IsNamed → a.text ≠ b.text) → ∀ e ∈ l, ¬ e.IsNamed →
    ∃ before x after, l = before ++ x :: after ∧ x.SameButCase e ∧ (∀ y ∈ before, ¬ y.SameButCase e) ∧
      ∀ x', x' ∈ err.expected ∧ x'.SameButCase e ↔ x' = x

theorem lists (l : List Expectation) (found : Option String) (location : Location) :
    (ofExpected l found location).Lists l := by
  have increasing : (ofExpected l found location).expected.Pairwise fun a b => a.text < b.text := by
    refine List.pairwise_map.2 ((pairwise_arrange l).imp_of_mem fun ha hb h => ?_)
    rwa [text_of_mem_arrange ha, text_of_mem_arrange hb]
  have unique : ∀ x ∈ (ofExpected l found location).expected, ∀ x' ∈ (ofExpected l found location).expected,
      x'.text = x.text → x' = x := by
    intro x hx x' hx' htext
    have nodup : ((ofExpected l found location).expected.map Expectation.text).Nodup :=
      List.pairwise_map.2 (increasing.imp fun h => h.ne)
    exact List.inj_on_of_nodup_map nodup hx' hx htext
  have each : ∀ e ∈ l, ∃ x, x ∈ (ofExpected l found location).expected ∧ x.text = e.text := by
    intro e he
    obtain ⟨x, hx, htext⟩ := List.mem_map.1 (mem_descriptions_iff.2 (List.mem_map_of_mem he))
    exact ⟨x.2, List.mem_map_of_mem hx, (text_of_mem_arrange hx).trans htext⟩
  refine ⟨increasing, fun x => mem_expected_iff, fun e he => ?_, fun hnamed e he hplain => ?_⟩
  · obtain ⟨x, hx, htext⟩ := each e he
    exact ⟨x, ⟨hx, htext⟩, fun x' hx' => unique x hx x' hx'.1 (hx'.2.trans htext.symm)⟩
  · obtain ⟨x, hx, htext⟩ := each e he
    obtain ⟨before, after, hl, hbefore⟩ := mem_expected_iff.1 hx
    have plain : ¬ x.IsNamed := fun h => hnamed x (by rw [hl]; simp) h e he hplain htext
    have same : x.SameButCase e := (Expectation.text_eq_iff plain hplain).1 htext
    refine ⟨before, x, after, hl, same, fun y hy h => hbefore y hy (h.text_eq.trans htext.symm), fun x' => ?_⟩
    constructor
    · rintro ⟨hx', hsame⟩
      exact unique x hx x' hx' (hsame.text_eq.trans htext.symm)
    · rintro rfl
      exact ⟨hx, same⟩

theorem message_congr (h : ∀ t, t ∈ l.map Expectation.text ↔ t ∈ l'.map Expectation.text) :
    (ofExpected l found location).message = (ofExpected l' found location').message :=
  congrArg (fun descriptions => s!"Expected {phrase descriptions} but {foundText found} found.") (descriptions_congr h)

/-- Two expectations that are not free text have one description just where they are the same but for their case. So an
error lists the first of each such group, in the order of the descriptions, and its message depends on nothing but which
descriptions there are and what was found. -/
theorem descriptions_lose_only_case :
    (∀ a b : Expectation, ¬ a.IsNamed → ¬ b.IsNamed → (a.text = b.text ↔ a.SameButCase b)) ∧
      (∀ l found location, (ofExpected l found location).Lists l) ∧
      ∀ l l' found location location', (∀ t, t ∈ l.map Expectation.text ↔ t ∈ l'.map Expectation.text) →
        (ofExpected l found location).message = (ofExpected l' found location').message :=
  ⟨fun _ _ => Expectation.text_eq_iff, lists, fun _ _ _ _ _ => message_congr⟩

/-- A literal that ignores case stands for one that does not, and neither order nor repetitions change the message. -/
theorem descriptions_lose_only_case_b :
    (Expectation.literal "b" true).text = (Expectation.literal "b" false).text ∧
      Expectation.literal "b" true ∈
        (ofExpected [.literal "b" true, .any, .literal "b" false] none ⟨none, .first, .first⟩).expected ∧
      (ofExpected [.literal "b" true, .any, .literal "b" false] none ⟨none, .first, .first⟩).message =
        (ofExpected [.any, .literal "b" false] none ⟨none, .first, .first⟩).message := by
  obtain ⟨tells, lists, message⟩ := descriptions_lose_only_case
  have same := (tells (.literal "b" true) (.literal "b" false) id id).2 (.literal "b" true false)
  refine ⟨same, ((lists _ none _).first _).2 ⟨[], _, rfl, nofun⟩, message _ _ none _ _ fun t => ?_⟩
  simp [same, or_comm, or_left_comm]

end ParseError

end PegCompiler
