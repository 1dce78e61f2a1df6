/-
The sample of sums reads sums. What each of its rules reads at a position is told by the characters that are left there;
then the whole of a text is read just where it is a sum as it is written, and its value is the sum. Every alternative that
is given up and every number that is tried for in vain only shows that there is no other way to write the text as a sum.
-/
import PegCompiler.Proofs.Samples
import PegCompiler.Proofs.Semantics.Reading
import PegCompiler.Proofs.Text.CasePairs
import PegCompiler.Proofs.Text.Sums

namespace PegCompiler

open Semantics

namespace Sums

/-! ## The grammar -/

/-- A number of an expression that was written nowhere. -/
def numbered (id : ExprId) : Expr.Info := ⟨id, .empty⟩

def blanks : Expr := .zeroOrMore (numbered 24) (.literal (numbered 23) " " false)

def digits : CharClass := ⟨[.range '0' '9'], false, false⟩

def number : Expr :=
  .action (numbered 22) (.oneOrMore (numbered 21) (.charClass (numbered 20) digits)) ⟨"number", .empty⟩

def addend : Expr :=
  .sequence (numbered 15) [.ruleRef (numbered 10) "_" (some 3), .literal (numbered 11) "+" false,
    .ruleRef (numbered 12) "_" (some 3), .labeled (numbered 14) none true (.ruleRef (numbered 13) "Num" (some 2))]

def sum : Expr :=
  .action (numbered 19)
    (.sequence (numbered 18) [
      .labeled (numbered 9) (some ⟨"head", .empty⟩) false (.ruleRef (numbered 8) "Num" (some 2)),
      .labeled (numbered 17) (some ⟨"tail", .empty⟩) false (.zeroOrMore (numbered 16) addend)])
    ⟨"total", .empty⟩

def negative : Expr :=
  .action (numbered 5)
    (.sequence (numbered 4) [.literal (numbered 0) "neg" true, .ruleRef (numbered 1) "_" (some 3),
      .labeled (numbered 3) (some ⟨"v", .empty⟩) false (.ruleRef (numbered 2) "Sum" (some 1))])
    ⟨"negated", .empty⟩

def signed : Expr := .choice (numbered 7) negative [.ruleRef (numbered 6) "Sum" (some 1)]

/-- The grammar of the sample. -/
def grammar : Grammar :=
  ⟨none, none, [⟨"Start", .empty, none, signed, .empty⟩, ⟨"Sum", .empty, none, sum, .empty⟩,
    ⟨"Num", .empty, some "number", number, .empty⟩, ⟨"_", .empty, none, blanks, .empty⟩], []⟩

theorem build?_eq : Sample.sum.draft.build? = .ok grammar := rfl

def world (text : String) : World := ⟨grammar, Sample.sum.bound, text, none⟩

variable {text : String} {pos : Nat} {cs ds rest : List Char} {ls : Labels} {i : Expr.Info}

theorem answer_number {saved : Nat} : (world text).answer? ⟨"number", .empty⟩ ls saved pos =
    some (Sample.numberOf ((world text).view saved pos)) := rfl

theorem answer_total {saved : Nat} {head tail : Value} :
    (world text).answer? ⟨"total", .empty⟩ [("head", head), ("tail", tail)] saved pos =
      some (Sample.totalOf head tail) := rfl

theorem answer_negated {saved : Nat} {v : Value} :
    (world text).answer? ⟨"negated", .empty⟩ [("v", v)] saved pos = some (Sample.negated v) := rfl

theorem digits_has : digits.has = Char.isDigit := by
  funext c
  have listed : digits.has c = (decide ('0' ≤ c) && decide (c ≤ '9')) := by
    simp [digits, CharClass.has, CharClass.covered, CharClass.listed, ClassPart.has]
  rw [listed]
  rfl

/-! ## Values -/

/-- The text of a run of digits is read as its value. -/
theorem numberOf_eq (hds : IsNumber ds) (h : (world text).Leaves pos (ds ++ rest)) :
    Sample.numberOf ((world text).view pos (pos + Input.byteLength ds)) = .int (value ds) := by
  have read : ((world text).view pos (pos + Input.byteLength ds)).text = String.ofList ds := h.slice_eq
  unfold Sample.numberOf
  rw [read, hds.int?_eq]

theorem totalOf_eq (ds : List Char) (numbers : List (List Char)) :
    Sample.totalOf (.int (value ds)) (.array (numbers.map fun ds => .int (value ds))) =
      .int (Value.wrapInt (total (ds :: numbers))) := by
  have added (n : Int) : (numbers.map fun ds => (value ds : Int)).foldl (· + ·) n = n + total numbers := by
    induction numbers generalizing n with
    | nil => exact (Int.add_zero n).symm
    | cons ds numbers ih =>
      rw [List.map_cons, List.foldl_cons, ih]
      simp only [total]
      omega
  have ints : Sample.intsOf (.array (numbers.map fun ds => .int (value ds))) =
      numbers.map fun ds => (value ds : Int) := by
    show (numbers.map fun ds => Value.int (value ds)).filterMap Value.int? = _
    rw [List.filterMap_map]
    exact congrFun List.filterMap_eq_map' numbers
  unfold Sample.totalOf
  rw [ints, added]
  rfl

/-! ## What the rules read -/

theorem reads_blanks (h : (world text).Leaves pos cs) : ∃ v stop,
    (world text).Reads ls pos (.ruleRef i "_" (some 3)) (.found v stop) ∧ (world text).Leaves stop (skip cs) :=
  ⟨_, _, .ruleRef rfl (.zeroOrMore ((takesOne_literal rfl).readsItems h)), h.run (· == ' ')⟩

theorem reads_number (h : (world text).Leaves pos cs) :
    (∃ ds rest stop, number? cs = some (ds, rest) ∧ (world text).Leaves stop rest ∧
      (world text).Reads ls pos (.ruleRef i "Num" (some 2)) (.found (.int (value ds)) stop)) ∨
    number? cs = none ∧ (world text).Reads ls pos (.ruleRef i "Num" (some 2)) .failed := by
  have items : (world text).ReadsItems [] pos (.charClass (numbered 20) digits) 0 _ _ := takesOne_charClass.readsItems h
  rw [digits_has] at items
  cases hcs : number? cs with
  | some p =>
    obtain ⟨ds, rest⟩ := p
    obtain ⟨rfl, hds, next⟩ := number?_eq_some_iff.1 hcs
    rw [takeWhile_run hds.digits next] at items
    refine .inl ⟨ds, rest, _, rfl, h.add ds, .ruleRef rfl (.action (fun j es => nofun) (.oneOrMore items ?_) ?_)⟩
    · exact mt List.map_eq_nil_iff.1 hds.nonempty
    · rw [answer_number, numberOf_eq hds h]
  | none =>
    have empty : cs.takeWhile Char.isDigit = [] := by
      unfold number? at hcs
      split at hcs
      · assumption
      · cases hcs
    rw [empty] at items
    exact .inr ⟨rfl, .ruleRef rfl (.actionFails (fun j es => nofun) (.oneOrMoreFails items))⟩

theorem reads_addend (h : (world text).Leaves pos cs) :
    (∃ ds rest stop, addend? cs = some (ds, rest) ∧ (world text).Leaves stop rest ∧
      (world text).Reads ls pos addend (.found (.int (value ds)) stop)) ∨
    addend? cs = none ∧ (world text).Reads ls pos addend .failed := by
  obtain ⟨u, after, hblanks, hafter⟩ := reads_blanks h
  have plus : TakesOne (.literal (numbered 11) "+" false) (· == '+') := takesOne_literal rfl
  by_cases hplus : (skip cs).head? = some '+'
  · obtain ⟨cs', hskip⟩ := List.head?_eq_some_iff.1 hplus
    rw [hskip] at hafter
    rw [addend?_of_plus hskip]
    have hread : (world text).Reads ls after _ _ := plus.reads hafter rfl
    obtain ⟨u', after', hblanks', hafter'⟩ := reads_blanks (hafter.add ['+'])
    rcases reads_number hafter' with ⟨ds, rest, stop, hnumber, hrest, hreads⟩ | ⟨hnumber, hfails⟩
    · exact .inl ⟨ds, rest, stop, hnumber, hrest,
        .sequence (.cons hblanks (.cons hread (.cons hblanks' (.cons (.labeled hreads) .nil))))⟩
    · exact .inr ⟨hnumber, .sequenceFails (.later hblanks (.later hread (.later hblanks' (.here (.labeled hfails)))))⟩
  · have hfails : (world text).Reads ls after _ _ :=
      plus.fails hafter fun c hc => beq_false_of_ne fun h => hplus (h ▸ hc)
    exact .inr ⟨addend?_of_no_plus hplus, .sequenceFails (.later hblanks (.here hfails))⟩

/-- The repetition takes numbers for as long as some are added. -/
theorem reads_addends {n : Nat} (h : (world text).Leaves pos cs) : ∃ numbers rest stop, (world text).Leaves stop rest ∧
    (world text).ReadsItems ls pos addend n (numbers.map fun ds => .int (value ds)) stop ∧
    ∀ numbers', Adds cs numbers' ↔ rest = [] ∧ numbers' = numbers := by
  induction hlength : cs.length using Nat.strong_induction_on generalizing cs pos n with
  | _ k ih =>
    rcases reads_addend h with ⟨ds, rest, stop, hadd, hrest, hreads⟩ | ⟨hadd, hfails⟩
    · obtain ⟨numbers, left, stop', hleft, hitems, hadds⟩ := ih _ (hlength ▸ length_of_addend? hadd) hrest rfl
      refine ⟨ds :: numbers, left, stop', hleft, .cons hreads hitems, fun numbers' => ?_⟩
      rw [adds_iff_of_some hadd]
      simp only [hadds]
      constructor
      · rintro ⟨_, rfl, rfl, rfl⟩
        exact ⟨rfl, rfl⟩
      · rintro ⟨rfl, rfl⟩
        exact ⟨_, rfl, rfl, rfl⟩
    · exact ⟨[], cs, pos, h, .nil hfails, fun _ => adds_iff_of_none hadd⟩

theorem decides_sum (h : (world text).Leaves pos cs) : (world text).Decides ls pos (.ruleRef i "Sum" (some 1)) (IsSum cs)
    fun numbers => .int (Value.wrapInt (total numbers)) := by
  rcases reads_number h with ⟨ds, rest, stop, hnumber, hrest, hreads⟩ | ⟨hnumber, hfails⟩
  · obtain ⟨numbers, left, stop', hleft, hitems, hadds⟩ := reads_addends hrest
    refine .found (ds :: numbers) hleft (.ruleRef rfl (.actionOnAll
      (.cons (.labeled hreads) (.cons (.labeled (.zeroOrMore hitems)) .nil)) rfl ?_)) fun numbers' => ?_
    · rw [← totalOf_eq]
      exact answer_total
    · rw [isSum_iff_of_some hnumber]
      simp only [hadds]
      constructor
      · rintro ⟨_, rfl, rfl, rfl⟩
        exact ⟨rfl, rfl⟩
      · rintro ⟨rfl, rfl⟩
        exact ⟨_, rfl, rfl, rfl⟩
  · exact .failed (.ruleRef rfl (.actionOnAllFails (.here (.labeled hfails)))) fun _ => not_isSum_of_none hnumber

/-- What the grammar makes of a sum. -/
def valueOf (x : Bool × List (List Char)) : Value :=
  if x.1 then Sample.negated (.int (Value.wrapInt (total x.2))) else .int (Value.wrapInt (total x.2))

/-- Where there is nothing to negate, the second alternative decides. -/
theorem decides_plain (h : (world text).Leaves pos cs) (hfails : (world text).Reads [] pos negative .failed)
    (hnone : ∀ numbers, ¬ IsSigned cs true numbers) :
    (world text).Decides [] pos signed (fun x => IsSigned cs x.1 x.2) valueOf := by
  cases decides_sum h with
  | found numbers left hreads hL =>
    refine .found (false, numbers) left (.others hfails (.alone hreads)) fun y => ?_
    obtain ⟨negated, numbers'⟩ := y
    cases negated with
    | true => simp [hnone]
    | false => simp [isSigned_false_iff, hL]
  | failed hsum hL =>
    refine .failed (.others hfails (.alone hsum)) fun y => ?_
    obtain ⟨negated, numbers'⟩ := y
    cases negated with
    | true => exact hnone _
    | false => exact mt isSigned_false_iff.1 (hL _)

theorem decides_signed (h : (world text).Leaves pos cs) :
    (world text).Decides [] pos signed (fun x => IsSigned cs x.1 x.2) valueOf := by
  have word : terminal? (.literal (numbered 0) "neg" true) = some (ParseState.icStart? ['n', 'e', 'g']) := rfl
  have letters {neg : List Char} : Case.lowerEach neg = ['n', 'e', 'g'] ↔ neg.map Char.toLower = ['n', 'e', 'g'] :=
    Case.lowerEach_eq_iff (by simp)
  cases hstart : ParseState.icStart? ['n', 'e', 'g'] cs with
  | none =>
    refine decides_plain h (.actionOnAllFails (.here (.rejected word h hstart))) fun numbers hsigned => ?_
    obtain ⟨neg, rest, rfl, hneg, -⟩ := isSigned_true_iff.1 hsigned
    cases (ParseState.icStart?_eq_some_iff.2 ⟨List.prefix_append neg rest, letters.2 hneg⟩).symm.trans hstart
  | some neg =>
    obtain ⟨⟨rest, rfl⟩, hneg⟩ := ParseState.icStart?_eq_some_iff.1 hstart
    have accepted : (world text).Reads [] pos _ _ := .accepted word h hstart
    obtain ⟨u, after, hblanks, hafter⟩ := reads_blanks (h.add neg)
    cases decides_sum hafter with
    | found numbers left hreads hL =>
      refine .found (true, numbers) left (.first (.actionOnAll
        (.cons accepted (.cons hblanks (.cons (.labeled hreads) .nil))) rfl answer_negated)) fun y => ?_
      obtain ⟨negated, numbers'⟩ := y
      cases negated with
      | true => simp [isSigned_append_iff (letters.1 hneg), hL]
      | false => simp [isSigned_false_iff, not_isSum_of_neg (letters.1 hneg)]
    | failed hsum hL =>
      refine decides_plain h (.actionOnAllFails (.later accepted (.later hblanks (.here (.labeled hsum))))) fun numbers => ?_
      rw [isSigned_append_iff (letters.1 hneg)]
      exact hL numbers

/-! ## Answers -/

theorem fit : Sample.sum.Fit grammar where
  build := build?_eq
  accepted := rfl
  full := by decide +kernel
  serve :=
    { neverFail := Bindings.neverFail_cons (fun _ _ => rfl) <| Bindings.neverFail_cons (fun _ _ => rfl) <|
        Bindings.neverFail_cons (fun _ _ => rfl) Bindings.neverFail_nil
      bound := fun code hcode => Option.isSome_iff_exists.1 <|
        (by decide : ∀ code ∈ grammar.codes, (Sample.sum.bound.find? code.val).isSome = true) code hcode
      ignoreSaved := fun _ hcode => absurd hcode List.not_mem_nil }
  start := rfl
  unbounded := by decide +kernel

/-- What fits into 64 bits does not wrap around. -/
theorem wrapInt_of_fits {n : Int} (h : -9223372036854775808 ≤ n) (h' : n ≤ 9223372036854775807) : Value.wrapInt n = n :=
  Int.bmod_eq_of_le (by omega) (by omega)

theorem valueOf_eq {negated : Bool} {numbers : List (List Char)} (h : total numbers ≤ 9223372036854775807) :
    valueOf (negated, numbers) = .int (signedTotal negated numbers) := by
  have plain : Value.wrapInt (total numbers) = total numbers := wrapInt_of_fits (by omega) (by omega)
  have negative : Value.wrapInt (-total numbers) = -total numbers := wrapInt_of_fits (by omega) (by omega)
  have answer : Sample.negated (.int (total numbers)) = .int (-total numbers) := congrArg Value.int negative
  unfold valueOf signedTotal
  cases negated with
  | false => simp only [Bool.false_eq_true, if_false, plain]
  | true => simp only [if_true, plain, answer]

/-- What the parsers of the sample compute, whether it fits or wraps around. -/
theorem computes (text : String) :
    Sample.sum.Computes text fun v => ∃ x : Bool × List (List Char), IsSigned text.toList x.1 x.2 ∧ v = valueOf x :=
  fit.computes rfl (decides_signed (World.Leaves.zero (world text)))

end Sums

/-! ## Pairs -/

namespace Pairs

def pair : Expr := .sequence ⟨2, .empty⟩ [.literal ⟨0, .empty⟩ "a" false, .literal ⟨1, .empty⟩ "b" false]

/-- The grammar of the sample. -/
def grammar : Grammar := ⟨none, none, [⟨"Start", .empty, none, pair, .empty⟩], []⟩

def world (text : String) : World := ⟨grammar, Sample.pair.bound, text, none⟩

theorem decides_pair {w : World} {pos : Nat} {cs : List Char} (h : w.Leaves pos cs) :
    w.Decides [] pos pair (fun _ : Unit => cs = ['a', 'b']) fun _ => .array [.str "a", .str "b"] := by
  have a : TakesOne (.literal ⟨0, .empty⟩ "a" false) (· == 'a') := takesOne_literal rfl
  have b : TakesOne (.literal ⟨1, .empty⟩ "b" false) (· == 'b') := takesOne_literal rfl
  have fails {c : Char} {rest : List Char} (h : rest.head? ≠ some c) : ∀ d, rest.head? = some d → (d == c) = false :=
    fun d hd => beq_false_of_ne fun same => h (same ▸ hd)
  by_cases ha : cs.head? = some 'a'
  · obtain ⟨rest, rfl⟩ := List.head?_eq_some_iff.1 ha
    have after := h.add ['a']
    by_cases hb : rest.head? = some 'b'
    · obtain ⟨rest', rfl⟩ := List.head?_eq_some_iff.1 hb
      exact .found () (after.add ['b']) (.sequence (.cons (a.reads h rfl) (.cons (b.reads after rfl) .nil))) (by simp)
    · refine .failed (.sequenceFails (.later (a.reads h rfl) (.here (b.fails after (fails hb))))) fun _ hcs => ?_
      cases hcs
      exact hb rfl
  · refine .failed (.sequenceFails (.here (a.fails h (fails ha)))) fun _ hcs => ?_
    cases hcs
    exact ha rfl

theorem fit : Sample.pair.Fit grammar where
  build := rfl
  accepted := rfl
  full := by decide +kernel
  serve := ⟨Bindings.neverFail_nil, fun _ hcode => absurd hcode List.not_mem_nil,
    fun _ hcode => absurd hcode List.not_mem_nil⟩
  start := rfl
  unbounded := by decide +kernel

theorem computes (text : String) : Sample.pair.Computes text fun v =>
    ∃ _ : Unit, text.toList = ['a', 'b'] ∧ v = .array [.str "a", .str "b"] :=
  fit.computes rfl (decides_pair (World.Leaves.zero (world text)))

end Pairs

/-! ## What the samples compute -/

open Sums

/-- The sample of sums computes them: where the total of a sum fits into 64 bits, all of its parsers answer with the total,
negated after `neg`, and to all other texts with one error. The one of pairs answers to `ab` alone. -/
theorem samples_compute :
    (∀ text : String, (∀ negated numbers, IsSigned text.toList negated numbers → total numbers ≤ 9223372036854775807) →
      Sample.sum.Computes text fun v =>
        ∃ negated numbers, IsSigned text.toList negated numbers ∧ v = .int (signedTotal negated numbers)) ∧
    ∀ text : String, Sample.pair.Computes text fun v => text = "ab" ∧ v = .array [.str "a", .str "b"] := by
  constructor
  · intro text fits
    refine (Sums.computes text).congr fun v => ⟨?_, ?_⟩
    · rintro ⟨⟨negated, numbers⟩, hsigned, rfl⟩
      exact ⟨negated, numbers, hsigned, valueOf_eq (fits negated numbers hsigned)⟩
    · rintro ⟨negated, numbers, hsigned, rfl⟩
      exact ⟨(negated, numbers), hsigned, (valueOf_eq (fits negated numbers hsigned)).symm⟩
  · intro text
    have chars : text.toList = "ab".toList ↔ text = "ab" := String.toList_inj
    refine (Pairs.computes text).congr fun v => ⟨?_, ?_⟩
    · rintro ⟨-, htext, hv⟩
      exact ⟨chars.1 htext, hv⟩
    · rintro ⟨htext, hv⟩
      exact ⟨⟨⟩, chars.2 htext, hv⟩

/-- A sum with blanks, negated by letters in either case. -/
theorem samples_compute_negated :
    (∀ negated numbers, IsSigned "NeG 4 + 1".toList negated numbers → total numbers ≤ 9223372036854775807) ∧
      Sample.sum.Computes "NeG 4 + 1" fun v => v = .int (-5) := by
  have plain (numbers : List (List Char)) : ¬ IsSigned "NeG 4 + 1".toList false numbers :=
    mt isSigned_false_iff.1 (not_isSum_of_none rfl)
  have numbers_eq (numbers : List (List Char)) : IsSigned "NeG 4 + 1".toList true numbers ↔ numbers = [['4'], ['1']] := by
    have word : IsSigned ("NeG".toList ++ " 4 + 1".toList) true numbers ↔ IsSum "4 + 1".toList numbers :=
      isSigned_append_iff rfl
    have first : IsSum "4 + 1".toList numbers ↔ ∃ more, numbers = ['4'] :: more ∧ Adds " + 1".toList more :=
      isSum_iff_of_some rfl
    have second (more : List (List Char)) : Adds " + 1".toList more ↔ ∃ others, more = ['1'] :: others ∧ Adds [] others :=
      adds_iff_of_some rfl
    have last (others : List (List Char)) : Adds [] others ↔ [] = [] ∧ others = [] := adds_iff_of_none rfl
    refine (word.trans first).trans ⟨?_, ?_⟩
    · rintro ⟨more, rfl, hmore⟩
      obtain ⟨others, rfl, hothers⟩ := (second more).1 hmore
      rw [((last others).1 hothers).2]
    · rintro rfl
      exact ⟨_, rfl, (second _).2 ⟨_, rfl, .nothing⟩⟩
  have total_eq : total [['4'], ['1']] = 5 := by decide
  have fits : ∀ negated numbers, IsSigned "NeG 4 + 1".toList negated numbers → total numbers ≤ 9223372036854775807 := by
    intro negated numbers h
    cases negated with
    | false => exact absurd h (plain numbers)
    | true => rw [(numbers_eq numbers).1 h, total_eq]; decide
  refine ⟨fits, (samples_compute.1 _ fits).congr fun v => ⟨?_, ?_⟩⟩
  · rintro ⟨negated, numbers, h, rfl⟩
    cases negated with
    | false => exact absurd h (plain numbers)
    | true => rw [(numbers_eq numbers).1 h]; rfl
  · rintro rfl
    exact ⟨true, _, (numbers_eq _).2 rfl, rfl⟩

end PegCompiler
