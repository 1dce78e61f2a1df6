/-
Literals in any case. The text of one is put in lower case as a whole when it is compiled, the input character by
character when it is read; so the code of the literal takes the beginning of what is left whose characters have the
form of that text, and there is at most one. Both ways agree but for a capital sigma at the end of a word: a literal
matches its own text, and every text that is got from it by putting characters in lower case, just where no word of it
ends in one.
-/
import PegCompiler.Proofs.CompiledCode
import PegCompiler.Proofs.Parsers
import PegCompiler.Proofs.Text.Lowercase

namespace PegCompiler

open Machine

/-! ## Reading what spells a text -/

namespace ParseState

variable {st : ParseState} {lowered : String} {w : List Char}

theorem icMatch?_eq_some_iff :
    st.icMatch? lowered = some w ↔ w <+: st.rest ∧ Case.lowerEach w = lowered.toList := icStart?_eq_some_iff

theorem matchStringIc_of_icMatch? (h : st.icMatch? lowered = some w) : st.matchStringIc lowered = true := by
  unfold matchStringIc
  rw [h]
  rfl

theorem acceptStringIc_of_icMatch? (h : st.icMatch? lowered = some w) : st.acceptStringIc lowered =
    (.str (String.ofList w), { st with pos := st.pos + Input.byteLength w }) := by
  unfold acceptStringIc
  rw [h]
  rfl

theorem not_matchStringIc (h : ∀ w, w <+: st.rest → ¬ Case.lowerEach w = lowered.toList) :
    ¬ st.matchStringIc lowered = true := by
  unfold matchStringIc
  rw [Option.isSome_iff_exists]
  rintro ⟨w, found⟩
  obtain ⟨hbegins, hspells⟩ := icMatch?_eq_some_iff.1 found
  exact h w hbegins hspells

end ParseState

namespace Machine

/-- What runs do that read a literal in any case, where `spells` tells which characters spell it. -/
structure ReadsSpelling (literal : String) (spells : List Char → Prop)
    (runs : ParseState → Value → ParseState → Prop) : Prop where
  succeeds : ∀ st : ParseState, (∃ v st', runs st v st' ∧ v.isFailed = false) ↔ ∃ w, w <+: st.rest ∧ spells w
  takes : ∀ (st : ParseState) w, w <+: st.rest → spells w → ∀ v st', runs st v st' ↔
    v = .str (String.ofList w) ∧ st' = { st with pos := st.pos + Input.byteLength w }
  unique : ∀ text w w', w <+: text → w' <+: text → spells w → spells w' → w = w'
  fails : ∀ st : ParseState, (∀ w, w <+: st.rest → ¬ spells w) → ∀ v st', runs st v st' ↔
    v = .failed ∧ st' = st.fail (.literal literal true)

/-- Runs that take what is found, if anything is, read what spells the text. -/
theorem ReadsSpelling.of_icMatch? {literal lowered : String} {runs : ParseState → Value → ParseState → Prop}
    (h : ∀ st v st', runs st v st' ↔
      if st.matchStringIc lowered then st.acceptStringIc lowered = (v, st')
      else (Value.failed, st.fail (.literal literal true)) = (v, st')) :
    ReadsSpelling literal (fun w => Case.lowerEach w = lowered.toList) runs := by
  have takes : ∀ (st : ParseState) w, w <+: st.rest → Case.lowerEach w = lowered.toList → ∀ v st', runs st v st' ↔
      v = .str (String.ofList w) ∧ st' = { st with pos := st.pos + Input.byteLength w } := by
    intro st w hw hspells v st'
    have found := ParseState.icMatch?_eq_some_iff.2 ⟨hw, hspells⟩
    rw [h, if_pos (ParseState.matchStringIc_of_icMatch? found), ParseState.acceptStringIc_of_icMatch? found, Prod.mk.injEq,
      eq_comm, @eq_comm _ _ st']
  have fails : ∀ st : ParseState, (∀ w, w <+: st.rest → ¬ Case.lowerEach w = lowered.toList) → ∀ v st', runs st v st' ↔
      v = .failed ∧ st' = st.fail (.literal literal true) := by
    intro st hnone v st'
    rw [h, if_neg (ParseState.not_matchStringIc hnone), Prod.mk.injEq, eq_comm, @eq_comm _ _ st']
  refine { takes, fails, succeeds := fun st => ?_, unique := fun text w w' hw hw' hspells hspells' => ?_ }
  · constructor
    · rintro ⟨v, st', hrun, hv⟩
      by_contra hnone
      have missed := (fails st (fun w hw hspells => hnone ⟨w, hw, hspells⟩) v st').1 hrun
      rw [missed.1] at hv
      cases hv
    · rintro ⟨w, hw, hspells⟩
      exact ⟨_, _, (takes st w hw hspells _ _).2 ⟨rfl, rfl⟩, rfl⟩
  · -- one search finds both
    have first := ParseState.icStart?_eq_some_iff.2 ⟨hw, hspells⟩
    rw [ParseState.icStart?_eq_some_iff.2 ⟨hw', hspells'⟩] at first
    exact (Option.some.inj first).symm

end Machine

/-! ## Literals of compiled grammars -/

namespace Compilation

variable {c : Compilation} {bs : Bindings}

/-- A literal that is not empty is compiled to a test, whatever is known about other expressions. -/
theorem matched_literal (hc : Analysis.Matching.Complete c.grammar c.found) {r : RuleId} {rule : Rule}
    (hr : c.grammar.live? r = some rule) {i : Expr.Info} {v : String} {ignoreCase : Bool}
    (he : .literal i v ignoreCase ∈ rule.body.preorder) (hv : v ≠ "") :
    c.found.ofExpr (.literal i v ignoreCase) = .sometimes := by
  obtain ⟨ρ, -, hjudged, -⟩ := settled hc hr
  rw [hjudged _ he]
  exact if_neg hv

theorem Coded.reads_literal (h : c.Coded) (hc : Analysis.Matching.Complete c.grammar c.found) {r : RuleId} {rule : Rule}
    (hr : c.grammar.live? r = some rule) {i : Expr.Info} {v : String} (he : .literal i v true ∈ rule.body.preorder)
    (hv : v ≠ "") {env : Env} {ls : Labels} {stack : Stack} {code : Code Raw} {k : Constants}
    (hcode : c.exprCode (.literal i v true) env stack.length = .ok (code, k)) (henv : env.Holds ls stack) :
    ReadsSpelling v (fun w => Case.lowerEach w = (Case.lower v).toList)
      (Finishes (c.programWith bs k) code stack) := by
  refine ReadsSpelling.of_icMatch? fun st v' st' => ?_
  have sometimes : (c.setting bs).matched (.literal i v true) = .sometimes := matched_literal hc hr he hv
  rw [h.finishes_iff hcode henv]
  simp only [Setting.meaning, if_neg hv, if_true, sometimes]
  show (∃ cs, (if st.matchStringIc (Case.lower v) = true then Act.change (·.acceptStringIc (Case.lower v))
    else Act.failing (.literal v true)) st cs v' st') ↔ _
  by_cases hmatch : st.matchStringIc (Case.lower v) = true
  · rw [if_pos hmatch, if_pos hmatch]
    exact ⟨fun ⟨cs, _, hx⟩ => hx, fun hx => ⟨[], rfl, hx⟩⟩
  · rw [if_neg hmatch, if_neg hmatch]
    exact ⟨fun ⟨cs, _, hx⟩ => hx, fun hx => ⟨[], rfl, hx⟩⟩

end Compilation

/-! ## Texts that are their own spelling -/

namespace Case

theorem length_lowerFrom (before cs : List Char) : (lowerFrom before cs).length = (lowerEach cs).length := by
  have sigma : lowerChar 'Σ' = ['σ'] := by decide +kernel
  induction cs generalizing before with
  | nil => rfl
  | cons c cs ih =>
    rw [lowerFrom, lowerEach_cons, List.length_append, List.length_append, ih]
    by_cases hc : c = 'Σ'
    · subst hc
      rw [if_pos rfl, sigma]
      split <;> rfl
    · rw [if_neg hc]

/-- A text begins with a spelling of itself just where no capital sigma ends a word of it. -/
theorem exists_spelling_iff (s : String) :
    (∃ w, w <+: s.toList ∧ lowerEach w = (lower s).toList) ↔ NoFinalSigma s.toList := by
  rw [← lower_eq_iff]
  constructor
  · rintro ⟨w, ⟨rest, hrest⟩, hw⟩
    -- nothing is left: both forms have as many characters
    have length : (lower s).toList.length = (lowerEach s.toList).length := by
      unfold lower
      rw [String.toList_ofList, length_lowerFrom]
    rw [← hw, ← hrest, lowerEach_append, List.length_append] at length
    have none : lowerEach rest = [] := List.length_eq_zero_iff.1 (by omega)
    rw [← hw, ← hrest, lowerEach_append, none, List.append_nil]
  · intro h
    exact ⟨s.toList, List.prefix_rfl, h.symm⟩

end Case

/-! ## From drafts -/

/-- What the code of a literal in any case does. -/
structure Machine.MatchesInAnyCase (literal : String) (runs : ParseState → Value → ParseState → Prop) : Prop where
  /-- It reads the spellings of the form of the literal. -/
  reads : ReadsSpelling literal (fun w => Case.lowerEach w = (Case.lower literal).toList) runs
  /-- These are the spellings of the literal, character by character, if no capital sigma of it ends a word. -/
  spellings : Case.NoFinalSigma literal.toList →
    ReadsSpelling literal (fun w => Case.lowerEach w = Case.lowerEach literal.toList) runs
  /-- So it takes the literal with whichever characters in lower case. -/
  lowered : Case.NoFinalSigma literal.toList → ∀ (st : ParseState) w, Case.LowersSome literal.toList w → w <+: st.rest →
    runs st (.str (String.ofList w)) { st with pos := st.pos + Input.byteLength w }
  /-- Only then does it take the literal itself, wherever that is all that is left. -/
  itself : Case.NoFinalSigma literal.toList ↔
    ∀ st : ParseState, st.rest = literal.toList → ∃ v st', runs st v st' ∧ v.isFailed = false

theorem Machine.ReadsSpelling.matchesInAnyCase {literal : String} {runs : ParseState → Value → ParseState → Prop}
    (h : ReadsSpelling literal (fun w => Case.lowerEach w = (Case.lower literal).toList) runs) :
    MatchesInAnyCase literal runs := by
  have spellings : Case.NoFinalSigma literal.toList →
      ReadsSpelling literal (fun w => Case.lowerEach w = Case.lowerEach literal.toList) runs := by
    intro hsigma
    rw [← (Case.lower_eq_iff literal).2 hsigma]
    exact h
  refine { reads := h, spellings, lowered := fun hsigma st w hw hbegins => ?_, itself := ⟨fun hsigma st hst => ?_, fun hall => ?_⟩ }
  · exact ((spellings hsigma).takes st w hbegins hw.lowerEach_eq _ _).2 ⟨rfl, rfl⟩
  · refine (h.succeeds st).2 ?_
    rw [hst]
    exact (Case.exists_spelling_iff literal).2 hsigma
  · have whole : literal.toList = [] ++ literal.toList := rfl
    have here : (ParseState.start literal none false).rest = literal.toList := Input.rest_of_append whole
    have := (h.succeeds _).1 (hall _ here)
    rw [here] at this
    exact (Case.exists_spelling_iff literal).1 this

/-- Literals in any case match their spellings in every run of the compiled code of a grammar whose references stand
for rules, and return what they take of the text as it is written there. -/
theorem any_case_literals_match {d : Draft} {g : Grammar} (hd : d.build? = .ok g)
    (hrefs : Analysis.undefinedRules g = []) (o : CompileOptions) (before : List Pass)
    (hbefore : ∀ p ∈ before, p ≠ .matching ∧ p ≠ .bytecode ∧ p ≠ .source) :
    ∃ s, (before ++ [Pass.matching]).forM Pass.run ⟨.start g o, []⟩ = .ok ⟨⟩ s ∧
      ∀ s', Pass.bytecode.run s = .ok ⟨⟩ s' → ∀ r rule i v, s'.compilation.grammar.live? r = some rule →
        .literal i v true ∈ rule.body.preorder → v ≠ "" → ∀ bs env ls stack code k,
        s'.compilation.exprCode (.literal i v true) env stack.length = .ok (code, k) → env.Holds ls stack →
        MatchesInAnyCase v (Finishes (s'.compilation.programWith bs k) code stack) := by
  obtain ⟨s, hs, made⟩ := (Draft.built hd).compiled_after_matching hrefs o before hbefore
  refine ⟨s, hs, fun s' hs' r rule i v hr he hv bs env ls stack code k hcode henv => ?_⟩
  have done := made s' hs'
  exact (done.coded.reads_literal done.complete hr he hv hcode henv).matchesInAnyCase

open Draft.Expr in
/-- `Start = "İx"i`, whose first character has two for its form. -/
def dotted : Draft := ⟨none, none, [.of "Start" (inAnyCase "İx") none]⟩

theorem any_case_literals_match_dotted : ∃ g s s' code k, dotted.build? = .ok g ∧
    ([Pass.startRules, .proxies] ++ [Pass.matching]).forM Pass.run ⟨.start g .default, []⟩ = .ok ⟨⟩ s ∧
    Pass.bytecode.run s = .ok ⟨⟩ s' ∧
    s'.compilation.exprCode (.literal ⟨0, .empty⟩ "İx" true) [] 0 = .ok (code, k) ∧
    MatchesInAnyCase "İx" (Finishes (s'.compilation.programWith [] k) code []) := by
  obtain ⟨g, hg⟩ : ∃ g, dotted.build? = .ok g := ⟨_, rfl⟩
  have hrefs : Analysis.undefinedRules g = [] := by cases hg; rfl
  obtain ⟨s, hs, reads⟩ := any_case_literals_match hg hrefs .default [.startRules, .proxies] (by decide)
  obtain ⟨s', rule, code, k, hs', hr, hbody, hcode⟩ : ∃ s' rule code k, Pass.bytecode.run s = .ok ⟨⟩ s' ∧
      s'.compilation.grammar.live? 0 = some rule ∧ rule.body = .literal ⟨0, .empty⟩ "İx" true ∧
      s'.compilation.exprCode (.literal ⟨0, .empty⟩ "İx" true) [] 0 = .ok (code, k) := by
    cases hg
    cases hs
    exact ⟨_, _, _, _, rfl, rfl, rfl, rfl⟩
  have inside : .literal ⟨0, .empty⟩ "İx" true ∈ rule.body.preorder := by
    rw [hbody]
    exact Expr.mem_preorder_self _
  exact ⟨g, s, s', code, k, hg, hs, hs', hcode, reads s' hs' 0 rule _ "İx" hr inside (by decide) [] [] [] [] code k hcode .nil⟩

open Draft.Expr in
/-- `Start = "ΑΣ"i`. -/
def endsInSigma : Draft := ⟨none, none, [.of "Start" (inAnyCase "ΑΣ") none]⟩

/-- A capital sigma at the end of a word is compiled to a small one that no character of the input is put in lower
case to: the literal fails on its own text. -/
theorem own_text_missed : ∃ g p, endsInSigma.build? = .ok g ∧
    Parser.compiled Stage.transform.passes g .default = .ok p ∧
    ((p.runWithin 10 "ΑΣ" default).1.toOption.map Value.isFailed) = some true ∧
    ∃ w, w <+: (ParseState.start "ΑΣ" none false).rest ∧ Case.lowerEach w = Case.lowerEach "ΑΣ".toList := by
  obtain ⟨g, hg⟩ : ∃ g, endsInSigma.build? = .ok g := ⟨_, rfl⟩
  have compiled : (Parser.compiled Stage.transform.passes g .default).map (fun p =>
      (p.runWithin 10 "ΑΣ" default).1.toOption.map Value.isFailed) = .ok (some true) := by
    cases hg
    decide +kernel
  cases hp : Parser.compiled Stage.transform.passes g .default with
  | error why => rw [hp] at compiled; cases compiled
  | ok p =>
    rw [hp] at compiled
    refine ⟨g, p, hg, hp, Except.ok.inj compiled, "ΑΣ".toList, ?_, rfl⟩
    exact List.prefix_rfl

end PegCompiler
