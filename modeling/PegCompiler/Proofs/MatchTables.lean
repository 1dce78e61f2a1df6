/-
The tables that the search for match results leaves behind. Each entry is what its parts give it, and a rule has
the result of its body. A reference has the result of the rule it stands for, unless that rule leads back to where
it is referred to: a rule that is reached while another one is being judged sees an estimate of that one, and is
not judged again when the estimate gets better. So the tables are a fixed point for grammars in which no two rules
lead to each other, and not for all.
-/
import PegCompiler.Proofs.MatchResults

namespace PegCompiler

open Analysis.Matching

/-! ## The rule for each kind of expression -/

namespace MatchResult

/-- One alternative has to match. -/
def ofAlternatives (rs : List MatchResult) : MatchResult :=
  if always ∈ rs then always else if ∀ r ∈ rs, r = never then never else sometimes

/-- All elements have to match. -/
def ofElements (rs : List MatchResult) : MatchResult :=
  if never ∈ rs then never else if ∀ r ∈ rs, r = always then always else sometimes

theorem or_ofAlternatives (a : MatchResult) (rs : List MatchResult) :
    a.or (ofAlternatives rs) = ofAlternatives (a :: rs) := by
  unfold ofAlternatives
  simp only [List.forall_mem_cons]
  cases a <;> grind [MatchResult.or]

theorem and_ofElements (a : MatchResult) (rs : List MatchResult) : a.and (ofElements rs) = ofElements (a :: rs) := by
  unfold ofElements
  simp only [List.forall_mem_cons]
  cases a <;> grind [MatchResult.and]

protected theorem or_assoc (a b c : MatchResult) : (a.or b).or c = a.or (b.or c) := by
  cases a <;> cases b <;> cases c <;> rfl

protected theorem and_assoc (a b c : MatchResult) : (a.and b).and c = a.and (b.and c) := by
  cases a <;> cases b <;> cases c <;> rfl

theorem or_never (a : MatchResult) : a.or never = a := by cases a <;> rfl

theorem and_always (a : MatchResult) : a.and always = a := by cases a <;> rfl

theorem always_and (a : MatchResult) : always.and a = a := by cases a <;> rfl

end MatchResult

/-- What the rule for the kind of an expression gives it from the results of its parts, or of the rule that it
stands for. -/
def Matches.given (m : Matches) : Expr → MatchResult
  | .choice _ first others => .ofAlternatives ((first :: others).map m.ofExpr)
  | .sequence _ elements => .ofElements (elements.map m.ofExpr)
  | .labeled _ _ _ body | .action _ body _ | .named _ _ body | .text _ body | .oneOrMore _ body | .group _ body
  | .simpleAnd _ body => m.ofExpr body
  | .simpleNot _ body => (m.ofExpr body).negate
  | .optional .. | .zeroOrMore .. => .always
  | .repeated _ body min max delimiter => .repeated min max (m.ofExpr body) (delimiter.map m.ofExpr)
  | .ruleRef _ _ target => (target.bind m.ofRule?).getD .sometimes
  | .literal _ value _ => if value = "" then .always else .sometimes
  | .charClass _ k => if k.parts.isEmpty && !k.inverted then .never else .sometimes
  | .any .. | .semanticAnd .. | .semanticNot .. => .sometimes

section Given

variable {m : Matches} {ρ : RuleId → MatchResult}

theorem judgeAny_eq {es : List Expr} (h : ∀ e ∈ es, m.ofExpr e = judge ρ e) (a : MatchResult) :
    judgeAny ρ a es = a.or (.ofAlternatives (es.map m.ofExpr)) := by
  induction es generalizing a with
  | nil => exact (MatchResult.or_never a).symm
  | cons e es ih =>
    calc judgeAny ρ a (e :: es)
        = (a.or (judge ρ e)).or (.ofAlternatives (es.map m.ofExpr)) :=
          ih (fun e' he => h e' (List.mem_cons_of_mem _ he)) _
      _ = a.or ((m.ofExpr e).or (.ofAlternatives (es.map m.ofExpr))) := by
          rw [MatchResult.or_assoc, h e List.mem_cons_self]
      _ = a.or (.ofAlternatives ((e :: es).map m.ofExpr)) := by rw [MatchResult.or_ofAlternatives, List.map_cons]

theorem judgeAll_eq {es : List Expr} (h : ∀ e ∈ es, m.ofExpr e = judge ρ e) (a : MatchResult) :
    judgeAll ρ a es = a.and (.ofElements (es.map m.ofExpr)) := by
  induction es generalizing a with
  | nil => exact (MatchResult.and_always a).symm
  | cons e es ih =>
    calc judgeAll ρ a (e :: es)
        = (a.and (judge ρ e)).and (.ofElements (es.map m.ofExpr)) :=
          ih (fun e' he => h e' (List.mem_cons_of_mem _ he)) _
      _ = a.and ((m.ofExpr e).and (.ofElements (es.map m.ofExpr))) := by
          rw [MatchResult.and_assoc, h e List.mem_cons_self]
      _ = a.and (.ofElements ((e :: es).map m.ofExpr)) := by rw [MatchResult.and_ofElements, List.map_cons]

/-- Where the table has what `judge` gives, it has what the parts give. -/
theorem judge_eq_given {e : Expr} (h : ∀ e' ∈ e.preorder, m.ofExpr e' = judge ρ e') (ht : e.target? = none) :
    judge ρ e = m.given e := by
  have of (c : Expr) (hc : c ∈ e.children) : m.ofExpr c = judge ρ c :=
    h c (Expr.mem_preorder_of_child hc (Expr.mem_preorder_self c))
  cases e with
  | choice i first others =>
    have first_eq := of first List.mem_cons_self
    calc judgeAny ρ (judge ρ first) others
        = (judge ρ first).or (.ofAlternatives (others.map m.ofExpr)) :=
          judgeAny_eq (fun e he => of e (List.mem_cons_of_mem _ he)) _
      _ = .ofAlternatives ((first :: others).map m.ofExpr) := by
          rw [MatchResult.or_ofAlternatives, List.map_cons, first_eq]
  | sequence i elements => exact (judgeAll_eq of .always).trans (MatchResult.always_and _)
  | labeled _ _ _ body | action _ body _ | named _ _ body | text _ body | oneOrMore _ body | group _ body
  | simpleAnd _ body => exact (of body List.mem_cons_self).symm
  | simpleNot _ body => exact congrArg _ (of body List.mem_cons_self).symm
  | repeated i body min max delimiter =>
    cases delimiter with
    | none => exact congrArg (MatchResult.repeated min max · none) (of body List.mem_cons_self).symm
    | some d =>
      show MatchResult.repeated min max (judge ρ body) (some (judge ρ d)) =
        .repeated min max (m.ofExpr body) (some (m.ofExpr d))
      rw [of body List.mem_cons_self, of d (List.mem_cons_of_mem _ List.mem_cons_self)]
  | ruleRef i name target => cases target <;> first | rfl | cases ht
  | optional | zeroOrMore | semanticAnd | semanticNot | literal | charClass | any => rfl

end Given

/-! ## Tables that agree with themselves -/

/-- The tables agree with themselves at every rule that is left, except that a reference to a rule that was an early
estimate for the one it is in may still be `sometimes`. -/
structure Matches.Consistent (g : Grammar) (early : RuleId → RuleId → Prop) (m : Matches) : Prop where
  rules : ∀ r rule, g.live? r = some rule → m.ofRule? r = some (m.ofExpr rule.body)
  parts : ∀ r rule, g.live? r = some rule → ∀ e ∈ rule.body.preorder, e.target? = none → m.ofExpr e = m.given e
  references : ∀ r rule, g.live? r = some rule → ∀ e ∈ rule.body.preorder, ∀ t, e.target? = some t →
    (m.ofRule? t).isSome ∧ (m.ofExpr e = m.given e ∨ m.ofExpr e = .sometimes ∧ early t r)

/-- Every entry is what its parts give it. -/
def Matches.IsFixedPoint (g : Grammar) (m : Matches) : Prop := m.Consistent g fun _ _ => False

namespace Matches.Consistent

variable {g : Grammar} {m : Matches} {early early' : RuleId → RuleId → Prop}

theorem mono (h : m.Consistent g early) (he : ∀ r rule e t, g.live? r = some rule → e ∈ rule.body.preorder →
    e.target? = some t → early t r → early' t r) : m.Consistent g early' where
  rules := h.rules
  parts := h.parts
  references r rule hr e hmem t ht := by
    obtain ⟨reached, given | ⟨vague, hearly⟩⟩ := h.references r rule hr e hmem t ht
    · exact ⟨reached, .inl given⟩
    · exact ⟨reached, .inr ⟨vague, he r rule e t hr hmem ht hearly⟩⟩

end Matches.Consistent

theorem Matches.given_of_target {m : Matches} {e : Expr} {t : RuleId} (h : e.target? = some t) :
    m.given e = m.guess t := by
  cases e with
  | ruleRef i name target => cases h; rfl
  | _ => cases h

/-- A rule that leads to another one and is led to from it may have been an estimate for it. -/
theorem Analysis.Matching.Final.consistent {g : Grammar} {m : Matches} (h : Final g m) :
    m.Consistent g fun t r => t ≠ r ∧ g.LeadsTo t r := by
  have reached {r rule} (hr : g.live? r = some rule) := h.reached r (Grammar.mem_liveIds.2 ⟨rule, hr⟩)
  have settled {r rule} (hr : g.live? r = some rule) := h.settled r rule (Grammar.rule?_of_live? hr) (reached hr)
  constructor
  case rules =>
    intro r rule hr
    obtain ⟨ρ, -, hjudged, hguess⟩ := settled hr
    obtain ⟨v, hv⟩ := Option.isSome_iff_exists.1 (reached hr)
    have : m.guess r = v := by unfold Matches.guess; rw [hv]; rfl
    rw [hv, ← this, hguess, hjudged _ (Expr.mem_preorder_self _)]
  case parts =>
    intro r rule hr e he ht
    obtain ⟨ρ, -, hjudged, -⟩ := settled hr
    rw [hjudged e he]
    exact judge_eq_given (fun e' he' => hjudged e' (Expr.mem_preorder_trans he he')) ht
  case references =>
    intro r rule hr e he t ht
    obtain ⟨ρ, hvague, hjudged, -⟩ := settled hr
    obtain ⟨isSome, same | early⟩ := h.current r rule (Grammar.rule?_of_live? hr) (reached hr) e he t ht
    · exact ⟨isSome, .inl (same.trans (Matches.given_of_target ht).symm)⟩
    · refine ⟨isSome, ?_⟩
      have is : m.ofExpr e = ρ t := (hjudged e he).trans (judge_of_target ht)
      rcases hvague t with sometimes | same
      · exact .inr ⟨is.trans sometimes, early⟩
      · exact .inl ((is.trans same).trans (Matches.given_of_target ht).symm)

/-! ## From drafts -/

/-- For a grammar that was built and has no undefined rules the search succeeds, whatever was checked before and
whether proxies were bypassed or not. -/
theorem Grammar.Built.matching_after {g : Grammar} (built : g.Built) (hrefs : Analysis.undefinedRules g = [])
    (o : CompileOptions) (before : List Pass)
    (hbefore : ∀ p ∈ before, p ≠ .matching ∧ p ≠ .bytecode ∧ p ≠ .source) :
    ∃ s found, s.Prepared g o ∧ before.forM Pass.run ⟨.start g o, []⟩ = .ok ⟨⟩ s ∧
      Pass.matching.run s = .ok ⟨⟩ (s.withFound found) ∧
      Analysis.Matching.Final s.compilation.grammar found ∧ Settles s.compilation.grammar s.compilation.found found := by
  obtain ⟨s, hs, prepared⟩ := (Session.Prepared.start g o).passes before hbefore
  obtain ⟨found, hfound, final, settles⟩ := prepared.matching_final built.numbered (built.resolved hrefs)
  exact ⟨s, found, prepared, hs, hfound, final, settles⟩

/-- After the search the tables agree with themselves, except at references to a rule that leads back to another one
which refers to it; where there are none such, they are a fixed point. -/
theorem match_tables_are_consistent {d : Draft} {g : Grammar} (hd : d.build? = .ok g)
    (hrefs : Analysis.undefinedRules g = []) (o : CompileOptions) (before : List Pass)
    (hbefore : ∀ p ∈ before, p ≠ .matching ∧ p ≠ .bytecode ∧ p ≠ .source) :
    ∃ s, (before ++ [Pass.matching]).forM Pass.run ⟨.start g o, []⟩ = .ok ⟨⟩ s ∧
      s.compilation.found.Consistent s.compilation.grammar (fun t r => t ≠ r ∧ s.compilation.grammar.LeadsTo t r) ∧
      ((∀ r t, s.compilation.grammar.Refers r t → s.compilation.grammar.LeadsTo t r → t = r) →
        s.compilation.found.IsFixedPoint s.compilation.grammar) := by
  obtain ⟨s, found, -, hs, hfound, final, -⟩ := (Draft.built hd).matching_after hrefs o before hbefore
  refine ⟨s.withFound found, ?_, final.consistent, fun apart => ?_⟩
  · exact forM_append_ok_iff.2 ⟨s, hs, bind_ok_iff.2 ⟨⟨⟩, _, hfound, rfl⟩⟩
  · refine final.consistent.mono fun r rule e t hr he ht early => early.1 (apart r t ?_ early.2)
    exact ⟨e, ⟨rule, Grammar.rule?_of_live? hr, he⟩, ht⟩

open Draft.Expr in
/-- `A = "x" B / ""` and `B = "y" A`. -/
def takingTurns : Draft := ⟨none, none, [
  .of "A" (firstOf [seq [exactly "x", ref "B"], exactly ""]) none,
  .of "B" (seq [exactly "y", ref "A"]) none]⟩

theorem match_tables_are_consistent_takingTurns : ∃ g s, takingTurns.build? = .ok g ∧
    ([Pass.startRules, .proxies] ++ [Pass.matching]).forM Pass.run ⟨.start g .default, []⟩ = .ok ⟨⟩ s ∧
    s.compilation.found.rules = #[some .always, some .sometimes] ∧
    s.compilation.found.Consistent s.compilation.grammar (fun t r => t ≠ r ∧ s.compilation.grammar.LeadsTo t r) := by
  obtain ⟨g, hg⟩ : ∃ g, takingTurns.build? = .ok g := ⟨_, rfl⟩
  have hrefs : Analysis.undefinedRules g = [] := by cases hg; rfl
  obtain ⟨s, hs, consistent, -⟩ := match_tables_are_consistent hg hrefs .default [.startRules, .proxies] (by decide)
  have rules : s.compilation.found.rules = #[some .always, some .sometimes] := by
    cases hg
    cases hs
    rfl
  exact ⟨g, s, hg, hs, rules, consistent⟩

/-- `B` is judged while `A` is an estimate: its reference to `A` stays `sometimes`, though `A` always matches. -/
theorem takingTurns_no_fixed_point : ∃ g s, takingTurns.build? = .ok g ∧ Analysis.undefinedRules g = [] ∧
    Pass.matching.run ⟨.start g .default, []⟩ = .ok ⟨⟩ s ∧ s.compilation.found.ofRule? 0 = some .always ∧
    ¬ s.compilation.found.IsFixedPoint s.compilation.grammar := by
  obtain ⟨g, hg⟩ : ∃ g, takingTurns.build? = .ok g := ⟨_, rfl⟩
  obtain ⟨s, hs⟩ : ∃ s, Pass.matching.run ⟨.start g .default, []⟩ = .ok ⟨⟩ s := by cases hg; exact ⟨_, rfl⟩
  have hrefs : Analysis.undefinedRules g = [] := by cases hg; rfl
  refine ⟨g, s, hg, hrefs, hs, ?_, fun fixed => ?_⟩
  · cases hg
    cases hs
    rfl
  · cases hg
    cases hs
    obtain ⟨-, same | ⟨-, never⟩⟩ := fixed.references 1 _ rfl (.ruleRef ⟨6, .empty⟩ "A" (some 0))
      (List.Mem.tail _ (List.Mem.tail _ (List.Mem.head _))) 0 rfl
    · cases same
    · exact never

/-! ## Rounds and estimates -/

/-- Judging again with better estimates of rules never changes what was definite. -/
def Grammar.KeepsDefinite (g : Grammar) : Prop :=
  ∀ r e, g.Inside r e → ∀ ρ ρ' : RuleId → MatchResult, (∀ t, (ρ t).Vaguer (ρ' t)) →
    ∃ v v', (∀ m, ∃ m', findExpr (fun t => return ρ t) e m = .ok v m') ∧
      (∀ m, ∃ m', findExpr (fun t => return ρ' t) e m = .ok v' m') ∧ (v ≠ .sometimes → v' = v)

theorem Grammar.Resolved.keepsDefinite {g : Grammar} (hres : g.Resolved) : g.KeepsDefinite := by
  intro r e he ρ ρ' hvague
  have resolves : ∀ e' ∈ e.preorder, e'.Resolves g.rules.length := fun e' he' => hres r e' (he.trans he')
  refine ⟨judge ρ e, judge ρ' e, findExpr_of_estimates e resolves, findExpr_of_estimates e resolves, fun definite => ?_⟩
  exact ((judge_mono e fun _ _ t _ => hvague t).eq_of_definite definite).symm

/-- The search succeeds and judges no rule more than twice: with any limit on the rounds from two on, and whatever it
would do for a rule within as many others as there are, it leaves the same tables behind. -/
theorem matching_settles_in_two_rounds {d : Draft} {g : Grammar} (hd : d.build? = .ok g)
    (hrefs : Analysis.undefinedRules g = []) (o : CompileOptions) (before : List Pass)
    (hbefore : ∀ p ∈ before, p ≠ .matching ∧ p ≠ .bytecode ∧ p ≠ .source) :
    ∃ s found, before.forM Pass.run ⟨.start g o, []⟩ = .ok ⟨⟩ s ∧
      Pass.matching.run s = .ok ⟨⟩ (s.withFound found) ∧ Settles s.compilation.grammar s.compilation.found found ∧
      s.compilation.grammar.KeepsDefinite := by
  have built := Draft.built hd
  obtain ⟨s, found, prepared, hs, hfound, -, settles⟩ := built.matching_after hrefs o before hbefore
  exact ⟨s, found, hs, hfound, settles, (prepared.bypasses.resolved (built.resolved hrefs)).keepsDefinite⟩

theorem matching_settles_in_two_rounds_nested : ∃ g s found, nested.build? = .ok g ∧
    [Pass.proxies].forM Pass.run ⟨.start g .default, []⟩ = .ok ⟨⟩ s ∧
    Pass.matching.run s = .ok ⟨⟩ (s.withFound found) ∧ found.ofRule? 0 = some .always ∧
    Settles s.compilation.grammar s.compilation.found found := by
  obtain ⟨g, hg⟩ : ∃ g, nested.build? = .ok g := ⟨_, rfl⟩
  have hrefs : Analysis.undefinedRules g = [] := by cases hg; rfl
  obtain ⟨s, found, hs, hfound, settles, -⟩ := matching_settles_in_two_rounds hg hrefs .default [.proxies] (by decide)
  have always : found.ofRule? 0 = some .always := by
    cases hg
    cases hs
    cases hfound
    rfl
  exact ⟨g, s, found, hg, hs, hfound, always, settles⟩

end PegCompiler
