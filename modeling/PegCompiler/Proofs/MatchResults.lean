/-
Match results hold in every run of the compiled rules. A rule was judged from results of other rules that
were as vague as the final ones or vaguer, so what holds of runs with rules nested `n` deep holds of those
nested `n + 1` deep; a remembered result is one that such a run gave.
-/
import PegCompiler.Proofs.Machine.Parser
import PegCompiler.Proofs.Meaning.Matching

namespace PegCompiler

open Machine

/-! ## Runs from some states only -/

namespace Machine

variable {ν : Naming} {p : Program ν} {I : ParseState → Prop}

/-- An act, but only from states of which `I` holds. -/
def Act.within {φ : Type} (I : ParseState → Prop) (A : Act φ) : Act φ := fun st cs v st' => I st ∧ A st cs v st'

/-- Nothing is remembered by instructions without blocks. -/
theorem step_cache {i : Instr ν} {s s' : Stack} {st st' : ParseState} (h : step p i s st = .ok s' st') :
    st'.cache = st.cache := by
  cases i with
  | fail e =>
    simp only [step, bind_ok_iff, lift_ok_iff, modify_ok_iff, pure_ok_iff] at h
    obtain ⟨e', st₁, ⟨-, rfl⟩, -, st₂, rfl, -, rfl⟩ := h
    exact fail_cache _ _
  | defect why => cases h
  | _ =>
    simp only [step, bind_ok_iff, lift_ok_iff, modify_ok_iff, pure_ok_iff, get_ok_iff, change_ok_iff] at h
    grind [ParseState.acceptN, ParseState.accept, ParseState.acceptString, ParseState.acceptStringIc]

/-- Where rules keep something about what is remembered, a block calls them only while it holds. -/
theorem Exec.within (hI : OfCache I) {R : Nat → Act (ν .function)}
    (hR : ∀ r st cs v st', I st → R r st cs v st' → I st') {code : Code ν} {s s' : Stack} {st st' : ParseState}
    {cs : List (HostCall (ν .function))} (h : Exec p R code s st cs s' st') (hst : I st) :
    Exec p (fun r => .within I (R r)) code s st cs s' st' ∧ I st' := by
  induction h with
  | nil => exact ⟨.nil, hst⟩
  | plain hi h _ ih =>
    obtain ⟨rest, hst'⟩ := ih (hI _ _ (step_cache h) hst)
    exact ⟨.plain hi h rest, hst'⟩
  | cond h _ _ ih₁ ih₂ =>
    obtain ⟨block, hst₁⟩ := ih₁ hst
    obtain ⟨rest, hst'⟩ := ih₂ hst₁
    exact ⟨.cond h block rest, hst'⟩
  | done h hv _ ih =>
    obtain ⟨rest, hst'⟩ := ih hst
    exact ⟨.done h hv rest, hst'⟩
  | again h hv _ _ ih₁ ih₂ =>
    obtain ⟨round, hst₁⟩ := ih₁ hst
    obtain ⟨rest, hst'⟩ := ih₂ hst₁
    exact ⟨.again h hv round rest, hst'⟩
  | rule h _ ih =>
    obtain ⟨rest, hst'⟩ := ih (hR _ _ _ _ _ hst h)
    exact ⟨.rule ⟨hst, h⟩ rest, hst'⟩

end Machine

/-! ## Match results of rules -/

namespace Compilation

/-- Whatever rules may take from what the state remembers, match results allow it. -/
def Trusts (c : Compilation) (st : ParseState) : Prop :=
  c.options.cache = true → ∀ (key : CacheKey) (entry : CacheEntry), st.cache[key]? = some entry →
    (c.found.guess key.rule).Tells entry.result

variable {c : Compilation} {bs : Bindings} {st st' : ParseState}

theorem ofCache_trusts (c : Compilation) : OfCache c.Trusts := fun _ _ hst h hc key entry he =>
  h hc key entry (by rw [← hst]; exact he)

theorem trusts_of_empty (h : st.cache = {}) : c.Trusts st := by
  intro _ key entry he
  rw [h, Std.HashMap.getElem?_empty] at he
  cases he

theorem trusts_of_no_cache (h : c.options.cache = false) : c.Trusts st := fun hc => by
  rw [h] at hc; cases hc

theorem setting_neverFails (c : Compilation) (h : bs.NeverFail) : (c.setting bs).NeverFails := by
  intro f kind host hf view args
  have hf : bs.function f = .ok (kind, host) := hf
  unfold Bindings.function at hf
  cases hfind : bs.find? f.code with
  | none => rw [hfind] at hf; cases hf
  | some f' =>
    rw [hfind] at hf
    cases hf
    exact h f.code _ hfind view args

theorem reported_cache {p : Program Inline} {f : ParseState → ParseState} (hf : Reports f) (st : ParseState) :
    (reported p f st).cache = st.cache := by
  obtain ⟨trace, htrace⟩ := hf.reported p st
  rw [htrace]

/-- A result may be remembered that agrees with the rule's own. -/
theorem trusts_remember (h : c.Trusts st) {r start : Nat} {v : Value} (hv : (c.found.guess r).Tells v) :
    c.Trusts (st.remember r start v) := by
  intro hc key entry he
  unfold ParseState.remember at he
  simp only [Std.HashMap.getElem?_insert] at he
  split at he
  · rename_i hkey
    cases he
    rw [← beq_iff_eq.1 hkey]
    exact hv
  · exact h hc key entry he

/-- Around a body that agrees with a result, a rule agrees with it. -/
theorem agrees_around {r : Nat} {name : String} {A : Act HostFunction}
    (hA : Agrees c.Trusts (c.found.guess r) A) :
    Agrees c.Trusts (c.found.guess r) (Around (c.inlineProgram bs) r name A) := by
  intro st hst cs v st' hx
  have keeps := ofCache_trusts c
  have hst₀ : c.Trusts (reported (c.inlineProgram bs) (·.reportEnter name st.pos) st) :=
    keeps _ _ (reported_cache reports_enter st) hst
  unfold Around at hx
  split at hx
  · rename_i w st₁ hrecalled
    obtain ⟨-, rfl, rfl⟩ := hx
    split at hrecalled
    · rename_i hcache
      unfold ParseState.remembered? at hrecalled
      obtain ⟨entry, hentry, e⟩ := Option.map_eq_some_iff.1 hrecalled
      cases e
      exact ⟨hst₀ hcache _ _ hentry, keeps _ _ (reported_cache reports_exit _) hst₀⟩
    · cases hrecalled
  · obtain ⟨st₁, hbody, rfl⟩ := hx
    obtain ⟨hv, hst₁⟩ := hA _ hst₀ _ _ _ hbody
    refine ⟨hv, keeps _ _ (reported_cache reports_exit _) ?_⟩
    split
    · exact trusts_remember hst₁ hv
    · exact hst₁

/-- Where rules keep something about what is remembered, another one calls them only while it holds. -/
theorem ofRule_within {I : ParseState → Prop} (hI : OfCache I) {R : RuleId → Act HostFunction}
    (hR : ∀ r st cs v st', I st → R r st cs v st' → I st') {rule : Rule} {cs : List (HostCall HostFunction)} {v : Value}
    (hst : I st) :
    (c.setting bs).ofRule R rule st cs v st' ↔ (c.setting bs).ofRule (fun r => .within I (R r)) rule st cs v st' := by
  rw [← exec_ofRule_iff, ← exec_ofRule_iff]
  exact ⟨fun h => (h.within hI hR hst).1, fun h => h.mono fun _ _ _ _ _ h => h.2⟩

/-- So do expressions. -/
theorem meaning_within {I : ParseState → Prop} (hI : OfCache I) {R : RuleId → Act HostFunction}
    (hR : ∀ r st cs v st', I st → R r st cs v st' → I st') {e : Expr} {ls : Labels} {cs : List (HostCall HostFunction)}
    {v : Value} (hst : I st) :
    (c.setting bs).meaning R e ls st cs v st' ↔ (c.setting bs).meaning (fun r => .within I (R r)) e ls st cs v st' := by
  obtain ⟨env, s, henv⟩ := Env.exists_holds ls
  rw [← exec_ofExpr_iff henv, ← exec_ofExpr_iff henv]
  exact ⟨fun h => (h.within hI hR hst).1, fun h => h.mono fun _ _ _ _ _ h => h.2⟩

section Runs

variable (hc : Analysis.Matching.Complete c.grammar c.found) (hbs : bs.NeverFail)

include hc

theorem settled {r : RuleId} {rule : Rule} (hr : c.grammar.live? r = some rule) :
    Analysis.Matching.Settled c.found r rule.body :=
  hc.settled r rule (Grammar.rule?_of_live? hr) (hc.reached r (Grammar.mem_liveIds.2 ⟨rule, hr⟩))

include hbs

/-- A rule agrees with its result if the rules that it calls do. -/
theorem agrees_ofRule {R : RuleId → Act HostFunction} (hR : ∀ t, Agrees c.Trusts (c.found.guess t) (R t)) {r : RuleId}
    {rule : Rule} (hr : c.grammar.live? r = some rule) :
    Agrees c.Trusts (c.found.guess r) ((c.setting bs).ofRule R rule) := by
  obtain ⟨ρ, hvague, hjudged, hguess⟩ := settled hc hr
  have hbody := agrees_expr (c := c.setting bs) (ofCache_trusts c) (c.setting_neverFails hbs)
    (fun t => (hR t).weaken (hvague t)) rule.body hjudged []
  rw [hguess]
  unfold Setting.ofRule
  split
  · rename_i name _
    rw [show (c.setting bs).matched rule.body = _ from hjudged _ (Expr.mem_preorder_self _)]
    exact hbody.named (ofCache_trusts c) name
  · exact hbody

/-- Rules agree with their results, however deep they are nested. -/
theorem agrees_ruleExec (n : Nat) (r : RuleId) :
    Agrees c.Trusts (c.found.guess r) (RuleExec (c.inlineProgram bs) n r) := by
  induction n generalizing r with
  | zero => exact fun st _ cs v st' h => h.elim
  | succ n ih =>
    intro st hst cs v st' hx
    obtain ⟨rule, hr, hx⟩ := ruleExec_succ_iff.1 hx
    exact agrees_around (agrees_ofRule hc hbs ih hr) st hst cs v st' hx

theorem agrees_ruleRuns (r : RuleId) :
    Agrees c.Trusts (c.found.guess r) (RuleRuns (c.inlineProgram bs) r) := by
  rintro st hst cs v st' ⟨n, hx⟩
  exact agrees_ruleExec hc hbs n r st hst cs v st' hx

/-- Where rules agree with their results, so do the expressions of a rule. -/
theorem agrees_inside {R : RuleId → Act HostFunction} (hR : ∀ t, Agrees c.Trusts (c.found.guess t) (R t)) {r : RuleId}
    {rule : Rule} (hr : c.grammar.live? r = some rule) {e : Expr} (he : e ∈ rule.body.preorder) (ls : Labels) :
    Agrees c.Trusts (c.found.ofExpr e) ((c.setting bs).meaning R e ls) := by
  obtain ⟨ρ, hvague, hjudged, -⟩ := settled hc hr
  have follows : Follows (c.setting bs) ρ e := fun e' he' => hjudged e' (Expr.mem_preorder_trans he he')
  rw [show c.found.ofExpr e = _ from hjudged e he]
  exact agrees_expr (ofCache_trusts c) (c.setting_neverFails hbs) (fun t => (hR t).weaken (hvague t)) e follows ls

theorem agrees_meaning {r : RuleId} {rule : Rule} (hr : c.grammar.live? r = some rule) {e : Expr}
    (he : e ∈ rule.body.preorder) (ls : Labels) :
    Agrees c.Trusts (c.found.ofExpr e) ((c.setting bs).meaning (RuleRuns (c.inlineProgram bs)) e ls) :=
  agrees_inside hc hbs (agrees_ruleRuns hc hbs) hr he ls

end Runs

/-- Match results hold of all runs of the compiled code, with these functions for host code. -/
structure MatchesHold (c : Compilation) (bs : Bindings) : Prop where
  /-- This is so to begin with, when nothing is remembered. -/
  start : ∀ st : ParseState, st.cache = {} → c.Trusts st
  /-- The code of an expression, run to its end on a stack that holds the labels in scope. -/
  exprs : ∀ r rule e, c.grammar.live? r = some rule → e ∈ rule.body.preorder →
    ∀ env ls stack code k, c.exprCode e env stack.length = .ok (code, k) → env.Holds ls stack →
    ∀ fuel st stack' st', c.Trusts st →
      block (Parser.program { c.parserWith bs with constants := k }) fuel code stack st = .ok stack' st' →
      ∃ v, stack' = .value v :: stack ∧ (c.found.ofExpr e = .always → v.isFailed = false) ∧
        (c.found.ofExpr e = .never → v.isFailed = true) ∧ c.Trusts st'
  /-- A rule, run to its end. -/
  rules : ∀ r rule, c.grammar.live? r = some rule → ∃ m, c.found.ofRule? r = some m ∧
    ∀ fuel st v st', c.Trusts st → Machine.rule (c.parserWith bs).program fuel r st = .ok v st' →
      (m = .always → v.isFailed = false) ∧ (m = .never → v.isFailed = true) ∧ c.Trusts st'

theorem tells_iff {m : MatchResult} {v : Value} :
    m.Tells v ↔ (m = .always → v.isFailed = false) ∧ (m = .never → v.isFailed = true) := by
  cases m with
  | always => simp [MatchResult.Tells.always_iff]
  | never => simp [MatchResult.Tells.never_iff]
  | sometimes => simp [MatchResult.Tells.sometimes]

theorem Coded.matchesHold (h : c.Coded) (hc : Analysis.Matching.Complete c.grammar c.found) (hbs : bs.NeverFail) :
    c.MatchesHold bs where
  start := fun _ => trusts_of_empty
  exprs := by
    intro r rule e hr he env ls stack code k hcode henv fuel st stack' st' hst hrun
    obtain ⟨cs, hx⟩ := block_ok_iff.1 ⟨fuel, hrun⟩
    obtain ⟨cs', v, -, hstack, hv⟩ := (h.exec_exprCode hcode henv).1 hx
    obtain ⟨tells, trusts⟩ := agrees_meaning hc hbs hr he ls st hst cs' v st' hv
    obtain ⟨always, never⟩ := tells_iff.1 tells
    exact ⟨v, hstack, always, never, trusts⟩
  rules := by
    intro r rule hr
    obtain ⟨m, hm⟩ := Option.isSome_iff_exists.1 (hc.reached r (Grammar.mem_liveIds.2 ⟨rule, hr⟩))
    refine ⟨m, hm, fun fuel st v st' hst hrun => ?_⟩
    obtain ⟨cs, hx⟩ := rule_ok_iff.1 ⟨fuel, hrun⟩
    obtain ⟨cs', -, hx⟩ := (h.ruleRuns ..).1 hx
    obtain ⟨tells, trusts⟩ := agrees_ruleRuns hc hbs r st hst cs' v st' hx
    rw [show c.found.guess r = m by unfold Matches.guess; rw [hm]; rfl, tells_iff] at tells
    exact ⟨tells.1, tells.2, trusts⟩

end Compilation

/-! ## From drafts -/

/-- Match results hold in every run of the compiled code of a grammar whose references stand for rules: the search
for them succeeds, whatever was checked before and whether proxies were bypassed or not. -/
theorem match_results_hold {d : Draft} {g : Grammar} (hd : d.build? = .ok g)
    (hrefs : Analysis.undefinedRules g = []) (o : CompileOptions) (before : List Pass)
    (hbefore : ∀ p ∈ before, p ≠ .matching ∧ p ≠ .bytecode ∧ p ≠ .source) :
    ∃ s, (before ++ [Pass.matching]).forM Pass.run ⟨.start g o, []⟩ = .ok ⟨⟩ s ∧
      ∀ s', Pass.bytecode.run s = .ok ⟨⟩ s' → ∀ bs : Bindings, bs.NeverFail → s'.compilation.MatchesHold bs := by
  have built := Draft.built hd
  obtain ⟨s₀, h₀, prepared⟩ := (Session.Prepared.start g o).passes before hbefore
  obtain ⟨found, h₁, complete⟩ := prepared.matching built.numbered (built.resolved hrefs)
  refine ⟨s₀.withFound found, ?_, fun s' h' bs hbs => ?_⟩
  · exact forM_append_ok_iff.2 ⟨s₀, h₀, bind_ok_iff.2 ⟨⟨⟩, _, h₁, rfl⟩⟩
  · have hlen : s₀.compilation.bytecode.length = s₀.compilation.grammar.rules.length :=
      prepared.bytecode.trans prepared.bypasses.length.symm
    obtain ⟨coded, k, code, rfl⟩ := Working.compileRules_ok (s := s₀.withFound found) hlen h'
    exact coded.matchesHold complete hbs

open Draft.Expr in
/-- `Start = "x" Start / ""`. -/
def nested : Draft := ⟨none, none, [.of "Start" (firstOf [seq [exactly "x", ref "Start"], exactly ""]) none]⟩

theorem match_results_hold_nested : ∃ g s s', nested.build? = .ok g ∧
    ([Pass.startRules, .proxies] ++ [Pass.matching]).forM Pass.run ⟨.start g .default, []⟩ = .ok ⟨⟩ s ∧
    Pass.bytecode.run s = .ok ⟨⟩ s' ∧ s'.compilation.found.ofRule? 0 = some .always ∧
    s'.compilation.MatchesHold [] := by
  obtain ⟨g, hg⟩ : ∃ g, nested.build? = .ok g := ⟨_, rfl⟩
  have hrefs : Analysis.undefinedRules g = [] := by cases hg; rfl
  obtain ⟨s, hs, holds⟩ := match_results_hold hg hrefs .default [.startRules, .proxies] (by decide)
  obtain ⟨s', hs', always⟩ : ∃ s', Pass.bytecode.run s = .ok ⟨⟩ s' ∧
      s'.compilation.found.ofRule? 0 = some .always := by
    cases hg
    cases hs
    exact ⟨_, rfl, rfl⟩
  have bound : Bindings.NeverFail [] := fun code f h => by cases h
  exact ⟨g, s, s', hg, hs, hs', always, holds s' hs' [] bound⟩

end PegCompiler
