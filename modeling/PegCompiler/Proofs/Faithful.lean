/-
Compiled code does what the grammar means, and nothing else. A grammar that the checks accept is compiled; where
results are not remembered, the machine can finish the code of an expression just as the semantics of the grammar
evaluates it, with the same value, the same position and the same calls of host code.
-/
import PegCompiler.Proofs.Acceptance
import PegCompiler.Proofs.MatchResults
import PegCompiler.Proofs.Semantics.Complete

namespace PegCompiler

open Machine Semantics

/-! ## Rules -/

namespace Compilation

/-- What a parse of a text is about, with these functions for host code. -/
def world (c : Compilation) (bs : Bindings) (text : String) (source : Option String) : World :=
  ⟨c.grammar, bs, text, source⟩

variable {c : Compilation} {bs : Bindings} {text : String} {source : Option String} {st st' : ParseState}
  {cs : List (HostCall HostFunction)} {v : Value}

/-- Reports move nothing. -/
theorem reported_keeps {p : Program Inline} {f : ParseState → ParseState} (hf : Reports f) {w : World} (has : w.Has st) :
    w.Has (reported p f st) ∧ (reported p f st).pos = st.pos ∧ (reported p f st).saved = st.saved := by
  obtain ⟨trace, htrace⟩ := hf.reported p st
  rw [htrace]
  exact ⟨⟨has.input, has.source⟩, rfl, rfl⟩

section Rules

variable (hcache : c.options.cache = false) (hc : Analysis.Matching.Complete c.grammar c.found) (hbs : bs.NeverFail)

include hcache hc hbs

theorem gives_ruleExec (n r : Nat) : Gives (c.found.guess r) (RuleExec (c.inlineProgram bs) n r) :=
  fun st _ cs v st' h => ⟨(agrees_ruleExec hc hbs n r st (trusts_of_no_cache hcache) cs v st' h).1, trivial⟩

theorem gives_ruleRuns (r : Nat) : Gives (c.found.guess r) (RuleRuns (c.inlineProgram bs) r) :=
  fun st _ cs v st' h => ⟨(agrees_ruleRuns hc hbs r st (trusts_of_no_cache hcache) cs v st' h).1, trivial⟩

omit hcache hc hbs in
/-- Where rules agree with their results as long as these can be trusted, they have them from such states. -/
theorem gives_within {R : RuleId → Act HostFunction} (hR : ∀ t, Agrees c.Trusts (c.found.guess t) (R t)) (t : RuleId) :
    Gives (c.found.guess t) (.within c.Trusts (R t)) :=
  fun st _ cs v st' hx => ⟨(hR t st hx.1 cs v st' hx.2).1, trivial⟩

omit hcache in
/-- Pruning changes nothing in the rules of a compilation. -/
theorem setting_unpruned {R : RuleId → Act HostFunction} (hR : ∀ t, Gives (c.found.guess t) (R t)) {r : RuleId}
    {rule : Rule} (hr : c.grammar.live? r = some rule) {e : Expr} (he : e ∈ rule.body.preorder) (ls : Labels) :
    (c.setting bs).meaning R e ls = (c.setting bs).unpruned.meaning R e ls := by
  obtain ⟨ρ, hvague, hjudged, -⟩ := settled hc hr
  have follows : Follows (c.setting bs) ρ e := fun e' he' => hjudged e' (Expr.mem_preorder_trans he he')
  exact meaning_unpruned (c.setting_neverFails hbs) (fun t => (hR t).weaken (hvague t)) e follows ls

omit hcache in
theorem ofRule_unpruned {R : RuleId → Act HostFunction} (hR : ∀ t, Gives (c.found.guess t) (R t)) {r : RuleId}
    {rule : Rule} (hr : c.grammar.live? r = some rule) :
    (c.setting bs).ofRule R rule = (c.setting bs).unpruned.ofRule R rule := by
  obtain ⟨ρ, hvague, hjudged, -⟩ := settled hc hr
  have gives : Gives ((c.setting bs).matched rule.body) ((c.setting bs).meaning R rule.body []) := by
    rw [show (c.setting bs).matched rule.body = _ from hjudged _ (Expr.mem_preorder_self _)]
    exact agrees_expr (fun _ _ _ _ => trivial) (c.setting_neverFails hbs) (fun t => (hR t).weaken (hvague t)) rule.body
      hjudged []
  have body := setting_unpruned hc hbs hR hr (Expr.mem_preorder_self rule.body) []
  unfold Setting.ofRule
  split
  · rw [body] at gives ⊢
    exact silently_holds gives
  · exact body

omit hcache in
/-- From what was remembered in a parse, pruning changes nothing either. -/
theorem ofRule_trusting {R : RuleId → Act HostFunction} (hR : ∀ t, Agrees c.Trusts (c.found.guess t) (R t)) {r : RuleId}
    {rule : Rule} (hr : c.grammar.live? r = some rule) (hst : c.Trusts st) : (c.setting bs).ofRule R rule st cs v st' ↔
      (c.setting bs).unpruned.ofRule (fun t => .within c.Trusts (R t)) rule st cs v st' := by
  have trusts : ∀ t st cs v st', c.Trusts st → R t st cs v st' → c.Trusts st' :=
    fun t st cs v st' hst hx => (hR t st hst cs v st' hx).2
  rw [ofRule_within (ofCache_trusts c) trusts hst, ofRule_unpruned hc hbs (gives_within hR) hr]

omit hcache hc hbs in
/-- What the body of a rule does is told of the rule, with reports around it. -/
theorem sound_around (hcache : c.options.cache = false) {r : Nat} {name : String} {A : Act HostFunction} {S : Told}
    {w : World} (h : Sound w A S) : Sound w (Around (c.inlineProgram bs) r name A) S := by
  intro st has cs v st' hx
  obtain ⟨st₁, hbody, rfl⟩ := (around_iff hcache).1 hx
  obtain ⟨has₀, hpos₀, hsaved₀⟩ := reported_keeps (p := c.inlineProgram bs) reports_enter has
  obtain ⟨res, saved', hres, has₁, hsaved, hend⟩ := h _ has₀ _ _ _ hbody
  rw [hpos₀, hsaved₀] at hres
  rw [hpos₀] at hend
  obtain ⟨has', hpos', hsaved'⟩ := reported_keeps (p := c.inlineProgram bs) reports_exit has₁
  exact ⟨res, saved', hres, has', hsaved'.trans hsaved, hpos' ▸ hend⟩

omit hcache hc hbs in
/-- A rule does what is told of its body. -/
theorem does_around (hcache : c.options.cache = false) {r : Nat} {name : String} {A : Act HostFunction}
    {w : World} {pos saved saved' : Nat} {res : Result Value} (h : Does w pos A pos saved cs res saved') :
    Does w pos (Around (c.inlineProgram bs) r name A) pos saved cs res saved' := by
  rintro st has rfl rfl
  obtain ⟨has₀, hpos₀, hsaved₀⟩ := reported_keeps (p := c.inlineProgram bs) reports_enter has
  obtain ⟨v, st₁, hx, has₁, hsaved, hend⟩ := h _ has₀ hpos₀ hsaved₀
  obtain ⟨has', hpos', hsaved'⟩ := reported_keeps (p := c.inlineProgram bs) reports_exit has₁
  exact ⟨v, _, (around_iff hcache).2 ⟨st₁, hx, rfl⟩, has', hsaved'.trans hsaved, hpos' ▸ hend⟩

/-- What rules do is told of. -/
theorem sound_ruleExec (n r : Nat) :
    Sound (c.world bs text source) (RuleExec (c.inlineProgram bs) n r) (EvalRule (c.world bs text source) r) := by
  induction n generalizing r with
  | zero => exact fun st _ cs v st' h => h.elim
  | succ n ih =>
    intro st has cs v st' hx
    obtain ⟨rule, hr, hx⟩ := ruleExec_succ_iff.1 hx
    rw [ofRule_unpruned hc hbs (gives_ruleExec hcache hc hbs n) hr] at hx
    have body : Sound (c.world bs text source) ((c.setting bs).unpruned.meaning (RuleExec (c.inlineProgram bs) n) rule.body [])
        (Eval (c.world bs text source) rule.body []) := sound_expr rfl hbs ih rule.body []
    have whole : Sound (c.world bs text source) ((c.setting bs).unpruned.ofRule (RuleExec (c.inlineProgram bs) n) rule)
        (Eval (c.world bs text source) rule.body []) := by
      unfold Setting.ofRule
      split
      · exact sound_named body _
      · exact body
    obtain ⟨res, saved', hres, hend⟩ := sound_around hcache whole st has cs v st' hx
    exact ⟨res, saved', ⟨rule, hr, hres⟩, hend⟩

theorem sound_ruleRuns (r : Nat) :
    Sound (c.world bs text source) (RuleRuns (c.inlineProgram bs) r) (EvalRule (c.world bs text source) r) := by
  rintro st has cs v st' ⟨n, hx⟩
  exact sound_ruleExec hcache hc hbs n r st has cs v st' hx

/-- Rules fit the world: they do what their bodies do. -/
theorem fits : Fits (c.world bs text source) (c.setting bs) (RuleRuns (c.inlineProgram bs)) where
  function := rfl
  neverFail := hbs
  rules := by
    intro t rule hr pos saved cs r saved' h
    have whole : Does (c.world bs text source) pos
        ((c.setting bs).unpruned.ofRule (RuleRuns (c.inlineProgram bs)) rule) pos saved cs r saved' := by
      unfold Setting.ofRule
      split
      · exact does_named h _
      · exact h
    rw [← ofRule_unpruned hc hbs (gives_ruleRuns hcache hc hbs) hr] at whole
    intro st has hpos hsaved
    have around : Does (c.world bs text source) pos (Around (c.inlineProgram bs) t rule.name
        ((c.setting bs).ofRule (RuleRuns (c.inlineProgram bs)) rule)) pos saved cs r saved' := does_around hcache whole
    obtain ⟨v, st', hx, hend⟩ := around st has hpos hsaved
    exact ⟨v, st', ruleRuns_iff_meaning.2 ⟨rule, hr, hx⟩, hend⟩

theorem sound_meaning {r : RuleId} {rule : Rule} (hr : c.grammar.live? r = some rule) {e : Expr}
    (he : e ∈ rule.body.preorder) (ls : Labels) :
    Sound (c.world bs text source) ((c.setting bs).meaning (RuleRuns (c.inlineProgram bs)) e ls)
      (Eval (c.world bs text source) e ls) := by
  rw [setting_unpruned hc hbs (gives_ruleRuns hcache hc hbs) hr he ls]
  exact sound_expr rfl hbs (sound_ruleRuns hcache hc hbs) e ls

theorem does_meaning {r : RuleId} {rule : Rule} (hr : c.grammar.live? r = some rule) {e : Expr}
    (he : e ∈ rule.body.preorder) {ls : Labels} {pos saved saved' : Nat} {res : Result Value}
    (h : Eval (c.world bs text source) e ls pos saved cs res saved') : Does (c.world bs text source) pos
      ((c.setting bs).meaning (RuleRuns (c.inlineProgram bs)) e ls) pos saved cs res saved' := by
  rw [setting_unpruned hc hbs (gives_ruleRuns hcache hc hbs) hr he ls]
  exact does_eval (fits hcache hc hbs) h

end Rules

/-! ## Runs of the machine -/

/-- From a state, the machine ends just as the semantics tells: with the same result and the same calls of host code,
which it names by index. There is only one way for it to end (`exec_definite`, `ruleRuns_definite`). -/
structure Realizes (w : World) (k : Constants) (st : ParseState) (ends : Value → ParseState → Prop)
    (acts : List (HostCall Nat) → Value → ParseState → Prop) (S : Told) : Prop where
  /-- Whatever way it ends is told of. -/
  sound : ∀ v st', ends v st' → ∃ calls res saved', S st.pos st.saved calls res saved' ∧
    acts (calls.map (HostCall.link k)) v st' ∧ EndsAs w st.pos res saved' v st'
  /-- Whatever is told of is a way it ends, if it has enough fuel. -/
  complete : ∀ calls res saved', S st.pos st.saved calls res saved' → ∃ v st', ends v st' ∧
    acts (calls.map (HostCall.link k)) v st' ∧ EndsAs w st.pos res saved' v st'

/-- The compiled code does what the grammar means, with these functions for host code. -/
structure Faithful (c : Compilation) (bs : Bindings) : Prop where
  /-- There is code for every expression wherever its labels are in scope and their values are on the stack. -/
  compiles : ∀ r rule e, c.grammar.live? r = some rule → e ∈ rule.body.preorder →
    ∀ (scope : Analysis.Scope) env size, scope.map (·.1) = env.map (·.1) → (∀ i ∈ env.slots, i < size) →
      Analysis.labelsIn c.options.reservedWords scope e = [] → ∃ code k, c.exprCode e env size = .ok (code, k)
  /-- The code of an expression, run on a stack that holds the labels in scope, leaves a value on it. -/
  exprs : ∀ r rule e, c.grammar.live? r = some rule → e ∈ rule.body.preorder →
    ∀ env ls stack code k, c.exprCode e env stack.length = .ok (code, k) → env.Holds ls stack →
    ∀ p, p = Parser.program { c.parserWith bs with constants := k } →
    ∀ text source st, (c.world bs text source).Has st →
      (∀ fuel stack' st', block p fuel code stack st = .ok stack' st' → ∃ v, stack' = .value v :: stack) ∧
      Realizes (c.world bs text source) k st (fun v st' => ∃ fuel, block p fuel code stack st = .ok (.value v :: stack) st')
        (fun cs v st' => Exec p (RuleRuns p) code stack st cs (.value v :: stack) st')
        (Eval (c.world bs text source) e ls)
  /-- A rule. -/
  rules : ∀ r, ∀ p, p = (c.parserWith bs).program → ∀ text source st, (c.world bs text source).Has st →
    Realizes (c.world bs text source) c.constants st (fun v st' => ∃ fuel, Machine.rule p fuel r st = .ok v st')
      (RuleRuns p r st) (EvalRule (c.world bs text source) r)

theorem exprCode_of_assemble {e : Expr} {env : Env} {size : Nat} {code : Code Pooled} {k : Constants}
    (h : (Code.ofExpr c.plan e env size).assemble c.constants = .ok code k) :
    c.exprCode e env size = .ok (Code.decode code.encode, k) := by
  unfold exprCode
  rw [h]

theorem Coded.faithful (h : c.Coded) (hc : Analysis.Matching.Complete c.grammar c.found) (hres : c.grammar.Resolved)
    (hcache : c.options.cache = false) (hbs : bs.NeverFail) : c.Faithful bs where
  compiles := by
    intro r rule e hr he scope env size hscope henv hlabels
    obtain ⟨code, k, hcode⟩ :=
      Code.assemble_ofExpr (p := c.plan) hscope henv (hres.known hr he) hlabels c.constants
    exact ⟨_, k, exprCode_of_assemble hcode⟩
  exprs := by
    rintro r rule e hr he env ls stack code k hcode henv p rfl text source st has
    -- runs of the code are what the expression means
    have ran : ∀ {cs stack' st'}, Exec (Parser.program { c.parserWith bs with constants := k })
        (RuleRuns (Parser.program { c.parserWith bs with constants := k })) code stack st cs stack' st' ↔
        ∃ cs' v, cs = cs'.map (HostCall.link k) ∧ stack' = .value v :: stack ∧
          (c.setting bs).meaning (RuleRuns (c.inlineProgram bs)) e ls st cs' v st' := h.exec_exprCode hcode henv
    refine ⟨fun fuel stack' st' hrun => ?_, fun v st' hrun => ?_, fun calls res saved' heval => ?_⟩
    · obtain ⟨cs, hx⟩ := block_ok_iff.1 ⟨fuel, hrun⟩
      obtain ⟨-, v, -, hstack, -⟩ := ran.1 hx
      exact ⟨v, hstack⟩
    · obtain ⟨cs, hx⟩ := block_ok_iff.1 hrun
      obtain ⟨calls, _, rfl, e, hm⟩ := ran.1 hx
      cases e
      obtain ⟨res, saved', heval, ends⟩ := sound_meaning hcache hc hbs hr he ls st has calls v st' hm
      exact ⟨calls, res, saved', heval, hx, ends⟩
    · obtain ⟨v, st', hm, ends⟩ := does_meaning hcache hc hbs hr he heval st has rfl rfl
      have hx := ran.2 ⟨calls, v, rfl, rfl, hm⟩
      exact ⟨v, st', block_ok_iff.2 ⟨_, hx⟩, hx, ends⟩
  rules := by
    rintro r p rfl text source st has
    refine ⟨fun v st' hrun => ?_, fun calls res saved' heval => ?_⟩
    · obtain ⟨cs, hx⟩ := rule_ok_iff.1 hrun
      obtain ⟨calls, rfl, hm⟩ := (h.ruleRuns ..).1 hx
      obtain ⟨res, saved', heval, ends⟩ := sound_ruleRuns hcache hc hbs r st has calls v st' hm
      exact ⟨calls, res, saved', heval, hx, ends⟩
    · obtain ⟨rule, hr, heval⟩ := heval
      have fit : Fits (c.world bs text source) (c.setting bs) (RuleRuns (c.inlineProgram bs)) := fits hcache hc hbs
      obtain ⟨v, st', hm, ends⟩ := fit.rules r rule hr _ _ _ _ _ (does_eval fit heval) st has rfl rfl
      have hx := (h.ruleRuns ..).2 ⟨calls, rfl, hm⟩
      exact ⟨v, st', rule_ok_iff.2 ⟨_, hx⟩, hx, ends⟩

end Compilation

/-- The compiled code of a grammar that the checks accept does what the grammar means: every expression of its rules,
wherever its code may stand, from every state of a parse of every text. -/
theorem compiled_code_is_faithful {d : Draft} {g : Grammar} (hd : d.build? = .ok g) {o : CompileOptions}
    (hcache : o.cache = false) {s₀ : Session} (hchecks : Session.advance ⟨.start g o, []⟩ .check = .ok s₀)
    (haccepts : Diagnostics.check s₀.diagnostics = .ok ⟨⟩) :
    ∃ s₁ s₂, s₀.advance .transform = .ok s₁ ∧ Pass.bytecode.run s₁ = .ok ⟨⟩ s₂ ∧
      ∀ bs : Bindings, bs.NeverFail → s₂.compilation.Faithful bs := by
  obtain ⟨rfl, accepted, built, resolved⟩ := Session.accepted_of_checks hd hchecks haccepts
  obtain ⟨s₁, s₂, h₁, h₂, hgrammar, hoptions, -, complete, coded⟩ := accepted.compiles built resolved
  refine ⟨s₁, s₂, h₁, h₂, fun bs hbs => coded.faithful complete ?_ ?_ hbs⟩
  · rw [hgrammar]
    exact (Grammar.bypasses_removeProxies g _).resolved resolved
  · rw [hoptions]
    exact hcache

open Draft.Expr in
/-- `Start = n:Letter* { f }` and `Letter = @"x" / "y"`. -/
def letters : Draft := ⟨none, none, [
  .of "Start" (((ref "Letter").star.called "n").thenDo "f") none,
  .of "Letter" (firstOf [seq [(exactly "x").picked], exactly "y"]) none]⟩

theorem compiled_code_is_faithful_letters : ∃ g s₀ s₁ s₂, letters.build? = .ok g ∧
    Session.advance ⟨.start g .default, []⟩ .check = .ok s₀ ∧ s₀.advance .transform = .ok s₁ ∧
    Pass.bytecode.run s₁ = .ok ⟨⟩ s₂ ∧ (s₂.compilation.codeOf 0).words ≠ [] ∧
    s₂.compilation.Faithful [("f", fun view _ => .str view.text)] := by
  obtain ⟨g, hg⟩ : ∃ g, letters.build? = .ok g := ⟨_, rfl⟩
  have hs₀ : Session.advance ⟨.start g .default, []⟩ .check = .ok (Session.checked g .default) := rfl
  have accepts : Diagnostics.check (Session.checked g .default).diagnostics = .ok ⟨⟩ := by cases hg; rfl
  obtain ⟨s₁, s₂, h₁, h₂, faithful⟩ := compiled_code_is_faithful hg rfl hs₀ accepts
  have words : (s₂.compilation.codeOf 0).words ≠ [] := by
    cases hg
    cases h₁
    cases h₂
    decide
  exact ⟨g, _, s₁, s₂, hg, hs₀, h₁, h₂, words,
    faithful _ (Bindings.neverFail_cons (fun _ _ => rfl) Bindings.neverFail_nil)⟩

end PegCompiler
