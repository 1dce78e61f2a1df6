/-
What is known about matching changes nothing but the size of the code. A parser whose code was made without match
results does what the parser does whose code leaves out what cannot happen. Rules are compared one level of nesting
after the other; match results may be used for what is remembered only as far as it came about in this parse, so runs
of rules are looked at from states of that kind (`Act.within`).
-/
import PegCompiler.Proofs.Faithful
import PegCompiler.Proofs.Terminating

namespace PegCompiler

open Machine Analysis

/-! ## What is around rules -/

namespace Machine

variable {ν : Naming} {p : Program ν}

/-- What is around a rule depends on the program only as far as it remembers and reports. -/
theorem around_congr {p' : Program ν} (hcache : p.cache = p'.cache) (htrace : p.trace = p'.trace) {r : Nat}
    {name : String} {A B : Act (ν .function)} {st st' : ParseState} {cs : List (HostCall (ν .function))} {v : Value}
    (h : ∀ st₀ st₁, st₀.cache = st.cache → (A st₀ cs v st₁ ↔ B st₀ cs v st₁)) :
    Around p r name A st cs v st' ↔ Around p' r name B st cs v st' := by
  have same (f : ParseState → ParseState) (st : ParseState) : reported p f st = reported p' f st := by
    unfold reported
    rw [htrace]
  have entered : (reported p' (·.reportEnter name st.pos) st).cache = st.cache := by
    have enter : Reports (·.reportEnter name st.pos) := reports_enter
    obtain ⟨trace, htrace⟩ := enter.reported p' st
    rw [htrace]
  unfold Around
  simp only [same, hcache]
  split
  · exact Iff.rfl
  · exact exists_congr fun st₁ => and_congr_left' (h _ st₁ entered)

end Machine

namespace Compilation

variable {c c' : Compilation} {bs : Bindings} {st st' : ParseState} {cs : List (HostCall HostFunction)} {v : Value}

/-! ## Code without match results -/

/-- A compilation of the same grammar in which nothing is known about matching. -/
structure Unmatched (c c' : Compilation) : Prop where
  grammar : c'.grammar = c.grammar
  options : c'.options = c.options
  startRules : c'.startRules = c.startRules
  found : ∀ e, c'.found.ofExpr e = .sometimes

namespace Unmatched

theorem setting (h : Unmatched c c') (bs : Bindings) : c'.setting bs = (c.setting bs).unpruned := by
  have matched : c'.found.ofExpr = fun _ => .sometimes := funext h.found
  unfold Compilation.setting plan Setting.unpruned
  rw [matched, h.options]

variable (h : Unmatched c c') (hc : Matching.Complete c.grammar c.found) (hbs : bs.NeverFail)

include h hc hbs

/-- From what was remembered in a parse, rules do the same. -/
theorem ruleExec (n r : Nat) (hst : c.Trusts st) : RuleExec (c.inlineProgram bs) n r st cs v st' ↔
    RuleExec (c'.inlineProgram bs) n r st cs v st' := by
  induction n generalizing r st cs v st' with
  | zero => exact Iff.rfl
  | succ n ih =>
    have keeps := ofCache_trusts c
    have trusts : ∀ r st cs v st', c.Trusts st → RuleExec (c.inlineProgram bs) n r st cs v st' → c.Trusts st' :=
      fun r st cs v st' hst hx => (agrees_ruleExec hc hbs n r st hst cs v st' hx).2
    have trusts' : ∀ r st cs v st', c.Trusts st → RuleExec (c'.inlineProgram bs) n r st cs v st' → c.Trusts st' :=
      fun r st cs v st' hst hx => trusts r st cs v st' hst ((ih r hst).2 hx)
    have calls : (fun t => Act.within c.Trusts (RuleExec (c.inlineProgram bs) n t)) =
        fun t => .within c.Trusts (RuleExec (c'.inlineProgram bs) n t) := by
      funext t st cs v st'
      exact propext (and_congr_right fun hst => ih t hst)
    have live (r : RuleId) : c'.grammar.live? r = c.grammar.live? r := by rw [h.grammar]
    rw [ruleExec_succ_iff, ruleExec_succ_iff]
    simp only [live]
    refine exists_congr fun rule => and_congr_right fun hr => ?_
    have cache : (c.inlineProgram bs).cache = (c'.inlineProgram bs).cache := congrArg CompileOptions.cache h.options.symm
    have trace : (c.inlineProgram bs).trace = (c'.inlineProgram bs).trace := congrArg CompileOptions.trace h.options.symm
    refine around_congr cache trace fun st₀ st₁ same => ?_
    have hst₀ : c.Trusts st₀ := keeps _ _ same hst
    rw [ofRule_trusting hc hbs (agrees_ruleExec hc hbs n) hr hst₀, ofRule_within keeps trusts' hst₀, calls, h.setting]

theorem ruleRuns (r : Nat) (hst : c.Trusts st) :
    RuleRuns (c.inlineProgram bs) r st cs v st' ↔ RuleRuns (c'.inlineProgram bs) r st cs v st' :=
  exists_congr fun n => h.ruleExec hc hbs n r hst

end Unmatched

theorem Unmatched.entry (h : Unmatched c c') (bs : Bindings) (po : ParseOptions) :
    (c'.parserWith bs).entry po = (c.parserWith bs).entry po := by
  unfold Parser.entry
  simp only [ruleName?_parserWith, h.grammar]
  rw [show (c'.parserWith bs).startRules = (c.parserWith bs).startRules from h.startRules]

end Compilation

theorem Matches.ofExpr_unknown (exprs rules : Nat) (e : Expr) : (Matches.unknown exprs rules).ofExpr e = .sometimes := by
  show (Array.replicate exprs MatchResult.sometimes).getD e.id .sometimes = .sometimes
  rw [Array.getD_eq_getD_getElem?, Array.getElem?_replicate]
  split <;> rfl

/-- An accepted grammar can be compiled with and without match results. -/
theorem Session.Accepted.compiled_unmatched {g : Grammar} {o : CompileOptions} (h : Accepted g o) (hg : g.Built)
    (hres : g.Resolved) : ∃ c c' : Compilation, Parser.compiled Stage.transform.passes g o = .ok (c.parserWith []) ∧
      c.Ready g o ∧ Parser.compiled [.proxies] g o = .ok (c'.parserWith []) ∧ c.Unmatched c' ∧ c'.Coded ∧
      ∀ f ∈ c'.constants.functions.toList, ∃ code ∈ c'.grammar.codes, f.code = code.val := by
  obtain ⟨c, hc, ready, hgrammar⟩ := h.compiled_bypassed hg hres
  have proxies : ∃ s, [Pass.proxies].forM Pass.run (checked g o) = .ok ⟨⟩ s ∧ s.Prepared g o ∧
      s.compilation.grammar = (g.removeProxies (startRules g o.allowedStartRules).1).1 ∧
      s.compilation.startRules = (startRules g o.allowedStartRules).1 :=
    ⟨_, rfl, ⟨Grammar.bypasses_removeProxies _ _, rfl, rfl, List.length_map _, rfl⟩, rfl, rfl⟩
  obtain ⟨s, hs, prepared, hgrammar', hstart⟩ := proxies
  obtain ⟨k, code, hcode, coded, functions⟩ :=
    h.coded_of hg hres prepared.bypasses prepared.bytecode prepared.constants
  have passes : ([Pass.proxies] ++ [Pass.bytecode]).forM Pass.run (checked g o) = .ok ⟨⟩ (s.withCode k code) :=
    forM_append_ok_iff.2 ⟨s, hs, bind_ok_iff.2 ⟨⟨⟩, _, hcode, rfl⟩⟩
  refine ⟨c, _, hc, ready, h.compiled_ok passes hstart, ⟨hgrammar'.trans hgrammar.symm,
    prepared.options.trans ready.options.symm, hstart.trans ready.startRules.symm, fun e => ?_⟩, coded, functions⟩
  show s.compilation.found.ofExpr e = .sometimes
  rw [prepared.found, Matches.ofExpr_unknown]

/-- Whether code was made with match results or without them, parses end alike: with the same result in the same
state, after the same calls of host code. -/
theorem match_results_change_nothing {d : Draft} {g : Grammar} (hd : d.build? = .ok g) {o : CompileOptions}
    {s₀ : Session} (hchecks : Session.advance ⟨.start g o, []⟩ .check = .ok s₀)
    (haccepts : Diagnostics.check s₀.diagnostics = .ok ⟨⟩) :
    ∃ p p', Parser.compiled Stage.transform.passes g o = .ok p ∧ Parser.compiled [.proxies] g o = .ok p' ∧
      ∀ bs : Bindings, bs.Bind g.codes → bs.NeverFail → ∀ (text : String) (po : ParseOptions),
        (∃ result st, { p with bindings := bs }.Ends text po result st ∧ { p' with bindings := bs }.Ends text po result st) ∧
        ∀ r, { p with bindings := bs }.entry po = .ok r → ∃ (calls : List (HostCall HostFunction)) (v : Value) (st : ParseState),
          RuleRuns { p with bindings := bs }.program r (.start text po.source po.tracing)
            (calls.map (HostCall.link p.constants)) v st ∧
          RuleRuns { p' with bindings := bs }.program r (.start text po.source po.tracing)
            (calls.map (HostCall.link p'.constants)) v st := by
  obtain ⟨rfl, accepted, built, resolved⟩ := Session.accepted_of_checks hd hchecks haccepts
  obtain ⟨c, c', hc, ready, hc', unmatched, coded', functions'⟩ := accepted.compiled_unmatched built resolved
  refine ⟨_, _, hc, hc', fun bs hbs hnever text po => ?_⟩
  have covers : bs.Bind c.grammar.codes := fun code hcode => hbs code (ready.bypasses.mem_codes built.removed hcode)
  have bound : (c.parserWith bs).unbound? = none := ready.unbound?_eq_none built.removed hbs
  have bound' : (c'.parserWith bs).unbound? = none :=
    Compilation.unbound?_eq_none_of_functions functions' (unmatched.grammar ▸ covers)
  -- what the start rule does, if there is one
  have runs (r : RuleId) (hr : (c.parserWith bs).entry po = .ok r) :
      ∃ (calls : List (HostCall HostFunction)) (v : Value) (st : ParseState),
        RuleRuns (c.parserWith bs).program r (.start text po.source po.tracing) (calls.map (HostCall.link c.constants)) v st ∧
        RuleRuns (c'.parserWith bs).program r (.start text po.source po.tracing)
          (calls.map (HostCall.link c'.constants)) v st := by
    obtain ⟨calls, v, st, hx, hx₁⟩ := ready.runs accepted built resolved bs text po bound hr
    have hx₂ := (unmatched.ruleRuns ready.complete hnever r (Compilation.trusts_of_empty rfl)).1 hx₁
    exact ⟨calls, v, st, hx, (coded'.ruleRuns ..).2 ⟨calls, rfl, hx₂⟩⟩
  refine ⟨?_, runs⟩
  cases hr : (c.parserWith bs).entry po with
  | error why =>
    have hr' : (c'.parserWith bs).entry po = .error why := (unmatched.entry bs po).trans hr
    exact ⟨_, _, Parser.ends_rejected bound hr, Parser.ends_rejected bound' hr'⟩
  | ok r =>
    have hr' : (c'.parserWith bs).entry po = .ok r := (unmatched.entry bs po).trans hr
    obtain ⟨calls, v, st, hx, hx'⟩ := runs r hr
    exact ⟨_, _, Parser.ends_of_ruleRuns bound hr hx, Parser.ends_of_ruleRuns bound' hr' hx'⟩

/-- `letters` has a repetition that always matches, so that without match results there is more code. -/
theorem match_results_change_nothing_letters : ∃ g s₀ p p', letters.build? = .ok g ∧
    Session.advance ⟨.start g { CompileOptions.default with cache := true }, []⟩ .check = .ok s₀ ∧
    Diagnostics.check s₀.diagnostics = .ok ⟨⟩ ∧
    Parser.compiled Stage.transform.passes g { CompileOptions.default with cache := true } = .ok p ∧
    Parser.compiled [.proxies] g { CompileOptions.default with cache := true } = .ok p' ∧
    ∀ text, ∃ result st,
      Parser.Ends { p with bindings := [("f", fun view _ => .str view.text)] } text default result st ∧
      Parser.Ends { p' with bindings := [("f", fun view _ => .str view.text)] } text default result st := by
  obtain ⟨g, hg⟩ : ∃ g, letters.build? = .ok g := ⟨_, rfl⟩
  have accepts : Diagnostics.check (Session.checked g { CompileOptions.default with cache := true }).diagnostics =
      .ok ⟨⟩ := by cases hg; rfl
  obtain ⟨p, p', hp, hp', same⟩ := match_results_change_nothing hg (Session.advance_check g _) accepts
  have covers : Bindings.Bind [("f", fun view _ => .str view.text)] g.codes := by
    have codes : g.codes.all (·.val == "f") = true := by cases hg; rfl
    intro code hcode
    have key : code.val = "f" := beq_iff_eq.1 (List.all_eq_true.1 codes code hcode)
    rw [key]
    exact ⟨_, rfl⟩
  have never : Bindings.NeverFail [("f", fun view _ => .str view.text)] :=
    Bindings.neverFail_cons (fun _ _ => rfl) Bindings.neverFail_nil
  exact ⟨g, _, p, p', hg, Session.advance_check g _, accepts, hp, hp', fun text => (same _ covers never text default).1⟩

end PegCompiler
