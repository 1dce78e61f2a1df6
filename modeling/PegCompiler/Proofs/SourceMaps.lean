/-
Asking for a source map does not change the parser. The compilation that is asked for one has places in its code and in
its pools, and without them it is the compilation that is not (`Compilation.Unmaps`); so the source text is the same, and
so is what the parser does with any text.
-/
import PegCompiler.Proofs.Emit.Unmapped
import PegCompiler.Proofs.Machine.Unmapped
import PegCompiler.Proofs.Terminating

namespace PegCompiler

open Machine

/-! ## Compiling the rules -/

namespace Working

open Code

theorem compileRule_unmapped (r : RuleId) (rule : Rule) {s s' t : Session} (h : compileRule r rule s = .ok ⟨⟩ s')
    (plan : t.compilation.plan = s.compilation.plan.unmapped)
    (constants : t.compilation.constants = s.compilation.constants.unmapped) :
    ∃ k code code', s' = s.withCode k code ∧ compileRule r rule t = .ok ⟨⟩ (t.withCode k.unmapped code') := by
  unfold compileRule at h ⊢
  simp only at h ⊢
  cases hcode : (ofRule s.compilation.plan rule).assemble s.compilation.constants with
  | error why k => rw [hcode] at h; cases h
  | ok code k =>
    rw [hcode] at h
    cases h
    rw [plan, constants, ← unmapped_ofRule, assemble_unmapped hcode]
    exact ⟨k, _, _, rfl, rfl⟩

/-- Without places rules are compiled as they are with places, and the other constants get into the pools. -/
theorem compileEach_unmapped (rules : List (RuleId × Rule)) {s s' t : Session}
    (h : (rules.forM fun x => compileRule x.1 x.2) s = .ok ⟨⟩ s')
    (plan : t.compilation.plan = s.compilation.plan.unmapped)
    (constants : t.compilation.constants = s.compilation.constants.unmapped) :
    ∃ k code code', s' = s.withCode k code ∧
      (rules.forM fun x => compileRule x.1 x.2) t = .ok ⟨⟩ (t.withCode k.unmapped code') := by
  induction rules generalizing s t with
  | nil =>
    cases h
    refine ⟨s'.compilation.constants, s'.compilation.bytecode, t.compilation.bytecode, rfl, ?_⟩
    rw [← constants]
    rfl
  | cons head rules ih =>
    obtain ⟨_, s₁, h₁, h⟩ := bind_ok_iff.1 h
    obtain ⟨k₁, code₁, code₁', rfl, ht⟩ := compileRule_unmapped head.1 head.2 h₁ plan constants
    obtain ⟨k, code, code', rfl, ht'⟩ := ih (t := t.withCode k₁.unmapped code₁') h plan rfl
    exact ⟨k, code, code', rfl, bind_ok_iff.2 ⟨⟨⟩, _, ht, ht'⟩⟩

end Working

/-! ## Compilations with and without places -/

namespace Compilation

/-- A compilation that tells where text comes from, and the same one that does not. -/
structure Unmaps (c c' : Compilation) : Prop where
  grammar : c'.grammar = c.grammar
  options : c'.options = { c.options with output := .source }
  mapped : c.options.output = .sourceAndMap
  startRules : c'.startRules = c.startRules
  found : c'.found = c.found
  constants : c'.constants = c.constants.unmapped
  coded : c.Coded
  coded' : c'.Coded

namespace Unmaps

variable {c c' : Compilation}

theorem plan (h : c.Unmaps c') : c'.plan = c.plan.unmapped := by
  unfold Compilation.plan
  rw [h.options, h.found]
  rfl

/-- The code of a rule, and the same code without places. -/
theorem codeOf (h : c.Unmaps c') {r : RuleId} {rule : Rule} (hr : c.grammar.live? r = some rule) :
    c.codeOf r = ⟨(Code.link c.constants (Code.ofRule c.plan rule)).encode, Code.peak c.plan rule.body 0⟩ ∧
    c'.codeOf r = ⟨(Code.link c.constants (Code.ofRule c.plan rule)).unmapped.encode, Code.peak c.plan rule.body 0⟩ := by
  refine ⟨h.coded.code r rule hr, ?_⟩
  rw [h.coded'.code r rule (by rw [h.grammar]; exact hr), h.plan, h.constants, Code.peak_unmapped, ← Code.unmapped_ofRule,
    Code.link_unmapped]

theorem parts (h : c.Unmaps c') : c.parts.Unmaps c'.parts where
  grammar := h.grammar
  options := by
    show c'.options = { c.options with output := c'.options.output }
    rw [h.options]
  startRules := h.startRules
  constants := h.constants
  code := fun r rule hr =>
    ⟨_, _, Code.bracketed_ofRule c.plan rule, h.coded.known r rule hr, (h.codeOf hr).1, (h.codeOf hr).2⟩

theorem rulesOf (h : c.Unmaps c') : Parser.rulesOf c' =
    (Parser.rulesOf c).map (Option.map fun rule => { rule with code := rule.code.unmapped }) := by
  unfold Parser.rulesOf
  rw [h.grammar, List.map_toArray, List.map_map]
  refine congrArg List.toArray (List.map_congr_left fun x hx => ?_)
  obtain ⟨r, rule⟩ := x
  show (if c.grammar.removed.contains r then none else some _) =
    Option.map _ (if c.grammar.removed.contains r then none else some _)
  split
  · rfl
  · rename_i hleft
    have live : c.grammar.live? r = some rule := Grammar.mem_live.1 (List.mem_filter.2 ⟨hx, by simpa using hleft⟩)
    obtain ⟨code, code'⟩ := h.codeOf live
    rw [Option.map_some, code, code', Code.decode_encode, Code.decode_encode, Code.raw_unmapped]

/-- The parsers run the same programs, but for places. -/
theorem program (h : c.Unmaps c') (bs : Bindings) : (c'.parserWith bs).program = (c.parserWith bs).program.unmapped := by
  unfold parserWith Parser.program Program.unmapped
  rw [h.rulesOf, h.constants, h.options]
  rfl

theorem unbound? (h : c.Unmaps c') (bs : Bindings) : (c'.parserWith bs).unbound? = (c.parserWith bs).unbound? := by
  unfold parserWith Parser.unbound? Parser.functions
  rw [h.constants]
  rfl

theorem entry (h : c.Unmaps c') (bs : Bindings) (po : ParseOptions) :
    (c'.parserWith bs).entry po = (c.parserWith bs).entry po := by
  have names : (c'.parserWith bs).ruleName? = (c.parserWith bs).ruleName? := by
    funext r
    rw [ruleName?_parserWith, ruleName?_parserWith, h.grammar]
  have start : (c'.parserWith bs).startRules = (c.parserWith bs).startRules := h.startRules
  unfold Parser.entry
  rw [names, start]

/-- Whatever the one parser does with a text, the other one does. -/
theorem ends (h : c.Unmaps c') {g : Grammar} {o : CompileOptions} (ready : c.Ready g o)
    (accepted : Session.Accepted g o) (built : g.Built) (resolved : g.Resolved) (bs : Bindings) (text : String)
    (po : ParseOptions) : ∃ result st, (c'.parserWith bs).Ends text po result st ∧
      (c.parserWith bs).Ends text po result st := by
  cases hu : (c.parserWith bs).unbound? with
  | some code => exact ⟨_, _, Parser.ends_unbound ((h.unbound? bs).trans hu), Parser.ends_unbound hu⟩
  | none =>
    have hu' := (h.unbound? bs).trans hu
    rcases ready.ends accepted built resolved bs text po with ⟨code, hbound⟩ | ⟨why, he⟩ | ⟨v, st, ends⟩
    · cases hu.symm.trans hbound
    · exact ⟨_, _, Parser.ends_rejected hu' ((h.entry bs po).trans he), Parser.ends_rejected hu he⟩
    · obtain ⟨-, r, cs, he, hx⟩ := ends.ruleRuns
      have hx' : RuleRuns (c'.parserWith bs).program r (.start text po.source po.tracing) cs v st := by
        rw [h.program]
        exact hx.unmapped
      exact ⟨_, st, Parser.ends_of_ruleRuns hu' ((h.entry bs po).trans he) hx', ends⟩

end Unmaps

end Compilation

/-! ## Whole compilations -/

namespace Session

variable {g : Grammar} {o : CompileOptions}

/-- The code of an accepted grammar, with places and without. -/
theorem Accepted.unmaps (h : Accepted g o) (hg : g.Built) (hres : g.Resolved) : ∃ s₁ s₂ t₁ t₂,
    (checked g { o with output := .sourceAndMap }).advance .transform = .ok s₁ ∧ Pass.bytecode.run s₁ = .ok ⟨⟩ s₂ ∧
    (checked g { o with output := .source }).advance .transform = .ok t₁ ∧ Pass.bytecode.run t₁ = .ok ⟨⟩ t₂ ∧
    s₂.compilation.Ready g { o with output := .sourceAndMap } ∧ s₂.compilation.Unmaps t₂.compilation ∧
    t₂.diagnostics = s₂.diagnostics := by
  have mapped : Accepted g { o with output := .sourceAndMap } := h
  have plain : Accepted g { o with output := .source } := h
  obtain ⟨s₀, h₀, prepared, hgrammar, hstart⟩ := proxies_ok g { o with output := .sourceAndMap }
  obtain ⟨s₁, s₂, h₁, h₂, ready, -⟩ := mapped.ready_of hg hres prepared hstart (dropped_of_proxies hg hgrammar hstart)
  have transformed : (checked g { o with output := .sourceAndMap }).advance .transform = .ok s₁ := by
    have stage : Stage.transform.run (checked g { o with output := .sourceAndMap }) = .ok ⟨⟩ s₁ :=
      bind_ok_iff.2 ⟨⟨⟩, s₀, h₀, bind_ok_iff.2 ⟨⟨⟩, s₁, h₁, rfl⟩⟩
    unfold advance
    rw [stage]
  obtain ⟨found, hfound, -⟩ := prepared.matching hg.numbered hres
  cases h₁.symm.trans hfound
  -- before the code is made nothing looks at what is asked for, so both start from the same tables
  obtain ⟨k, code, code', rfl, ht⟩ := Working.compileEach_unmapped _
    (t := (s₀.withFound found).withOptions { o with output := .source }) h₂
    (by
      unfold Compilation.plan
      rfl)
    (by
      show s₀.compilation.constants = s₀.compilation.constants.unmapped
      rw [prepared.constants]
      rfl)
  obtain ⟨k', code'', ht', coded', -⟩ := plain.coded_of hg hres
    (s := (s₀.withFound found).withOptions { o with output := .source }) prepared.bypasses prepared.bytecode
    prepared.constants
  cases ht'.symm.trans ht
  refine ⟨_, _, _, _, transformed, h₂, transform_withOptions transformed _, ht, ready, ?_, rfl⟩
  refine ⟨rfl, ?_, ?_, rfl, rfl, rfl, ready.coded, coded'⟩
  · rw [ready.options]
    rfl
  · rw [ready.options]

end Session

/-- Code of a rule without places, and the same code with them. -/
structure Bytecode.Unmapped (b b' : Bytecode) : Prop where
  maxSlot : b.maxSlot = b'.maxSlot
  words : ∃ code : Code Pooled, b'.words = code.encode ∧ b.words = code.unmapped.encode ∧ code.Everywhere Code.Balanced

/-- Compiled with a source map instead of without, a grammar fails alike, or gives the same text and the same parser. -/
theorem source_maps_change_nothing {d : Draft} {g : Grammar} (hd : d.build? = .ok g) (o : CompileOptions) :
    (∃ why, Session.complete g { o with output := .source } = .error why ∧
      Session.complete g { o with output := .sourceAndMap } = .error why) ∨
    ∃ s s' text map, Session.complete g { o with output := .source } = .ok s ∧
      Session.complete g { o with output := .sourceAndMap } = .ok s' ∧
      s.diagnostics = s'.diagnostics ∧
      s.compilation.output = .ok (.source text) ∧ s'.compilation.output = .ok (.sourceAndMap text map) ∧
      s.compilation.grammar = s'.compilation.grammar ∧
      s.compilation.constants = s'.compilation.constants.unmapped ∧
      (∀ r rule, s.compilation.grammar.live? r = some rule →
        (s.compilation.codeOf r).Unmapped (s'.compilation.codeOf r)) ∧
      ∀ (bs : Bindings) (text : String) (po : ParseOptions), ∃ result st,
        (s.compilation.parserWith bs).Ends text po result st ∧ (s'.compilation.parserWith bs).Ends text po result st := by
  have built := Draft.built hd
  cases accepts : Diagnostics.check (Session.checks g o) with
  | error why =>
    exact .inl ⟨_, Session.complete_of_rejected accepts, Session.complete_of_rejected accepts⟩
  | ok =>
    have accepted : Session.Accepted g o := accepts
    have mapped : Session.Accepted g { o with output := .sourceAndMap } := accepts
    have plain : Session.Accepted g { o with output := .source } := accepts
    have resolved := built.resolved accepted.excludes.references
    -- up to the writing of the source, the sessions agree but for the places
    obtain ⟨s₁, s₂, t₁, t₂, hs₁, hs₂, ht₁, ht₂, ready, unmaps, diagnostics⟩ := accepted.unmaps built resolved
    rw [mapped.complete, plain.complete, hs₁, ht₁]
    show (∃ why, t₁.advance .generate = .error why ∧ s₁.advance .generate = .error why) ∨
      ∃ s s' text map, t₁.advance .generate = .ok s ∧ s₁.advance .generate = .ok s' ∧ _
    rw [Session.advance_generate hs₂, Session.advance_generate ht₂]
    -- the source is written for both, or for neither
    rcases unmaps.parts.write with ⟨why, hw, hw'⟩ | ⟨w, w', alike, hw, hw'⟩
    · rw [hw, hw']
      exact .inl ⟨_, rfl, rfl⟩
    · rw [hw, hw']
      have output : t₂.compilation.options.output = .source := by rw [unmaps.options]
      refine .inr ⟨_, _, w'.source, w.map, rfl, rfl, diagnostics, ?_, ?_, unmaps.grammar, unmaps.constants,
        fun r rule hr => ?_, fun bs text po => ?_⟩
      · unfold Compilation.output
        simp only [output]
      · unfold Compilation.output
        simp only [unmaps.mapped, if_true, alike.source]
      · have hr : s₂.compilation.grammar.live? r = some rule := unmaps.grammar ▸ hr
        obtain ⟨code, code'⟩ := unmaps.codeOf hr
        exact ⟨(congrArg Bytecode.maxSlot code').trans (congrArg Bytecode.maxSlot code).symm, _,
          congrArg Bytecode.words code, congrArg Bytecode.words code',
          (Code.bracketed_ofRule s₂.compilation.plan rule).balanced _⟩
      · exact unmaps.ends ready mapped built resolved bs text po

/-- `"a" "b"` has more code with a source map than without. -/
theorem source_maps_change_nothing_pair : ∃ g s s' text map, Sample.pair.draft.build? = .ok g ∧
    Session.complete g { CompileOptions.default with output := .source } = .ok s ∧
    Session.complete g { CompileOptions.default with output := .sourceAndMap } = .ok s' ∧
    (s.compilation.codeOf 0).words.length < (s'.compilation.codeOf 0).words.length ∧
    s.compilation.output = .ok (.source text) ∧ s'.compilation.output = .ok (.sourceAndMap text map) ∧
    (∀ r rule, s.compilation.grammar.live? r = some rule →
      (s.compilation.codeOf r).Unmapped (s'.compilation.codeOf r)) ∧
    ∀ (bs : Bindings) (text : String) (po : ParseOptions), ∃ result st,
      (s.compilation.parserWith bs).Ends text po result st ∧ (s'.compilation.parserWith bs).Ends text po result st := by
  obtain ⟨g, hg⟩ : ∃ g, Sample.pair.draft.build? = .ok g := ⟨_, rfl⟩
  have length (output : OutputKind) (n : Nat)
      (h : (Session.complete g { CompileOptions.default with output }).map (fun s => (s.compilation.codeOf 0).words.length) =
        .ok n) (s : Session) (hs : Session.complete g { CompileOptions.default with output } = .ok s) :
      (s.compilation.codeOf 0).words.length = n := by
    rw [hs] at h
    exact Except.ok.inj h
  have plain := length .source 33 (by cases hg; decide +kernel)
  have mapped := length .sourceAndMap 42 (by cases hg; decide +kernel)
  rcases source_maps_change_nothing hg .default with
    ⟨why, hs, -⟩ | ⟨s, s', text, map, hs, hs', -, htext, hmap, -, -, code, ends⟩
  · have known : (Session.complete g { CompileOptions.default with output := .source }).toOption.isSome = true := by
      cases hg
      decide +kernel
    rw [hs] at known
    cases known
  · exact ⟨g, s, s', text, map, hg, hs, hs', by rw [plain s hs, mapped s' hs']; decide, htext, hmap, code, ends⟩

end PegCompiler
