/-
Compiling a grammar never fails in itself but for one reason. What the checks accept is compiled: match
results are found, all code is put together, and all of it is written as source text, provided that no
sequence without elements makes an array (`compiling_fails_on_hollow_rules_only`). The place for that array
is not counted among the slots of its rule, so the second walk along the stack refuses such rules.
-/
import PegCompiler.Proofs.Emit.OfExpr
import PegCompiler.Proofs.Parsers
import PegCompiler.Samples

namespace PegCompiler

open Analysis

/-! ## Hollow expressions with other references -/

namespace Expr

variable {f : Reference → Reference}

theorem isEmptySequence_mapRefs (f : Reference → Reference) (e : Expr) :
    (e.mapRefs f).isEmptySequence = e.isEmptySequence := by
  cases e with
  | sequence i elements => cases elements <;> rfl
  | repeated i body min max delimiter => cases delimiter <;> rfl
  | _ => rfl

theorem parts_mapRefs (f : Reference → Reference) (e : Expr) : (e.mapRefs f).parts = e.parts.map (mapRefs f) := by
  cases e with
  | action i body code =>
    cases body with
    | repeated j body min max delimiter => cases delimiter <;> rfl
    | _ => rfl
  | repeated i body min max delimiter => cases delimiter <;> rfl
  | choice i first others => exact children_mapRefs f (choice i first others)
  | sequence i elements => exact children_mapRefs f (sequence i elements)
  | _ => rfl

theorem isHollow_mapRefs (f : Reference → Reference) (e : Expr) : (e.mapRefs f).isHollow = e.isHollow := by
  unfold isHollow
  rw [isEmptySequence_mapRefs, preorder_mapRefs, List.any_map]
  congr 2
  funext e'
  rw [Function.comp_apply, parts_mapRefs, List.any_map]
  congr 1
  funext c
  exact isEmptySequence_mapRefs f c

end Expr

/-! ## Writing source text -/

namespace Source

variable {p : Parts}

/-- Every remaining rule has a body of statements. -/
def Writable (p : Parts) (r : RuleId) (rule : Rule) : Prop :=
  ∃ body, RuleBody.ofCode
    { rule := rule.name, limit := (p.bytecode r).maxSlot, constants := p.constants
      ruleName? := fun i => p.grammar.live.lookup i |>.map (·.name) }
    (Code.decode (p.bytecode r).words) = .ok body

theorem rule_ok {r : RuleId} {body : Rule} (h : Writable p r body) (w : CodeWriter) : ∃ w', rule p r body w = .ok w' := by
  obtain ⟨statements, hs⟩ := h
  unfold rule
  simp only [hs]
  exact ⟨_, rfl⟩

theorem rules_ok {rs : List (RuleId × Rule)} (h : ∀ r body, (r, body) ∈ rs → Writable p r body) (w : CodeWriter) :
    ∃ w', rules p rs w = .ok w' := by
  induction rs generalizing w with
  | nil => exact ⟨w, rfl⟩
  | cons head rs ih =>
    obtain ⟨r, body⟩ := head
    obtain ⟨w₁, h₁⟩ := rule_ok (h r body List.mem_cons_self) w
    obtain ⟨w', h'⟩ := ih (fun r body hm => h r body (List.mem_cons_of_mem _ hm)) w₁
    unfold rules
    rw [h₁]
    exact ⟨w', h'⟩

theorem entryPoint_ok (h : p.startRules ≠ []) (w : CodeWriter) : ∃ w', entryPoint p w = .ok w' := by
  unfold entryPoint
  cases hs : p.startRules with
  | nil => exact absurd hs h
  | cons r rs => exact ⟨_, rfl⟩

/-- Source text is written where there is a start rule and all rules have statements. -/
theorem write_ok (hstart : p.startRules ≠ []) (h : ∀ r body, p.grammar.live? r = some body → Writable p r body) :
    ∃ w, write p = .ok w := by
  unfold write
  simp only
  generalize header p.options p.grammar.topLevelInitializer = w₀
  obtain ⟨w₁, h₁⟩ := entryPoint_ok hstart (if (constantLines p.constants).isEmpty = true then
    (constantLines p.constants).foldl CodeWriter.line w₀ else ((constantLines p.constants).foldl CodeWriter.line w₀).blank)
  rw [h₁]
  show ∃ w, (do let w ← rules p p.grammar.live _; _ : Except EmitError CodeWriter) = .ok w
  obtain ⟨w₂, h₂⟩ := rules_ok (fun r body hm => h r body (Grammar.mem_live.1 hm)) _
  rw [h₂]
  exact ⟨_, rfl⟩

theorem writable_of_rule {r : RuleId} {body : Rule} {w w' : CodeWriter} (h : rule p r body w = .ok w') :
    Writable p r body := by
  unfold rule at h
  simp only at h
  generalize hx : RuleBody.ofCode _ _ = x at h
  cases x with
  | error why => cases h
  | ok statements => exact ⟨statements, hx⟩

theorem writable_of_rules {rs : List (RuleId × Rule)} {w w' : CodeWriter} (h : rules p rs w = .ok w') :
    ∀ r body, (r, body) ∈ rs → Writable p r body := by
  induction rs generalizing w with
  | nil => simp
  | cons head rs ih =>
    obtain ⟨r, body⟩ := head
    unfold rules at h
    cases hrule : rule p r body w with
    | error why => rw [hrule] at h; cases h
    | ok w₁ =>
      rw [hrule] at h
      intro r' body' hm
      rcases List.mem_cons.1 hm with e | hm
      · cases e
        exact writable_of_rule hrule
      · exact ih h r' body' hm

/-- Where source text is written, there is a start rule, and text of all rules. -/
theorem rules_of_write {w : CodeWriter} (h : write p = .ok w) :
    p.startRules ≠ [] ∧ ∃ w₀ w₁, rules p p.grammar.live w₀ = .ok w₁ := by
  unfold write at h
  simp only at h
  generalize (if (constantLines p.constants).isEmpty = true then _ else _ : CodeWriter) = w₀ at h
  cases hentry : entryPoint p w₀ with
  | error why => rw [hentry] at h; cases h
  | ok w₁ =>
    rw [hentry] at h
    constructor
    · intro hnil
      unfold entryPoint at hentry
      rw [hnil] at hentry
      cases hentry
    · simp only [bind, Except.bind] at h
      split at h
      · cases h
      · rename_i hrules
        exact ⟨_, _, hrules⟩

/-- So all rules have statements. -/
theorem writable_of_write {w : CodeWriter} (h : write p = .ok w) :
    p.startRules ≠ [] ∧ ∀ r body, p.grammar.live? r = some body → Writable p r body := by
  obtain ⟨hstart, w₀, w₁, hrules⟩ := rules_of_write h
  exact ⟨hstart, fun r body hr => writable_of_rules hrules r body (Grammar.mem_live.2 hr)⟩

end Source

namespace Compilation

variable {c : Compilation}

/-- A rule whose code is known has statements, unless it is hollow. -/
theorem Coded.writable (h : c.Coded) {r : RuleId} {rule : Rule} (hr : c.grammar.live? r = some rule)
    (hrefs : ∀ i name t, .ruleRef i name (some t) ∈ rule.body.preorder → ∃ rule', c.grammar.live? t = some rule')
    (hfull : rule.body.isHollow = false) : Source.Writable c.parts r rule := by
  unfold Source.Writable
  show ∃ body, RuleBody.ofCode
    { rule := rule.name, limit := (c.codeOf r).maxSlot, constants := c.constants
      ruleName? := fun i => c.grammar.live.lookup i |>.map (·.name) } (Code.decode (c.codeOf r).words) = .ok body
  rw [h.code r rule hr, Code.decode_encode]
  refine RuleBody.Fits.ofCode (RuleBody.fits_ofRule (fun i name t ht => ?_) hfull (Nat.le_refl _)) (h.known r rule hr)
  obtain ⟨rule', hr'⟩ := hrefs i name t ht
  rw [Option.isSome_map]
  exact lookup_isSome_iff.2 (Grammar.mem_liveIds.2 ⟨rule', hr'⟩)

/-- Source text is made where it was asked for. -/
theorem output_ok {code : Generated} (hstart : c.startRules ≠ []) (hcode : c.code = some code)
    (hmap : c.options.output = .sourceAndMap → code.map.isSome = true) : ∃ output, c.output = .ok output := by
  obtain ⟨source, map⟩ := code
  unfold output
  rw [hcode]
  cases ho : c.options.output with
  | parser =>
    rw [ofCompilation_ok hstart]
    exact ⟨_, rfl⟩
  | source => exact ⟨_, rfl⟩
  | sourceAndMap =>
    obtain ⟨m, rfl⟩ := Option.isSome_iff_exists.1 (hmap ho)
    exact ⟨_, rfl⟩
  | ast => exact ⟨_, rfl⟩

/-- Source text does not matter to the parser. -/
theorem Ready.withText {g : Grammar} {o : CompileOptions} (h : c.Ready g o) (code : Option Generated) :
    Compilation.Ready g o { c with code } where
  bypasses := h.bypasses
  dropped := h.dropped
  options := h.options
  startRules := h.startRules
  complete := h.complete
  coded := ⟨h.coded.known, h.coded.code⟩
  functions := h.functions

end Compilation

/-! ## Compiling -/

/-- The last pass either leaves the source text in the compilation, or changes nothing. -/
theorem Pass.run_source (s : Session) : Pass.source.run s =
    (match Source.write s.compilation.parts with
      | .ok w => Working.change fun c => { c with
          code := some ⟨w.source, if s.compilation.options.output = .sourceAndMap then some w.map else none⟩ }
      | .error why => throw (.noSourceText why) : Working Unit) s := rfl

namespace Session

variable {g : Grammar} {o : CompileOptions} {s : Session}

/-- The checks always run, and where they accept the grammar the other stages follow. -/
theorem complete_eq (g : Grammar) (o : CompileOptions) : complete g o =
    match Diagnostics.check (checked g o).diagnostics with
    | .ok _ => do (← (checked g o).advance .transform).advance .generate
    | .error why => throw (.rejected why) := by
  unfold complete
  rw [advance_check]
  rfl

theorem complete_of_rejected {why : Rejection} (h : Diagnostics.check (checks g o) = .error why) :
    complete g o = .error (.rejected why) := by
  rw [complete_eq, show Diagnostics.check (checked g o).diagnostics = .error why from h]
  rfl

theorem Accepted.complete (h : Accepted g o) :
    complete g o = (do (← (checked g o).advance .transform).advance .generate) := by
  rw [complete_eq, show Diagnostics.check (checked g o).diagnostics = .ok ⟨⟩ from h]

/-- The last stage, where the code is there: source text is written, or it is refused. -/
theorem advance_generate {s₁ s₂ : Session} (h : Pass.bytecode.run s₁ = .ok ⟨⟩ s₂) :
    s₁.advance .generate =
      match Source.write s₂.compilation.parts with
      | .ok w => .ok { s₂ with compilation := { s₂.compilation with
          code := some ⟨w.source, if s₂.compilation.options.output = .sourceAndMap then some w.map else none⟩ } }
      | .error why => .error (.failed (.noSourceText why)) := by
  have stage : Stage.generate.run s₁ = Pass.source.run s₂ := by
    show (Pass.bytecode.run >>= fun _ => Pass.source.run >>= fun _ => pure PUnit.unit) s₁ = _
    rw [bind_ok h, bind_pure_unit]
  unfold advance
  rw [stage, Pass.run_source]
  cases Source.write s₂.compilation.parts <;> rfl

/-- A grammar that was compiled was accepted. -/
theorem accepted_of_complete (hs : complete g o = .ok s) : Accepted g o := by
  cases h : Diagnostics.check (checks g o) with
  | ok => exact h
  | error why =>
    rw [complete_of_rejected h] at hs
    cases hs

/-- Where all passes succeeded there is a parser and source text of it. -/
theorem Accepted.completed (h : Accepted g o) (hg : g.Built) (hres : g.Resolved) (hs : Session.complete g o = .ok s) :
    Parser.compiled Stage.transform.passes g o = .ok (s.compilation.parserWith []) ∧ s.compilation.Ready g o ∧
      ∃ w, Source.write s.compilation.parts = .ok w := by
  obtain ⟨s₀, h₀, prepared, hgrammar, hstart⟩ := proxies_ok g o
  obtain ⟨s₁, s₂, h₁, h₂, ready, -⟩ := h.ready_of hg hres prepared hstart (dropped_of_proxies hg hgrammar hstart)
  have transformed : Stage.transform.run (checked g o) = .ok ⟨⟩ s₁ :=
    bind_ok_iff.2 ⟨⟨⟩, s₀, h₀, bind_ok_iff.2 ⟨⟨⟩, s₁, h₁, rfl⟩⟩
  have coded : (Stage.transform.passes ++ [Pass.bytecode]).forM Pass.run (checked g o) = .ok ⟨⟩ s₂ :=
    forM_append_ok_iff.2 ⟨s₁, transformed, bind_ok_iff.2 ⟨⟨⟩, s₂, h₂, rfl⟩⟩
  rw [h.complete] at hs
  unfold advance at hs
  rw [transformed] at hs
  have hs : s₁.advance .generate = .ok s := hs
  rw [advance_generate h₂] at hs
  cases hw : Source.write s₂.compilation.parts with
  | error why =>
    rw [hw] at hs
    cases hs
  | ok w =>
    rw [hw] at hs
    cases hs
    have compiled := h.compiled_ok coded ready.startRules
    exact ⟨compiled, ready.withText _, w, hw⟩

/-- The code of an accepted grammar is there, and what is left is to write it. -/
theorem Accepted.writes (h : Accepted g o) (hg : g.Built) (hres : g.Resolved) :
    ∃ s₁ s₂, (checked g o).advance .transform = .ok s₁ ∧ Pass.bytecode.run s₁ = .ok ⟨⟩ s₂ ∧
      s₂.compilation.startRules ≠ [] ∧
      ((∀ rule ∈ g.rules, rule.body.isHollow = false) → ∃ w, Source.write s₂.compilation.parts = .ok w) := by
  obtain ⟨s₁, s₂, h₁, h₂, hgrammar, -, hstart, -, coded⟩ := h.compiles hg hres
  have nonempty : s₂.compilation.startRules ≠ [] := by rw [hstart]; exact h.startRules_ne_nil
  refine ⟨s₁, s₂, h₁, h₂, nonempty, fun hfull => ?_⟩
  have bypasses : g.Bypasses s₂.compilation.grammar := by rw [hgrammar]; exact Grammar.bypasses_removeProxies _ _
  have progressive := h.progressive hg hres bypasses fun r hr => by
    rw [hgrammar] at hr ⊢
    exact (Grammar.removed_removeProxies hg.removed hr).2
  refine Source.write_ok nonempty fun r rule hr => coded.writable hr (fun i name t ht => ?_) ?_
  · obtain ⟨t', rule', e, ht'⟩ := progressive.live r rule i name _ hr ht
    cases e
    exact ⟨rule', ht'⟩
  · obtain ⟨rule₀, f, hrule₀, -, rfl⟩ := bypasses.of_rule (Grammar.rule?_of_live? hr)
    rw [Expr.isHollow_mapRefs]
    exact hfull rule₀ (List.mem_of_getElem? hrule₀)

/-- An accepted grammar is compiled if none of its rules is hollow. -/
theorem Accepted.completes (h : Accepted g o) (hg : g.Built) (hres : g.Resolved)
    (hfull : ∀ rule ∈ g.rules, rule.body.isHollow = false) : ∃ s, Session.complete g o = .ok s := by
  obtain ⟨s₁, s₂, h₁, h₂, -, writes⟩ := h.writes hg hres
  obtain ⟨w, hw⟩ := writes hfull
  rw [h.complete, h₁]
  show ∃ s, s₁.advance .generate = .ok s
  rw [advance_generate h₂, hw]
  exact ⟨_, rfl⟩

end Session

/-- A grammar that could be built is compiled or rejected by the checks, whatever the options are. Where compiling fails
in itself, source text was refused, and a rule is hollow. -/
theorem compiling_fails_on_hollow_rules_only {d : Draft} {g : Grammar} (hd : d.build? = .ok g) (o : CompileOptions) :
    (∃ output diagnostics, compile g o = .ok (output, diagnostics)) ∨
    (∃ s₀ why, Session.advance ⟨.start g o, []⟩ .check = .ok s₀ ∧ Diagnostics.check s₀.diagnostics = .error why ∧
      compile g o = .error (.rejected why)) ∨
    ∃ why rule, compile g o = .error (.failed (.noSourceText why)) ∧ rule ∈ g.rules ∧ rule.body.isHollow = true := by
  have built := Draft.built hd
  unfold compile
  cases accepts : Diagnostics.check (Session.checks g o) with
  | error why =>
    rw [Session.complete_of_rejected accepts]
    exact .inr (.inl ⟨_, why, Session.advance_check g o, accepts, rfl⟩)
  | ok =>
    have accepted : Session.Accepted g o := accepts
    obtain ⟨s₁, s₂, h₁, h₂, hstart, writes⟩ := accepted.writes built (built.resolved accepted.excludes.references)
    have generated : Session.complete g o = s₁.advance .generate := by
      rw [accepted.complete, h₁]
      rfl
    rw [generated, Session.advance_generate h₂]
    cases hw : Source.write s₂.compilation.parts with
    | ok w =>
      refine .inl ?_
      obtain ⟨output, houtput⟩ := Compilation.output_ok (c := { s₂.compilation with
        code := some ⟨w.source, if s₂.compilation.options.output = .sourceAndMap then some w.map else none⟩ })
        hstart rfl fun hmap => by rw [if_pos hmap]; rfl
      refine ⟨output, s₂.diagnostics, ?_⟩
      simp only [bind, Except.bind, houtput]
      rfl
    | error why =>
      refine .inr (.inr ?_)
      by_contra hnone
      obtain ⟨w, hwritten⟩ := writes fun rule hrule => by
        by_contra hollow
        exact hnone ⟨why, rule, rfl, hrule, by simpa using hollow⟩
      rw [hw] at hwritten
      cases hwritten

theorem compiling_fails_on_hollow_rules_only_sum : ∃ g, Sample.sum.draft.build? = .ok g ∧
    (∀ rule ∈ g.rules, rule.body.isHollow = false) ∧
    ∃ output diagnostics, compile g { CompileOptions.default with output := .sourceAndMap } = .ok (output, diagnostics) := by
  obtain ⟨g, hg⟩ : ∃ g, Sample.sum.draft.build? = .ok g := ⟨_, rfl⟩
  have full : ∀ rule ∈ g.rules, rule.body.isHollow = false := by
    cases hg
    decide +kernel
  have accepts : Diagnostics.check (Session.checks g { CompileOptions.default with output := .sourceAndMap }) =
      .ok ⟨⟩ := by
    cases hg
    decide +kernel
  refine ⟨g, hg, full, ?_⟩
  rcases compiling_fails_on_hollow_rules_only hg { CompileOptions.default with output := .sourceAndMap } with
    h | ⟨s₀, why, hs₀, rejects, -⟩ | ⟨why, rule, -, hrule, hollow⟩
  · exact h
  · rw [Session.advance_check] at hs₀
    cases hs₀
    cases accepts.symm.trans rejects
  · rw [full rule hrule] at hollow
    cases hollow

/-- `A` is a sequence without elements. -/
def hollowRule : Draft := ⟨none, none, [.of "A" (.seq []) none]⟩

/-- The checks accept it, and then source text is refused. -/
theorem compile_hollowRule : ∃ g, hollowRule.build? = .ok g ∧
    compile g .default = .error (.failed (.noSourceText (.inRule "A" (.tooDeep 1 0)))) := by
  obtain ⟨g, hg⟩ : ∃ g, hollowRule.build? = .ok g := ⟨_, rfl⟩
  have known : (compile g .default).map (fun _ => ()) =
      .error (.failed (.noSourceText (.inRule "A" (.tooDeep 1 0)))) := by
    cases hg
    decide +kernel
  refine ⟨g, hg, ?_⟩
  cases hc : compile g .default with
  | ok output => rw [hc] at known; cases known
  | error why => rw [hc] at known; exact congrArg _ (Except.error.inj known)

end PegCompiler
