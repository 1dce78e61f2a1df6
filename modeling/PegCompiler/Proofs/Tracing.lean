/-
The reports of parses, if the grammar was accepted and compiled to report. They are what the run of the start rule
tells (`Machine.Narrates`): every rule that is entered is left, inside of those entered before it and not left yet. And a
run ends as it ends if no one listens, whatever functions stand for host code.
-/
import PegCompiler.Proofs.Frames
import PegCompiler.Proofs.Machine.Reports
import PegCompiler.Proofs.Machine.Untraced

namespace PegCompiler

open Machine TraceEvent

/-- The parse failed neither for its input nor for want of a function for host code. -/
def RunError.Internal : RunError → Prop
  | .rejected _ | .fault (.unbound _) => False
  | .fault _ => True

namespace Parser

variable {p : Parser} {text : String} {po : ParseOptions} {fuel : Nat} {result : Except RunError Value} {st : ParseState}

/-! ## Without a listener -/

/-- With any fuel, a run ends as it ends if no one listens. -/
theorem runWithin_unheard (h : p.runWithin fuel text { po with tracing := true } = (result, st)) :
    p.runWithin fuel text { po with tracing := false } = (result, st.unheard) := by
  have start : ParseState.start text po.source false = (ParseState.start text po.source true).unheard := rfl
  have entry : p.entry { po with tracing := false } = p.entry { po with tracing := true } := rfl
  unfold runWithin at h ⊢
  rw [entry]
  cases hu : p.unbound? with
  | some code =>
    rw [hu] at h
    cases h
    rfl
  | none =>
    rw [hu] at h
    cases he : p.entry { po with tracing := true } with
    | error why =>
      rw [he] at h
      cases h
      rfl
    | ok r =>
      rw [he] at h
      dsimp only at h ⊢
      rw [start, (heedless p.program fuel).2.2.2 r]
      cases hrun : Machine.rule p.program fuel r (.start text po.source true) with
      | ok v st₁ =>
        rw [hrun] at h
        cases h
        rfl
      | error why st₁ =>
        rw [hrun] at h
        cases h
        rfl

theorem finish_unheard (result : Except RunError Value) (st : ParseState) :
    Parser.finish result st.unheard = Parser.finish result st := by
  have input : st.unheard.input = st.input := rfl
  exact Parser.finish_congr input rfl rfl (.refl _) result

/-! ## What is reported -/

/-- What is told of a parse: what the run of the start rule tells, or nothing if there is no such run. -/
inductive Narrates (p : Parser) (text : String) (po : ParseOptions) :
    Except RunError Value → ParseState → List (TraceEvent × Nat) → Prop
  | ran {r : RuleId} {v : Value} {st : ParseState} {told : List (TraceEvent × Nat)} (hentry : p.entry po = .ok r)
      (h : Machine.Narrates p.program text po.source 0 ⟨r, [.rule r], [], .start text po.source true⟩ told
        ⟨r, [], [.value v], st⟩) : Narrates p text po (.ok v) st told
  | refused {why : RunError} {st : ParseState} : Narrates p text po (.error why) st []

/-- The reports of a parse, each with its depth. -/
structure Traces (p : Parser) (text : String) (po : ParseOptions) (result : Except RunError Value) (st : ParseState)
    (told : List (TraceEvent × Nat)) : Prop where
  narrates : p.Narrates text po result st told
  events : st.events = told.map (·.1)
  /-- The log shows them in their depths, and is at depth zero after the last of them. -/
  log : ∀ after, logFrom 0 (st.events ++ after) = told.map (fun e => e.1.line e.2) ++ logFrom 0 after
  /-- Other look-ups in the index of the text give the same with them as without. -/
  lookUps : ∀ (i : LineIndex), i.Knows text.toList → ∀ more, i.findAll text.toList (lookUps st.events ++ more) =
    positions st.events ++ i.findAll text.toList more

theorem traces_of_refused {why : RunError} (h : st.events = []) : p.Traces text po (.error why) st [] where
  narrates := .refused
  events := h
  log := fun after => by rw [h]; rfl
  lookUps := fun i _ more => by rw [h]; rfl

/-- A run of the start rule is reported, if its rules are tidy. -/
theorem traces_of_ran (hrules : ∀ r rule, p.program.rules.getD r none = some rule → Code.Tidy 0 rule.code)
    (htrace : p.trace = true) {r : RuleId} (hentry : p.entry po = .ok r) {v : Value}
    (hrun : Machine.rule p.program fuel r (.start text po.source true) = .ok v st) :
    ∃ told, p.Traces text po (.ok v) st told := by
  obtain ⟨told, narrates, events⟩ := rule_narrates hrules htrace hrun
  refine ⟨told, .ran hentry narrates, events, fun after => ?_, fun i hi more => ?_⟩
  · rw [events]
    exact narrates.log after
  · rw [events]
    exact narrates.lookUps hi more

end Parser

namespace Compilation

variable {c : Compilation} {g : Grammar} {o : CompileOptions}

/-- A parse comes to an end that is no failure of its own. -/
theorem Ready.ends_well (h : c.Ready g o) (haccepts : Session.Accepted g o) (hg : g.Built) (hres : g.Resolved)
    (bs : Bindings) (text : String) (po : ParseOptions) :
    ∃ result st, (c.parserWith bs).Ends text po result st ∧ ∀ e, result = .error e → ¬ e.Internal := by
  rcases h.ends haccepts hg hres bs text po with ⟨code, hu⟩ | ⟨why, he⟩ | ⟨v, st, hends⟩
  · exact ⟨_, _, Parser.ends_unbound hu, fun e he => by cases he; exact id⟩
  · cases hu : (c.parserWith bs).unbound? with
    | some code => exact ⟨_, _, Parser.ends_unbound hu, fun e he => by cases he; exact id⟩
    | none => exact ⟨_, _, Parser.ends_rejected hu he, fun e he => by cases he; exact id⟩
  · exact ⟨_, _, hends, nofun⟩

/-- A parse that ends with no failure of its own is reported as the run of the start rule, if there is one. -/
theorem Ready.traces (h : c.Ready g o) (haccepts : Session.Accepted g o) (hg : g.Built) (hres : g.Resolved)
    (htrace : o.trace = true) {bs : Bindings} {text : String} {po : ParseOptions} {fuel : Nat}
    {result : Except RunError Value} {st : ParseState}
    (hrun : (c.parserWith bs).runWithin fuel text { po with tracing := true } = (result, st))
    (hproper : ∀ e, result = .error e → ¬ e.Internal) : ∃ told, (c.parserWith bs).Traces text po result st told := by
  have ends := h.ends haccepts hg hres bs text { po with tracing := true }
  unfold Parser.runWithin at hrun
  cases hu : (c.parserWith bs).unbound? with
  | some code =>
    rw [hu] at hrun
    cases hrun
    exact ⟨[], Parser.traces_of_refused rfl⟩
  | none =>
    rw [hu] at hrun
    cases he : (c.parserWith bs).entry { po with tracing := true } with
    | error why =>
      rw [he] at hrun
      cases hrun
      exact ⟨[], Parser.traces_of_refused rfl⟩
    | ok r =>
      rw [he] at hrun
      cases hx : Machine.rule (c.parserWith bs).program fuel r (.start text po.source true) with
      | ok v st₁ =>
        dsimp only at hrun
        rw [hx] at hrun
        cases hrun
        have trace : (c.parserWith bs).trace = true := by
          show c.options.trace = true
          rw [h.options, htrace]
        have tidy : ∀ r rule, (c.parserWith bs).program.rules.getD r none = some rule → Code.Tidy 0 rule.code :=
          h.coded.tidy_rules h.complete (.refl _)
        have entry : (c.parserWith bs).entry po = .ok r := he
        exact Parser.traces_of_ran tidy trace entry hx
      | error why st₁ =>
        dsimp only at hrun
        rw [hx] at hrun
        cases hrun
        -- with more fuel the rule ends well, so all that can be is that the fuel was used up
        rcases ends with ⟨code, hu'⟩ | ⟨why', he'⟩ | ⟨v, st', hends⟩
        · cases hu.symm.trans hu'
        · cases he.symm.trans he'
        · obtain ⟨-, r', cs, he', hruns⟩ := hends.ruleRuns
          cases he.symm.trans he'
          obtain ⟨least, hok⟩ := rule_ok_iff.2 ⟨cs, hruns⟩
          cases rule_fault hok hx
          exact absurd trivial (hproper _ rfl)

end Compilation

/-- Parsers of accepted grammars, compiled to report: every parse comes to an end that is no failure of its own; and
however a parse ends that is none, its reports are those of rules that are entered and left inside each other, and it
ends like this if no one listens. -/
theorem traces_are_nested_and_harmless {d : Draft} {g : Grammar} (hd : d.build? = .ok g) {o : CompileOptions}
    (htrace : o.trace = true) {s₀ : Session} (hchecks : Session.advance ⟨.start g o, []⟩ .check = .ok s₀)
    (haccepts : Diagnostics.check s₀.diagnostics = .ok ⟨⟩) :
    ∃ p, Parser.compiled Stage.transform.passes g o = .ok p ∧ ∀ (bs : Bindings) (text : String) (po : ParseOptions),
      (∃ result st, Parser.Ends { p with bindings := bs } text { po with tracing := true } result st ∧
        ∀ e, result = .error e → ¬ e.Internal) ∧
      ∀ fuel result st, Parser.runWithin { p with bindings := bs } fuel text { po with tracing := true } = (result, st) →
        (Parser.runWithin { p with bindings := bs } fuel text { po with tracing := false } = (result, st.unheard) ∧
          Parser.finish result st.unheard = Parser.finish result st) ∧
        ((∀ e, result = .error e → ¬ e.Internal) →
          ∃ told, Parser.Traces { p with bindings := bs } text po result st told) := by
  obtain ⟨rfl, accepted, built, resolved⟩ := Session.accepted_of_checks hd hchecks haccepts
  obtain ⟨c, hcompiled, ready⟩ := accepted.compiled built resolved
  refine ⟨_, hcompiled, fun bs text po => ⟨?_, fun fuel result st hrun => ⟨⟨?_, ?_⟩, fun hproper => ?_⟩⟩⟩
  · exact ready.ends_well accepted built resolved bs text _
  · exact Parser.runWithin_unheard hrun
  · exact Parser.finish_unheard result st
  · exact ready.traces accepted built resolved htrace hrun hproper

open Draft.Expr in
/-- `Start = A "x" / A "y"` and `A = "a"`. -/
def retried : Draft := ⟨none, none, [
  .of "Start" (firstOf [seq [ref "A", exactly "x"], seq [ref "A", exactly "y"]]) none, .of "A" (exactly "a") none]⟩

theorem traces_are_nested_and_harmless_retried : ∃ g s₀ p result st told, retried.build? = .ok g ∧
    Session.advance ⟨.start g { CompileOptions.default with trace := true }, []⟩ .check = .ok s₀ ∧
    Diagnostics.check s₀.diagnostics = .ok ⟨⟩ ∧
    Parser.compiled Stage.transform.passes g { CompileOptions.default with trace := true } = .ok p ∧
    Parser.runWithin { p with bindings := [] } 20 "ay" ⟨none, none, true⟩ = (result, st) ∧
    (∀ e, result = .error e → ¬ e.Internal) ∧ Parser.Traces { p with bindings := [] } "ay" default result st told ∧
    log st.events = ["1:1-1:1 rule.enter Start", "1:1-1:1 rule.enter   A", "1:1-1:2 rule.match   A",
      "1:1-1:1 rule.enter   A", "1:1-1:2 rule.match   A", "1:1-1:3 rule.match Start"] := by
  obtain ⟨g, hg⟩ : ∃ g, retried.build? = .ok g := ⟨_, rfl⟩
  have hs₀ : Session.advance ⟨.start g { CompileOptions.default with trace := true }, []⟩ .check =
      .ok (Session.checked g { CompileOptions.default with trace := true }) := rfl
  have accepts : Diagnostics.check (Session.checked g { CompileOptions.default with trace := true }).diagnostics =
      .ok ⟨⟩ := by cases hg; rfl
  obtain ⟨p, hp, traces⟩ := traces_are_nested_and_harmless hg rfl hs₀ accepts
  have known : (Parser.compiled Stage.transform.passes g { CompileOptions.default with trace := true }).map (fun p =>
      ((Parser.runWithin { p with bindings := [] } 20 "ay" ⟨none, none, true⟩).1.isOk,
        log (Parser.runWithin { p with bindings := [] } 20 "ay" ⟨none, none, true⟩).2.events)) =
      .ok (true, ["1:1-1:1 rule.enter Start", "1:1-1:1 rule.enter   A", "1:1-1:2 rule.match   A",
        "1:1-1:1 rule.enter   A", "1:1-1:2 rule.match   A", "1:1-1:3 rule.match Start"]) := by
    cases hg
    decide +kernel
  rw [hp] at known
  obtain ⟨ok, lines⟩ := Prod.mk.inj (Except.ok.inj known)
  have proper : ∀ e, (Parser.runWithin { p with bindings := [] } 20 "ay" ⟨none, none, true⟩).1 = .error e →
      ¬ e.Internal := by
    intro e he
    rw [he] at ok
    cases ok
  obtain ⟨told, htold⟩ := ((traces [] "ay" default).2 20 _ _ rfl).2 proper
  exact ⟨g, _, p, _, _, told, hg, hs₀, accepts, hp, rfl, proper, htold, lines⟩

end PegCompiler
