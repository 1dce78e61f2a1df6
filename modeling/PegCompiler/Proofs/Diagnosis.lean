/-
What a parser reports about failures. Where results are not remembered, a parse has recorded the farthest failures of
its log, and the error of a parse that did not match all of its text is about them.
-/
import PegCompiler.Proofs.Bypassing
import PegCompiler.Proofs.Faithful
import PegCompiler.Proofs.Semantics.Recorded

namespace PegCompiler

open Machine Semantics Failures

/-! ## Rules -/

namespace Compilation

variable {c : Compilation} {bs : Bindings} {text : String} {source : Option String}

/-- Reports are not failures. -/
theorem reported_records {p : Program Inline} {f : ParseState → ParseState} (hf : Reports f) (st : ParseState) :
    Recorded [] st (reported p f st) := by
  obtain ⟨trace, htrace⟩ := hf.reported p st
  rw [htrace]
  exact .nothing rfl rfl

theorem records_around (hcache : c.options.cache = false) {r : Nat} {name : String} {A : Act HostFunction}
    {L : (pos saved : Nat) → Log → Prop} {w : World} (h : Records w A L) :
    Records w (Around (c.inlineProgram bs) r name A) L := by
  intro st has cs v st' hx
  obtain ⟨st₁, hbody, rfl⟩ := (around_iff hcache).1 hx
  obtain ⟨has₀, hpos₀, hsaved₀⟩ := reported_keeps (p := c.inlineProgram bs) reports_enter has
  obtain ⟨l, hl, recorded⟩ := h _ has₀ _ _ _ hbody
  rw [hpos₀, hsaved₀] at hl
  have before := (reported_records (p := c.inlineProgram bs) reports_enter st).trans recorded
  rw [List.nil_append] at before
  exact ⟨l, hl, before.andNothing (reported_records reports_exit st₁)⟩

section Rules

variable (hcache : c.options.cache = false) (hc : Analysis.Matching.Complete c.grammar c.found) (hbs : bs.NeverFail)

include hcache hc hbs

theorem records_ruleExec (n r : Nat) :
    Records (c.world bs text source) (RuleExec (c.inlineProgram bs) n r) (LogsRule (c.world bs text source) r) := by
  induction n generalizing r with
  | zero => exact fun st _ cs v st' h => h.elim
  | succ n ih =>
    intro st has cs v st' hx
    obtain ⟨rule, hr, hx⟩ := ruleExec_succ_iff.1 hx
    rw [ofRule_unpruned hc hbs (gives_ruleExec hcache hc hbs n) hr] at hx
    have rules (t : RuleId) : Sound (c.world bs text source) (RuleExec (c.inlineProgram bs) n t)
        (EvalRule (c.world bs text source) t) := sound_ruleExec hcache hc hbs n t
    have body : Sound (c.world bs text source)
        ((c.setting bs).unpruned.meaning (RuleExec (c.inlineProgram bs) n) rule.body [])
        (Eval (c.world bs text source) rule.body []) := sound_expr rfl hbs rules rule.body []
    have logged : Records (c.world bs text source)
        ((c.setting bs).unpruned.meaning (RuleExec (c.inlineProgram bs) n) rule.body [])
        (Logs (c.world bs text source) rule.body []) := records_expr rfl hbs rules ih rule.body []
    have whole : Records (c.world bs text source)
        ((c.setting bs).unpruned.ofRule (RuleExec (c.inlineProgram bs) n) rule) (LogsRule (c.world bs text source) r) := by
      unfold Setting.ofRule
      split
      · rename_i name hn
        refine (records_named body logged name).mono ?_
        rintro pos saved _ ⟨cs, res, saved', h, rfl⟩
        exact .aliased hr hn h
      · rename_i hn
        exact logged.mono fun _ _ _ => .plain hr hn
    exact records_around hcache whole st has cs v st' hx

theorem records_ruleRuns (r : Nat) :
    Records (c.world bs text source) (RuleRuns (c.inlineProgram bs) r) (LogsRule (c.world bs text source) r) := by
  rintro st has cs v st' ⟨n, hx⟩
  exact records_ruleExec hcache hc hbs n r st has cs v st' hx

end Rules

end Compilation

/-! ## Errors -/

namespace Semantics

/-- The entry of a start rule that matched, but not to the end of the text; it matters only there. -/
def Result.ending {α : Type} : Result α → Log
  | .found _ stop => [(stop, .endOfInput)]
  | .failed => []

/-- The error is about the farthest failures of the log. -/
structure World.Diagnoses (w : World) (log : Log) (e : ParseError) : Prop where
  source : e.location.source = w.source
  start : e.location.start = w.input.position (farthest log)
  stop : e.location.stop = w.input.position (farthest log + (w.input.rest (farthest log)).head?.elim 0 Char.utf8Size)
  /-- The character there, if the text goes on there. -/
  found : e.found = (w.input.rest (farthest log)).head?.map Char.toString
  /-- What was expected there is listed in the order of its descriptions. -/
  ordered : (e.expected.map (·.text)).Pairwise (· < ·)
  /-- Of what has one description the first is listed. -/
  expected : ∀ x, x ∈ e.expected ↔ (expectedAt log (farthest log)).find? (fun y => y.text = x.text) = some x
  message : e.message =
    s!"Expected {ParseError.phrase (e.expected.map (·.text))} but {ParseError.foundText e.found} found."

/-- A run of a rule from the start of a text ended as the semantics tells, with a log of which this is reported. -/
structure World.Reports (w : World) (r : RuleId) (res : Result Value) (log : Log) (v : Value) (st : ParseState) : Prop where
  result : (∃ cs saved, EvalRule w r 0 0 cs res saved) ∧ res.Is 0 v st.pos
  /-- It is the log of the run, and there is no other. -/
  logged : ∀ l, LogsRule w r 0 0 l ↔ l = log
  maxFailPos : st.maxFailPos = farthest log
  expected : st.expected.toList = expectedAt log (farthest log)
  /-- A parse has a result just if the rule matched all of the text. -/
  ok : ∀ a, Parser.finish (.ok v) st = .ok a ↔ res = .found a w.input.size
  /-- Otherwise its error is about the farthest failures, the end of the text being expected where the rule stopped. -/
  error : ∀ e, Parser.finish (.ok v) st = .error e → ∃ why, e = .rejected why ∧ w.Diagnoses (log ++ res.ending) why

variable {w : World} {st : ParseState} {log : Log}

theorem World.Has.diagnoses (has : w.Has st) (h : st.failures = ⟨farthest log, expectedAt log (farthest log)⟩) :
    w.Diagnoses log st.error := by
  have hpos : st.maxFailPos = farthest log := congrArg Failures.pos h
  have hexpected : st.expected.toList = expectedAt log (farthest log) := congrArg Failures.expected h
  unfold ParseState.error ParseState.location ParseError.ofExpected
  rw [has.input, has.source, hpos, hexpected]
  dsimp only
  rw [ParseError.text_arrange]
  refine ⟨rfl, rfl, rfl, rfl, ?_, fun x => ?_, rfl⟩
  · dsimp only
    rw [← ParseError.text_arrange, List.pairwise_map]
    exact ParseError.pairwise_arrange _
  · dsimp only
    rw [List.mem_map]
    constructor
    · rintro ⟨y, hy, rfl⟩
      rw [ParseError.text_of_mem_arrange hy]
      exact ParseError.mem_arrange_iff.1 hy
    · intro first
      exact ⟨(x.text, x), ParseError.mem_arrange_iff.2 first, rfl⟩

/-- What is reported of a run of a rule, if failures were recorded as they are logged. -/
theorem World.reports_of_run {r : RuleId} {cs : List Call} {res : Result Value} {saved : Nat} {v : Value}
    (has : w.Has st) (heval : EvalRule w r 0 0 cs res saved) (his : res.Is 0 v st.pos) (hlog : LogsRule w r 0 0 log)
    (h : st.failures = recordAll ⟨0, []⟩ log) : w.Reports r res log v st := by
  have kept := h.trans (recordAll_start log)
  refine ⟨⟨⟨cs, saved, heval⟩, his⟩, fun l => ⟨fun hl => hl.definite hlog, fun hl => hl ▸ hlog⟩,
    congrArg Failures.pos kept, congrArg Failures.expected kept, fun a => ?_, fun e he => ?_⟩
  · -- the answer is the value of a match that takes all of the text
    unfold Parser.finish ParseState.finish
    dsimp only
    cases res with
    | failed =>
      obtain ⟨rfl, -⟩ := his
      simp [Value.isFailed, Except.mapError]
    | found b stop =>
      obtain ⟨rfl, rfl, hok⟩ := his
      rw [hok, has.input]
      by_cases hall : st.pos = w.input.size
      · simp [hall, Except.mapError]
      · simp [hall, Except.mapError]
  · unfold Parser.finish ParseState.finish at he
    dsimp only at he
    cases res with
    | failed =>
      obtain ⟨rfl, -⟩ := his
      cases he
      refine ⟨_, rfl, ?_⟩
      show w.Diagnoses (log ++ []) _
      rw [List.append_nil]
      exact has.diagnoses kept
    | found b stop =>
      obtain ⟨rfl, rfl, hok⟩ := his
      rw [hok] at he
      by_cases hall : st.pos = st.input.size
      · rw [if_neg Bool.false_ne_true, if_pos hall] at he
        cases he
      · -- a match that stops before the end fails to meet the end there
        rw [if_neg Bool.false_ne_true, if_neg hall] at he
        cases he
        refine ⟨_, rfl, ?_⟩
        have has' : w.Has (st.recordFailure st.pos .endOfInput) :=
          ⟨(st.recordFailure_input _ _).trans has.input, (st.recordFailure_source _ _).trans has.source⟩
        refine has'.diagnoses ?_
        rw [ParseState.failures_recordFailure, h, ← recordAll_concat]
        exact recordAll_start _

end Semantics

/-! ## Parses -/

/-- A parser that remembers no results reports the farthest failures of every run: those outside of lookaheads, of
terminals that no name covers and of names that no other name covers, in the order in which they happened. -/
theorem farthest_failures_are_reported {d : Draft} {g : Grammar} (hd : d.build? = .ok g) {o : CompileOptions}
    (hcache : o.cache = false) {s₀ : Session} (hchecks : Session.advance ⟨.start g o, []⟩ .check = .ok s₀)
    (haccepts : Diagnostics.check s₀.diagnostics = .ok ⟨⟩) :
    ∃ p, Parser.compiled Stage.transform.passes g o = .ok p ∧ ∀ bs : Bindings, bs.NeverFail → bs.Bind g.codes →
      ∀ (text : String) (po : ParseOptions) (r : RuleId), Parser.entry { p with bindings := bs } po = .ok r →
        ∃ v st res log, Parser.Ends { p with bindings := bs } text po (.ok v) st ∧
          World.Reports ⟨g, bs, text, po.source⟩ r res log v st := by
  obtain ⟨rfl, accepted, built, resolved⟩ := Session.accepted_of_checks hd hchecks haccepts
  -- the log is that of the grammar as it is written, so a parser with all proxies is run first
  obtain ⟨c, -, ready, same⟩ := accepted.compiled_proxies built resolved
  obtain ⟨c', hcompiled, ready', bypassed⟩ := accepted.compiled_bypassed built resolved
  refine ⟨_, hcompiled, fun bs hbs hbound text po r he => ?_⟩
  show ∃ v st res log, (c'.parserWith bs).Ends text po (.ok v) st ∧ _
  have hu : (c.parserWith bs).unbound? = none := ready.unbound?_eq_none built.removed hbound
  have hu' : (c'.parserWith bs).unbound? = none := ready'.unbound?_eq_none built.removed hbound
  have he : (c.parserWith bs).entry po = .ok r := ready.entry_congr ready' bs bs po ▸ he
  rcases ready.ends accepted built resolved bs text po with ⟨code, h⟩ | ⟨why, h⟩ | ⟨v, st, hends⟩
  · rw [hu] at h
    cases h
  · rw [he] at h
    cases h
  · obtain ⟨-, r', _, he', hrun⟩ := hends.ruleRuns
    rw [he] at he'
    cases he'
    obtain ⟨cs, -, hinline⟩ := (ready.coded.ruleRuns ..).1 hrun
    have off : c.options.cache = false := ready.options ▸ hcache
    have has : (c.world bs text po.source).Has (.start text po.source po.tracing) := ⟨rfl, rfl⟩
    obtain ⟨res, saved, heval, ends⟩ := Compilation.sound_ruleRuns off ready.complete hbs r _ has _ _ _ hinline
    obtain ⟨log, hlog, recorded⟩ := Compilation.records_ruleRuns off ready.complete hbs r _ has _ _ _ hinline
    have shortens := ready.shortens same ready' bypassed accepted built resolved
    obtain ⟨st', hends', input, source, pos, failures⟩ := ready.ends_bypassed ready' shortens accepted built hbs hu' hends
    have world : c.world bs text po.source = ⟨g, bs, text, po.source⟩ := by
      unfold Compilation.world
      rw [same]
    rw [world] at heval hlog ends
    refine ⟨v, st', res, log, hends', World.reports_of_run ?_ heval ?_ hlog ?_⟩
    · exact ⟨input ▸ ends.has.input, source ▸ ends.has.source⟩
    · exact pos ▸ ends.result
    · rw [← failures]
      exact recorded.failures

open Draft.Expr in
/-- `Start = "a" Sign "c" / &"x" . { f }` and `Sign "sign" = "+" / "-"`. -/
def signs : Draft := ⟨none, none, [
  .of "Start" (firstOf [seq [exactly "a", ref "Sign", exactly "c"],
    (seq [simpleAnd .empty (exactly "x"), any .empty]).thenDo "f"]) none,
  .of "Sign" (firstOf [exactly "+", exactly "-"]) (some "sign")]⟩

theorem farthest_failures_are_reported_signs : ∃ g s₀ p bs, signs.build? = .ok g ∧ CompileOptions.default.cache = false ∧
    Session.advance ⟨.start g .default, []⟩ .check = .ok s₀ ∧ Diagnostics.check s₀.diagnostics = .ok ⟨⟩ ∧
    Parser.compiled Stage.transform.passes g .default = .ok p ∧ bs = [("f", fun view _ => Value.str view.text)] ∧
    Bindings.NeverFail bs ∧ g.codes.length = 1 ∧ Bindings.Bind bs g.codes ∧
    Parser.entry { p with bindings := bs } default = .ok 0 ∧ ∀ text, ∃ v st res log,
      Parser.Ends { p with bindings := bs } text default (.ok v) st ∧
        World.Reports ⟨g, bs, text, none⟩ 0 res log v st := by
  obtain ⟨g, hg⟩ : ∃ g, signs.build? = .ok g := ⟨_, rfl⟩
  have hs₀ : Session.advance ⟨.start g .default, []⟩ .check = .ok (Session.checked g .default) := rfl
  have accepts : Diagnostics.check (Session.checked g .default).diagnostics = .ok ⟨⟩ := by cases hg; rfl
  obtain ⟨p, hp, reports⟩ := farthest_failures_are_reported hg rfl hs₀ accepts
  have starts : (Parser.compiled Stage.transform.passes g .default).map (·.startRules) = .ok [0] := by
    cases hg
    decide +kernel
  rw [hp] at starts
  have starts : p.startRules = [0] := Except.ok.inj starts
  have entry : Parser.entry { p with bindings := [("f", fun view _ => .str view.text)] } default = .ok 0 := by
    show Except.ok (p.startRules.headD 0) = _
    rw [starts]
    rfl
  have codes : g.codes = [⟨"f", .empty⟩] := by cases hg; rfl
  have never : Bindings.NeverFail [("f", fun view _ => .str view.text)] :=
    Bindings.neverFail_cons (fun _ _ => rfl) Bindings.neverFail_nil
  have bound : Bindings.Bind [("f", fun view _ => .str view.text)] g.codes := by
    rw [codes]
    intro code hcode
    cases List.mem_singleton.1 hcode
    exact ⟨_, rfl⟩
  exact ⟨g, _, p, _, hg, rfl, hs₀, accepts, hp, rfl, never, by rw [codes]; rfl, bound, entry,
    fun text => reports _ never bound text default 0 entry⟩

end PegCompiler
