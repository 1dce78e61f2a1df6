/-
What a parse answers is told by the grammar alone. The semantics tells how the start rule ends and the log of what
failed, and these tell the value of a parse, or the whole of its error. So parsers of one grammar have the same answer,
whether they remember results or not, and whether a machine runs the code or the source text that is written of it.
-/
import PegCompiler.Proofs.Diagnosis
import PegCompiler.Proofs.Memoization
import PegCompiler.Proofs.WrittenParsers

namespace PegCompiler

open Machine Semantics

/-! ## Answers of grammars -/

namespace Semantics

variable {w : World} {r : RuleId}

/-- What was expected is told by the failures: a list in order has no two descriptions that are the same. -/
theorem World.Diagnoses.expected_eq {log : Log} {e e' : ParseError} (h : w.Diagnoses log e) (h' : w.Diagnoses log e') :
    e.expected = e'.expected := by
  have ordered {e : ParseError} (h : w.Diagnoses log e) : e.expected.Pairwise fun x y => x.text < y.text :=
    List.pairwise_map.1 h.ordered
  have nodup {e : ParseError} (h : w.Diagnoses log e) : e.expected.Nodup :=
    (ordered h).imp fun hlt same => (same ▸ hlt).ne rfl
  have perm := (List.perm_ext_iff_of_nodup (nodup h) (nodup h')).2 fun x => by rw [h.expected, h'.expected]
  exact perm.eq_of_pairwise (fun x y _ _ hxy hyx => absurd (hxy.trans hyx) (lt_irrefl _)) (ordered h) (ordered h')

/-- An error is told by the failures that it is about. -/
theorem World.Diagnoses.definite {log : Log} {e e' : ParseError} (h : w.Diagnoses log e) (h' : w.Diagnoses log e') :
    e = e' := by
  have expected := h.expected_eq h'
  have message : e.message = e'.message := by rw [h.message, h'.message, expected, h.found, h'.found]
  obtain ⟨_, _, _, _, _, _⟩ := e
  obtain ⟨_, _, _, _, _, _⟩ := e'
  cases expected
  cases message
  cases h.found.trans h'.found.symm
  cases h.source.trans h'.source.symm
  cases h.start.trans h'.start.symm
  cases h.stop.trans h'.stop.symm
  rfl

/-- The answer of a parse that starts from a rule: the value of the rule if it matched all of the text, or else the error
about the farthest failures. -/
inductive World.Answers (w : World) (r : RuleId) : Except ParseError Value → Prop
  | accepted {cs saved} (h : EvalRule w r 0 0 cs (.found v w.input.size) saved) : Answers w r (.ok v)
  | rejected {cs res saved log} (h : EvalRule w r 0 0 cs res saved) (hres : ∀ v, res ≠ .found v w.input.size)
      (hlog : LogsRule w r 0 0 log) (hwhy : w.Diagnoses (log ++ res.ending) why) : Answers w r (.error why)

theorem EvalRule.definite {pos saved s₁ s₂ : Nat} {cs₁ cs₂ : List Call} {r₁ r₂ : Result Value}
    (h₁ : EvalRule w r pos saved cs₁ r₁ s₁) (h₂ : EvalRule w r pos saved cs₂ r₂ s₂) : r₁ = r₂ := by
  obtain ⟨rule, hr, h₁⟩ := h₁
  obtain ⟨rule', hr', h₂⟩ := h₂
  cases hr.symm.trans hr'
  exact (h₁.definite h₂).2.1

/-- A grammar tells one answer at most. -/
theorem World.Answers.definite {a a' : Except ParseError Value} (h : w.Answers r a) (h' : w.Answers r a') : a = a' := by
  cases h with
  | accepted h =>
    cases h' with
    | accepted h' => cases h.definite h'; rfl
    | rejected h' hres => exact absurd (h'.definite h) (hres _)
  | rejected h hres hlog hwhy =>
    cases h' with
    | accepted h' => exact absurd (h.definite h') (hres _)
    | rejected h' hres' hlog' hwhy' =>
      cases h.definite h'
      cases hlog.definite hlog'
      rw [hwhy.definite hwhy']

/-- A run that is reported right has the answer of the grammar. -/
theorem World.Reports.answers {res : Result Value} {log : Log} {v : Value} {st : ParseState}
    (h : w.Reports r res log v st) : ∃ a, Parser.finish (.ok v) st = a.mapError .rejected ∧ w.Answers r a := by
  obtain ⟨⟨cs, saved, heval⟩, -⟩ := h.result
  cases hfinish : Parser.finish (.ok v) st with
  | ok a =>
    obtain rfl := (h.ok a).1 hfinish
    exact ⟨.ok a, rfl, .accepted heval⟩
  | error e =>
    obtain ⟨why, rfl, hwhy⟩ := h.error e hfinish
    refine ⟨.error why, rfl, .rejected heval (fun a ha => ?_) ((h.logged log).2 rfl) hwhy⟩
    rw [(h.ok a).2 ha] at hfinish
    cases hfinish

end Semantics

/-! ## Answers of parsers -/

/-- A parse of a text by the machine comes to an end with this answer. -/
def Parser.Answers (p : Parser) (text : String) (po : ParseOptions) (a : Except ParseError Value) : Prop :=
  ∃ result st, p.Ends text po result st ∧ Parser.finish result st = a.mapError .rejected

section Parsers

variable {g : Grammar} {o : CompileOptions} {c c' : Compilation} {bs : Bindings} {text : String} {po : ParseOptions}
  {r : RuleId}

/-- The functions that are bound to all code of a grammar neither fail nor, where they bound repetitions, look back. -/
structure Bindings.Serve (bs : Bindings) (g : Grammar) : Prop where
  neverFail : bs.NeverFail
  bound : bs.Bind g.codes
  ignoreSaved : bs.IgnoreSaved g.bounds

/-- A parser that remembers nothing has the answer of the grammar as it is written, with all its proxies. -/
theorem Session.Accepted.answers_plain (h : Session.Accepted g o) (hg : g.Built) (hres : g.Resolved)
    (hcache : o.cache = false) (ready : c.Ready g o)
    (bypassed : c.grammar = (g.removeProxies (Analysis.startRules g o.allowedStartRules).1).1) (hbs : bs.Serve g)
    (he : (c.parserWith bs).entry po = .ok r) (text : String) :
    ∃ v st a, (c.parserWith bs).Ends text po (.ok v) st ∧ Parser.finish (.ok v) st = a.mapError .rejected ∧
      World.Answers ⟨g, bs, text, po.source⟩ r a := by
  obtain ⟨c₀, -, ready₀, same⟩ := h.compiled_proxies hg hres
  have hu := ready.unbound?_eq_none hg.removed hbs.bound
  have he₀ : (c₀.parserWith bs).entry po = .ok r := ready₀.entry_congr ready bs bs po ▸ he
  obtain ⟨calls, v, st, linked, runs⟩ := ready₀.runs h hg hres bs text po (ready₀.unbound?_eq_none hg.removed hbs.bound) he₀
  have hends := Parser.ends_of_ruleRuns (ready₀.unbound?_eq_none hg.removed hbs.bound) he₀ linked
  have off : c₀.options.cache = false := ready₀.options ▸ hcache
  have has : (c₀.world bs text po.source).Has (.start text po.source po.tracing) := ⟨rfl, rfl⟩
  obtain ⟨res, saved, heval, ends⟩ := Compilation.sound_ruleRuns off ready₀.complete hbs.neverFail r _ has _ _ _ runs
  obtain ⟨log, hlog, recorded⟩ := Compilation.records_ruleRuns off ready₀.complete hbs.neverFail r _ has _ _ _ runs
  have shortens := ready₀.shortens same ready bypassed h hg hres
  obtain ⟨st', hends', input, source, pos, failures⟩ := ready₀.ends_bypassed ready shortens h hg hbs.neverFail hu hends
  have world : c₀.world bs text po.source = ⟨g, bs, text, po.source⟩ := by
    unfold Compilation.world
    rw [same]
  rw [world] at heval hlog ends
  have reports : World.Reports ⟨g, bs, text, po.source⟩ r res log v st' :=
    World.reports_of_run ⟨input ▸ ends.has.input, source ▸ ends.has.source⟩ heval (pos ▸ ends.result) hlog
      (failures ▸ recorded.failures)
  obtain ⟨a, hfinish, answers⟩ := reports.answers
  exact ⟨v, st', a, hends', hfinish, answers⟩

/-- One that remembers results has the same answer as one that does not. -/
theorem Compilation.Ready.ends_remembering (ready : c.Ready g o) (hg : g.Built) (hbs : bs.Serve g) {v : Value}
    {st : ParseState} (hends : ((c.withCache false).parserWith bs).Ends text po (.ok v) st) :
    ∃ st', ((c.withCache true).parserWith bs).Ends text po (.ok v) st' ∧
      Parser.finish (.ok v) st = Parser.finish (.ok v) st' := by
  obtain ⟨hu, r, _, he, hrun⟩ := hends.ruleRuns
  have hu' : ((c.withCache true).parserWith bs).unbound? = none := hu
  have he' : ((c.withCache true).parserWith bs).entry po = .ok r := he
  obtain ⟨cs, rfl, n, hrun⟩ := ((ready.withCache false).coded.ruleRuns ..).1 hrun
  have bounds : c.BoundsIgnoreSaved bs := ⟨g.bounds, hbs.ignoreSaved, fun r rule e hr he code hc =>
    ready.bypasses.mem_bounds hg.removed hr he hc⟩
  have start : c.Remembers bs (.start text po.source po.tracing) (.start text po.source po.tracing) :=
    ⟨rfl, rfl, rfl, rfl, .refl _, fun key entry hentry => by
      rw [show (ParseState.start text po.source po.tracing).cache = {} from rfl, Std.HashMap.getElem?_empty] at hentry
      cases hentry⟩
  obtain ⟨cs', st', hrun', stays⟩ := Compilation.simulates_remembers bounds n r _ _ start cs v st hrun
  have runs : RuleRuns ((c.withCache true).parserWith bs).program r _ _ v st' :=
    ((ready.withCache true).coded.ruleRuns ..).2 ⟨cs', rfl, hrun'⟩
  have same := stays.related
  exact ⟨st', Parser.ends_of_ruleRuns hu' he' runs, Parser.finish_congr same.input same.source same.pos same.failures _⟩

/-- Whether it remembers results or not, the parser of an accepted grammar has the answer of the grammar. -/
theorem Session.Accepted.answers (h : Session.Accepted g o) (hg : g.Built) (hres : g.Resolved) (ready : c.Ready g o)
    (bypassed : c.grammar = (g.removeProxies (Analysis.startRules g o.allowedStartRules).1).1) (hbs : bs.Serve g)
    (he : (c.parserWith bs).entry po = .ok r) (text : String) :
    ∃ v st a, (c.parserWith bs).Ends text po (.ok v) st ∧ Parser.finish (.ok v) st = a.mapError .rejected ∧
      World.Answers ⟨g, bs, text, po.source⟩ r a := by
  have plain : Session.Accepted g { o with cache := false } := h
  obtain ⟨v, st, a, hends, hfinish, answers⟩ :=
    plain.answers_plain hg hres rfl (ready.withCache false) bypassed hbs he text
  cases hcache : o.cache with
  | false =>
    have same : c.withCache false = c := by
      rw [← hcache, ← ready.options]
      rfl
    exact ⟨v, st, a, same ▸ hends, hfinish, answers⟩
  | true =>
    have same : c.withCache true = c := by
      rw [← hcache, ← ready.options]
      rfl
    obtain ⟨st', hends', again⟩ := ready.ends_remembering hg hbs hends
    exact ⟨v, st', a, same ▸ hends', again ▸ hfinish, answers⟩

/-- The parser of a finished compilation has it, and so has the source text that was written. -/
theorem Session.answers_of_complete (hg : g.Built) {s : Session} (hs : Session.complete g o = .ok s)
    {q : WrittenParser} (hq : Source.parser s.compilation.parts = .ok q) (hbs : bs.Serve g)
    (he : (s.compilation.parserWith bs).entry po = .ok r) (text : String) :
    ∃ a, World.Answers ⟨g, bs, text, po.source⟩ r a ∧ (s.compilation.parserWith bs).Answers text po a ∧
      ∀ hosts : HostMethods, hosts.Implements s.compilation.constants bs → ∀ a', q.Parses hosts text po a' ↔ a' = a := by
  have accepted := Session.accepted_of_complete hs
  have resolved : g.Resolved := hg.resolved accepted.excludes.references
  obtain ⟨hcompiled, ready, -⟩ := accepted.completed hg resolved hs
  generalize s.compilation = c at hcompiled ready hq he ⊢
  -- the same parser is compiled by the passes up to the code
  obtain ⟨c', hcompiled', ready', bypassed⟩ := accepted.compiled_bypassed hg resolved
  have same : c'.parserWith bs = c.parserWith bs :=
    congrArg (fun p : Parser => { p with bindings := bs }) (Except.ok.inj (hcompiled'.symm.trans hcompiled))
  obtain ⟨v, st, a, hends, hfinish, answers⟩ := accepted.answers hg resolved ready' bypassed hbs (same ▸ he) text
  rw [same] at hends
  refine ⟨a, answers, ⟨_, st, hends, hfinish⟩, fun hosts himplements a' => ?_⟩
  have writes : c.Writes q :=
    { coded := ready.coded
      complete := ready.complete
      names := fun r rule r' rule' hr hr' same => accepted.names_of hg ready.bypasses hr hr' same
      prints := Source.parser_prints hq }
  have live : ∀ r ∈ c.startRules, ∃ rule, c.grammar.live? r = some rule := fun r hr => by
    obtain ⟨rule, f, -, hlive⟩ := ready.start_live hr
    exact ⟨_, hlive⟩
  have nonempty : c.startRules ≠ [] := ready.startRules ▸ accepted.startRules_ne_nil
  rcases Compilation.entry_written writes.prints nonempty live bs po with
    ⟨r', rule, he', hr, hasked, hmem⟩ | ⟨he', -⟩
  · rw [writes.parses_of_ends himplements hr he' hasked hmem hends]
    have answer : (st.finish v).1 = a := by
      have hfinish : (st.finish v).1.mapError RunError.rejected = a.mapError .rejected := hfinish
      cases h : (st.finish v).1 <;> cases a <;> rw [h] at hfinish <;> cases hfinish <;> rfl
    rw [answer]
  · cases he.symm.trans he'

end Parsers

end PegCompiler
