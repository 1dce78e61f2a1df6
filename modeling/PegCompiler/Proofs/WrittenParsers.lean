/-
Source text parses as the machine does. The method that is written for a rule returns from a state just where the
machine comes to an end with the rule from there, whatever the state is, and both end with the same value and state; so the function that
parses answers as a parse by the machine. That is so with calls to any depth: a method calls others by name, of which
there is one for each rule that is left, since the checks refuse rules of one name.
-/
import PegCompiler.Proofs.Emit.Methods
import PegCompiler.Proofs.Frames

namespace PegCompiler

open Machine Analysis

theorem Grammar.live?_of_lookup {g : Grammar} {r : RuleId} {rule : Rule} (h : g.live.lookup r = some rule) :
    g.live? r = some rule := by
  obtain ⟨before, after, hlive, -⟩ := List.lookup_eq_some_iff.1 h
  refine Grammar.mem_live.1 ?_
  rw [hlive]
  simp

namespace Compilation

variable {c : Compilation} {q : WrittenParser} {hosts : HostMethods} {bs : Bindings} {st st' : ParseState} {v : Value}

/-! ## Functions -/

/-- Host code that is bound for methods is bound for the machine. -/
theorem unbound?_eq_none_of_implements (h : hosts.Implements c.constants bs) : (c.parserWith bs).unbound? = none := by
  refine unbound?_eq_none_iff.2 fun f hf => ?_
  obtain ⟨i, hi⟩ := List.mem_iff_getElem?.1 hf
  obtain ⟨host, hhost, -⟩ := h i f (Array.getElem?_toList.symm.trans hi)
  exact ⟨host, hhost⟩

/-- Statements find what the machine finds. -/
theorem serves_written (hq : Source.Prints c.parts q) (h : hosts.Implements c.constants bs) (r : RuleId) (rule : Rule) :
    (q.surroundings hosts).Serves (c.parserWith bs).program (c.bodyContext r rule).constants := by
  have hconstants : q.constants = c.constants := hq.constants
  refine ⟨?_, ?_, ?_, fun f function hf view args => ?_⟩
  · exact congrArg (fun k : Constants => Parser.constant k.literals .unknownLiteral) hconstants
  · exact congrArg (fun k : Constants => Parser.constant k.classes .unknownClass) hconstants
  · exact congrArg (fun k : Constants => Parser.constant k.expectations .unknownExpectation) hconstants
  · obtain ⟨host, hhost, agrees⟩ := h f function hf
    show Except.ok _ = (do let x ← (c.parserWith bs).function f; return hostResult x.1 (x.2 view args))
    rw [function_eq hf hhost]
    exact congrArg Except.ok (agrees view args).hostResult.symm

/-! ## Methods -/

/-- What the machine does around a rule, said with the options that its method was written for. -/
theorem around_method_iff {m : Method} {A : Act Nat} {cs : List (HostCall Nat)} :
    Around (c.parserWith bs).program m.rule m.name A st cs v st' ↔
      match if c.options.cache then (m.entered c.options st).remembered? m.rule else none with
      | some (w, st₁) => cs = [] ∧ v = w ∧ st' = Method.traced c.options (·.reportExit m.name st.pos w true) st₁
      | none => ∃ st₁, A (m.entered c.options st) cs v st₁ ∧
          st' = Method.traced c.options (·.reportExit m.name st.pos v false)
            (if c.options.cache then st₁.remember m.rule st.pos v else st₁) := Iff.rfl

/-- A method does around its statements what the machine does around the code of a rule. -/
theorem returns_iff_around {m : Method} {A : Act Nat}
    {body : List Statement → Locals → ParseState → Locals → ParseState → Prop}
    (h : ∀ st v st', (∃ cs, A st cs v st') ↔ ∃ l, body m.body.statements .fresh st l st' ∧ l.values 0 = v) :
    m.Returns c.options body st v st' ↔ ∃ cs, Around (c.parserWith bs).program m.rule m.name A st cs v st' := by
  simp only [around_method_iff]
  cases recalled : if c.options.cache then (m.entered c.options st).remembered? m.rule else none with
  | some x =>
    obtain ⟨w, st₁⟩ := x
    obtain ⟨hcache, hit⟩ : c.options.cache = true ∧ (m.entered c.options st).remembered? m.rule = some (w, st₁) := by
      split at recalled
      · exact ⟨by assumption, recalled⟩
      · cases recalled
    constructor
    · intro returns
      cases returns with
      | cached _ hit' =>
        cases hit.symm.trans hit'
        exact ⟨[], rfl, rfl, rfl⟩
      | computed miss => cases hit.symm.trans (miss hcache)
    · rintro ⟨cs, -, rfl, rfl⟩
      exact .cached hcache hit
  | none =>
    have miss (hcache : c.options.cache = true) : (m.entered c.options st).remembered? m.rule = none := by
      rw [if_pos hcache] at recalled
      exact recalled
    constructor
    · intro returns
      cases returns with
      | cached hcache hit => cases hit.symm.trans (miss hcache)
      | computed _ hbody =>
        obtain ⟨cs, hA⟩ := (h _ _ _).2 ⟨_, hbody, rfl⟩
        exact ⟨cs, _, hA, rfl⟩
    · rintro ⟨cs, st₁, hA, rfl⟩
      obtain ⟨l, hbody, rfl⟩ := (h _ _ _).1 ⟨cs, hA⟩
      exact .computed miss hbody

/-- What there is to a compilation when source text was written of it. -/
structure Writes (c : Compilation) (q : WrittenParser) : Prop where
  coded : c.Coded
  complete : Matching.Complete c.grammar c.found
  names : ∀ r rule r' rule', c.grammar.live? r = some rule → c.grammar.live? r' = some rule' →
    rule.name = rule'.name → r = r'
  prints : Source.Prints c.parts q

namespace Writes

variable (h : c.Writes q) (himplements : hosts.Implements c.constants bs)

include h himplements

/-- The statements of a rule return where its code comes to an end, if the methods that they call return where rules come to an
end. -/
theorem statements_iff_exec {n : Nat} {r : RuleId} {rule : Rule} (hr : c.grammar.live? r = some rule) {body : RuleBody}
    (hbody : RuleBody.ofCode (c.bodyContext r rule) (Code.decode (c.codeOf r).words) = .ok body)
    (calls : ∀ r rule, c.grammar.live? r = some rule → ∀ st v st',
      q.Calls hosts n rule.name st v st' ↔ ∃ cs, RuleExec (c.parserWith bs).program n r st cs v st') :
    (∃ cs, Exec (c.parserWith bs).program (RuleExec (c.parserWith bs).program n) (Code.decode (c.codeOf r).words) [] st cs
        [.value v] st') ↔
      ∃ l, Statement.Runs (q.surroundings hosts) (q.Calls hosts n) body.statements .fresh st l st' ∧ l.values 0 = v := by
  have rules : ∀ r rule, (c.parserWith bs).program.rules.getD r none = some rule → Code.Tidy 0 rule.code :=
    h.coded.tidy_rules h.complete (.refl _)
  have tidy : Code.Tidy 0 (Code.decode (c.codeOf r).words) := by
    refine rules r ⟨rule.name, _⟩ ?_
    show (Parser.rulesOf c).getD r none = _
    rw [getD_rulesOf, hr]
    rfl
  have walk := RuleBody.walk_of_ofCode hbody
  have serves := serves_written h.prints himplements r rule
  -- a name that statements call is the name of a rule that is left
  have named {r' : Nat} {name : String} (hname : (c.bodyContext r rule).ruleName? r' = some name) :
      ∃ rule', c.grammar.live? r' = some rule' ∧ rule'.name = name := by
    obtain ⟨rule', hlookup, rfl⟩ := Option.map_eq_some_iff.1 hname
    exact ⟨rule', Grammar.live?_of_lookup hlookup, rfl⟩
  constructor
  · rintro ⟨cs, hexec⟩
    obtain ⟨l, runs, hstack⟩ := walk.runs_of_exec serves (fun r st cs v st' hx => ruleExec_silent rules n r hx)
      (fun r' name hname st cs v st' hx => by
        obtain ⟨rule', hr', rfl⟩ := named hname
        exact (calls r' rule' hr' st v st').2 ⟨cs, hx⟩)
      hexec tidy (Nat.zero_le _) (l := .fresh) rfl
    cases hstack
    exact ⟨l, runs, rfl⟩
  · rintro ⟨l, runs, rfl⟩
    exact walk.exec_of_runs serves (fun r' name hname st v st' hx => by
      obtain ⟨rule', hr', rfl⟩ := named hname
      exact (calls r' rule' hr' st v st').1 hx) runs

/-- A call of the method of a rule returns where the rule comes to an end, with as many calls inside each other. -/
theorem calls_iff_ruleExec (n : Nat) (r : RuleId) (rule : Rule) (hr : c.grammar.live? r = some rule) (st : ParseState)
    (v : Value) (st' : ParseState) :
    q.Calls hosts n rule.name st v st' ↔ ∃ cs, RuleExec (c.parserWith bs).program n r st cs v st' := by
  induction n generalizing r rule st v st' with
  | zero => exact ⟨fun h => h.elim, fun ⟨_, h⟩ => h.elim⟩
  | succ n ih =>
    have hcode : (c.parserWith bs).program.rules.getD r none = some ⟨rule.name, Code.decode (c.codeOf r).words⟩ := by
      show (Parser.rulesOf c).getD r none = _
      rw [getD_rulesOf, hr]
      rfl
    have hoptions : q.options = c.options := h.prints.options
    -- the method of the rule is the only one of this name
    obtain ⟨m, hm, hmethod⟩ := h.prints.all r rule hr
    obtain ⟨body, hbody, rfl⟩ := Source.method_ok_iff.1 hmethod
    have method : Method.Returns ⟨rule.name, r, rule.span, body⟩ q.options
        (Statement.Runs (q.surroundings hosts) (q.Calls hosts n)) st v st' ↔
          ∃ cs, Around (c.parserWith bs).program r rule.name
            (fun st cs v st' => Exec (c.parserWith bs).program (RuleExec (c.parserWith bs).program n)
              (Code.decode (c.codeOf r).words) [] st cs [.value v] st') st cs v st' := by
      rw [hoptions]
      exact returns_iff_around fun st v st' => h.statements_iff_exec himplements hr hbody ih
    constructor
    · rintro ⟨m', hm', hname, returns⟩
      obtain ⟨r', rule', hr', hmethod'⟩ := h.prints.made m' hm'
      obtain ⟨body', hbody', rfl⟩ := Source.method_ok_iff.1 hmethod'
      obtain rfl := h.names r' rule' r rule hr' hr hname
      cases hr.symm.trans hr'
      cases hbody.symm.trans hbody'
      obtain ⟨cs, around⟩ := method.1 returns
      exact ⟨cs, _, hcode, around⟩
    · rintro ⟨cs, code, hcode', around⟩
      cases hcode.symm.trans hcode'
      exact ⟨_, hm, rfl, method.2 ⟨cs, around⟩⟩

/-- The method of a rule returns just where the machine comes to an end with the rule. -/
theorem returns_iff_rule {r : RuleId} {rule : Rule} (hr : c.grammar.live? r = some rule) :
    q.Returns hosts rule.name st v st' ↔ ∃ fuel, Machine.rule (c.parserWith bs).program fuel r st = .ok v st' := by
  rw [rule_ok_iff]
  constructor
  · rintro ⟨n, called⟩
    obtain ⟨cs, hx⟩ := (h.calls_iff_ruleExec himplements n r rule hr st v st').1 called
    exact ⟨cs, n, hx⟩
  · rintro ⟨cs, n, hx⟩
    exact ⟨n, (h.calls_iff_ruleExec himplements n r rule hr st v st').2 ⟨cs, hx⟩⟩

end Writes

/-! ## Parses -/

/-- A parse starts from the same rule, or from none. -/
theorem entry_written (hq : Source.Prints c.parts q) (nonempty : c.startRules ≠ [])
    (live : ∀ r ∈ c.startRules, ∃ rule, c.grammar.live? r = some rule) (bs : Bindings) (po : ParseOptions) :
    (∃ r rule, (c.parserWith bs).entry po = .ok r ∧ c.grammar.live? r = some rule ∧ q.startRule po = rule.name ∧
      rule.name ∈ q.startRules) ∨
    (c.parserWith bs).entry po = .error (.unknownStartRule (q.startRule po) po.source) ∧ q.startRule po ∉ q.startRules := by
  have names : q.startRules = c.startRules.map c.grammar.ruleName := hq.startRules
  have named {r : RuleId} {rule : Rule} (hr : c.grammar.live? r = some rule) : c.grammar.ruleName r = rule.name := by
    unfold Grammar.ruleName
    rw [Grammar.rule?_of_live? hr]
    rfl
  have mem {r : RuleId} {rule : Rule} (hm : r ∈ c.startRules) (hr : c.grammar.live? r = some rule) :
      rule.name ∈ q.startRules := by
    rw [names, ← named hr]
    exact List.mem_map_of_mem hm
  unfold WrittenParser.startRule
  -- without a name, both start from the first start rule
  cases hname : po.startRule with
  | none =>
    obtain ⟨first, rest, hstart⟩ := List.exists_cons_of_ne_nil nonempty
    have hfirst : first ∈ c.startRules := hstart ▸ List.mem_cons_self
    obtain ⟨rule, hr⟩ := live first hfirst
    refine .inl ⟨first, rule, ?_, hr, ?_, mem hfirst hr⟩
    · unfold Parser.entry
      rw [hname]
      show Except.ok (c.startRules.headD 0) = _
      rw [hstart]
      rfl
    · show q.startRules.headD "" = _
      rw [names, hstart]
      exact named hr
  | some name =>
    rw [entry_parserWith c bs hname]
    -- what is written looks for the name, the machine for a rule that has it
    cases hfind : c.startRules.find? fun r => (c.parserWith bs).ruleName? r == some name with
    | some r =>
      have hm := List.mem_of_find?_eq_some hfind
      obtain ⟨rule, hr⟩ := live r hm
      have same : ((c.parserWith bs).ruleName? r == some name) = true :=
        List.find?_some (p := fun r => (c.parserWith bs).ruleName? r == some name) hfind
      rw [ruleName?_parserWith, hr] at same
      exact .inl ⟨r, rule, rfl, hr, (Option.some.inj (beq_iff_eq.1 same)).symm, mem hm hr⟩
    | none =>
      refine .inr ⟨rfl, fun hname => ?_⟩
      rw [names] at hname
      obtain ⟨r, hm, hr⟩ := List.mem_map.1 hname
      obtain ⟨rule, hlive⟩ := live r hm
      refine List.find?_eq_none.1 hfind r hm ?_
      rw [ruleName?_parserWith, hlive, Option.map_some, ← named hlive, hr]
      exact beq_self_eq_true _

/-- The answer of the function that parses is the one of a parse by the machine. -/
theorem Writes.parses_of_ends (h : c.Writes q) (himplements : hosts.Implements c.constants bs) {r : RuleId} {rule : Rule}
    (hr : c.grammar.live? r = some rule) {text : String} {po : ParseOptions} (hentry : (c.parserWith bs).entry po = .ok r)
    (hasked : q.startRule po = rule.name) (hmem : rule.name ∈ q.startRules)
    (hends : (c.parserWith bs).Ends text po (.ok v) st) (answer : Except ParseError Value) :
    q.Parses hosts text po answer ↔ answer = (st.finish v).1 := by
  obtain ⟨bound, r', cs, hentry', runs⟩ := hends.ruleRuns
  cases hentry.symm.trans hentry'
  have hmem' : q.startRule po ∈ q.startRules := hasked ▸ hmem
  constructor
  · intro hparses
    cases hparses with
    | unknown hnone => exact absurd hmem' hnone
    | @finished v' st' _ returns =>
      rw [hasked, h.returns_iff_rule himplements hr, rule_ok_iff] at returns
      obtain ⟨cs', runs'⟩ := returns
      obtain ⟨-, rfl, rfl⟩ := ruleRuns_definite r runs runs'
      rfl
  · rintro rfl
    refine .finished hmem' ?_
    rw [hasked, h.returns_iff_rule himplements hr, rule_ok_iff]
    exact ⟨cs, runs⟩

end Compilation

/-! ## Functions that are there -/

namespace Bindings

/-- Methods that do what the functions do that are bound to their code. -/
def methods (bs : Bindings) (k : Constants) : HostMethods := fun kind i view args =>
  let v := ((k.functions.get? i).bind fun f => bs.find? f.code).elim .null fun host => host view args
  match kind with
  | .action => v
  | .predicate => v.truthy
  | .boundary => v.count?.getD 0

/-- They do if functions that bound repetitions give counts. -/
theorem implements_methods {bs : Bindings} {k : Constants} (hbound : ∀ f ∈ k.functions.toList, ∃ host, bs.find? f.code = some host)
    (hcounts : ∀ f ∈ k.functions.toList, f.kind = .boundary → ∀ host, bs.find? f.code = some host →
      ∀ view args, ∃ n, n ≤ 9223372036854775807 ∧ host view args = .int (n : Nat)) :
    (bs.methods k).Implements k bs := by
  intro i f hf
  have mem : f ∈ k.functions.toList := List.mem_iff_getElem?.2 ⟨i, Array.getElem?_toList.trans hf⟩
  obtain ⟨host, hhost⟩ := hbound f mem
  refine ⟨host, hhost, fun view args => ?_⟩
  have found : ((k.functions.get? i).bind fun f => bs.find? f.code) = some host := by
    rw [hf]
    exact hhost
  unfold methods
  simp only [found, Option.elim_some]
  cases hkind : f.kind with
  | action => rfl
  | predicate => rfl
  | boundary =>
    obtain ⟨n, hn, hv⟩ := hcounts f mem hkind host hhost view args
    show host view args = .ofCount ((host view args).count?.getD 0)
    rw [hv]
    simp only [Value.count?, Value.ofCount, Int.natCast_nonneg, if_true, Option.getD_some, Int.toNat_natCast, Value.int.injEq]
    omega

end Bindings

/-- Source text parses as the machine does. -/
structure Compilation.Agrees (c : Compilation) (bs : Bindings) (hosts : HostMethods) (p : Parser) (q : WrittenParser) :
    Prop where
  /-- From any state the method of a rule returns with the value and the state that the rule ends with in the machine, or
  neither comes to an end. -/
  rules : ∀ r rule, c.grammar.live? r = some rule → ∀ st v st', q.Returns hosts rule.name st v st' ↔
    ∃ fuel, Machine.rule (Parser.program { p with bindings := bs }) fuel r st = .ok v st'
  /-- Every text has an answer, one only, which is that of a parse by the machine, whatever rule is asked for. -/
  parses : ∀ (text : String) (po : ParseOptions), ∃ answer result st, (∀ a, q.Parses hosts text po a ↔ a = answer) ∧
    Parser.Ends { p with bindings := bs } text po result st ∧ Parser.finish result st = answer.mapError .rejected

/-- The source text that is written of a grammar parses as the machine does with the same code, if its methods for host
code do what the functions do that are bound for the machine. -/
theorem written_parsers_agree {d : Draft} {g : Grammar} (hd : d.build? = .ok g) {o : CompileOptions} {s : Session}
    (hs : Session.complete g o = .ok s) :
    ∃ p q, Parser.ofCompilation s.compilation = .ok p ∧ Source.parser s.compilation.parts = .ok q ∧
      ∀ (bs : Bindings) (hosts : HostMethods), hosts.Implements s.compilation.constants bs →
        s.compilation.Agrees bs hosts p q := by
  have accepted := Session.accepted_of_complete hs
  have built := Draft.built hd
  have resolved : g.Resolved := built.resolved accepted.excludes.references
  obtain ⟨-, ready, w, hw⟩ := accepted.completed built resolved hs
  obtain ⟨q, hq⟩ := Source.parser_of_write hw
  generalize s.compilation = c at ready hw hq
  have nonempty : c.startRules ≠ [] := (Source.rules_of_write hw).1
  have writes : c.Writes q :=
    { coded := ready.coded
      complete := ready.complete
      names := fun r rule r' rule' hr hr' same => accepted.names_of built ready.bypasses hr hr' same
      prints := Source.parser_prints hq }
  refine ⟨_, q, Compilation.ofCompilation_ok nonempty, hq, fun bs hosts himplements => ⟨?_, fun text po => ?_⟩⟩
  · exact fun r rule hr st v st' => writes.returns_iff_rule himplements hr
  · have bound := Compilation.unbound?_eq_none_of_implements himplements
    have live : ∀ r ∈ c.startRules, ∃ rule, c.grammar.live? r = some rule := by
      intro r hr
      obtain ⟨rule, f, -, hlive⟩ := ready.start_live hr
      exact ⟨_, hlive⟩
    rcases Compilation.entry_written writes.prints nonempty live bs po with
      ⟨r, rule, hentry, hr, hasked, hmem⟩ | ⟨hentry, hnone⟩
    · -- a parse that starts comes to an end on the machine, and the functions answer alike
      rcases ready.ends accepted built resolved bs text po with ⟨code, hu⟩ | ⟨why, he⟩ | ⟨v, st, hends⟩
      · cases bound.symm.trans hu
      · cases hentry.symm.trans he
      · exact ⟨_, _, st, writes.parses_of_ends himplements hr hentry hasked hmem hends, hends, rfl⟩
    · refine ⟨.error (.unknownStartRule (q.startRule po) po.source), _, _, fun a => ?_, Parser.ends_rejected bound hentry, rfl⟩
      constructor
      · intro hparses
        cases hparses with
        | unknown => rfl
        | finished h => exact absurd h hnone
      · rintro rfl
        exact .unknown hnone

/-- The parsers of the samples, with remembered results and without. -/
theorem written_parsers_agree_samples : [Sample.pair, Sample.sum].Forall fun x => ∀ cache, ∃ g s p q,
    x.draft.build? = .ok g ∧ Session.complete g { CompileOptions.default with output := .source, cache } = .ok s ∧
    Parser.ofCompilation s.compilation = .ok p ∧ Source.parser s.compilation.parts = .ok q ∧
    (Bindings.methods x.bindings s.compilation.constants).Implements s.compilation.constants x.bindings ∧
    s.compilation.Agrees x.bindings (Bindings.methods x.bindings s.compilation.constants) p q := by
  have agree (x : Sample) (cache : Bool) {g : Grammar} (hg : x.draft.build? = .ok g)
      (full : ∀ rule ∈ g.rules, rule.body.isHollow = false)
      (accepts : Diagnostics.check (Session.checks g { CompileOptions.default with output := .source, cache }) = .ok ⟨⟩)
      (known : (Parser.compiled Stage.transform.passes g { CompileOptions.default with output := .source, cache }).map
        (fun p => p.functions.all fun f => f.1 ≠ .boundary && (Bindings.find? x.bindings f.2).isSome) = .ok true) :
      ∃ g s p q, x.draft.build? = .ok g ∧
        Session.complete g { CompileOptions.default with output := .source, cache } = .ok s ∧
        Parser.ofCompilation s.compilation = .ok p ∧ Source.parser s.compilation.parts = .ok q ∧
        (Bindings.methods x.bindings s.compilation.constants).Implements s.compilation.constants x.bindings ∧
        s.compilation.Agrees x.bindings (Bindings.methods x.bindings s.compilation.constants) p q := by
    have accepted : Session.Accepted g { CompileOptions.default with output := .source, cache } := accepts
    have built := Draft.built hg
    have resolved : g.Resolved := built.resolved accepted.excludes.references
    obtain ⟨s, hs⟩ := accepted.completes built resolved full
    obtain ⟨p, q, hp, hq, agrees⟩ := written_parsers_agree hg hs
    obtain ⟨hcompiled, -, -⟩ := accepted.completed built resolved hs
    rw [hcompiled] at known
    have functions : ∀ f ∈ s.compilation.constants.functions.toList,
        f.kind ≠ .boundary ∧ (Bindings.find? x.bindings (Bindings.key f.code)).isSome = true := by
      intro f hf
      have all := List.all_eq_true.1 (Except.ok.inj known) _ (List.mem_map_of_mem hf)
      simpa using all
    have implements : (Bindings.methods x.bindings s.compilation.constants).Implements s.compilation.constants x.bindings := by
      refine Bindings.implements_methods (fun f hf => ?_) fun f hf hkind => absurd hkind (functions f hf).1
      rw [← Bindings.find?_key x.bindings]
      exact Option.isSome_iff_exists.1 (functions f hf).2
    exact ⟨g, s, p, q, hg, hs, hp, hq, implements, agrees _ _ implements⟩
  obtain ⟨g, hg⟩ : ∃ g, Sample.pair.draft.build? = .ok g := ⟨_, rfl⟩
  obtain ⟨g', hg'⟩ : ∃ g, Sample.sum.draft.build? = .ok g := ⟨_, rfl⟩
  refine ⟨fun cache => agree _ cache hg ?_ ?_ ?_, fun cache => agree _ cache hg' ?_ ?_ ?_⟩
  · cases hg
    decide +kernel
  · cases hg
    cases cache <;> decide +kernel
  · cases hg
    cases cache <;> decide +kernel
  · cases hg'
    decide +kernel
  · cases hg'
    cases cache <;> decide +kernel
  · cases hg'
    cases cache <;> decide +kernel

end PegCompiler
