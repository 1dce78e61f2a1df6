/-
Parsers of accepted grammars come to an end on every text, whatever host code answers. Rules move on (`advances_rules`),
so a call of a rule comes to an end by induction on what is left of the text and, where nothing was consumed since
another call, on the order of calls that consume nothing.
-/
import Mathlib.Logic.Relation
import PegCompiler.Proofs.Meaning.Simulation
import PegCompiler.Proofs.Termination.Halts

namespace PegCompiler

open Machine Analysis

/-! ## What runs leave as it is -/

/-- A call of a rule that begins at a position comes to no call that would be remembered under a key. -/
def Grammar.OutOfReach (g : Grammar) (key : CacheKey) (r : RuleId) (pos : Nat) : Prop :=
  key.pos < pos ∨ key.pos = pos ∧ ¬ Relation.ReflTransGen (fun r t => LeftCalls g t r) r key.rule

namespace Grammar.OutOfReach

variable {g : Grammar} {key : CacheKey} {r t : RuleId} {pos stop : Nat}

/-- Nor do calls after something was consumed. -/
theorem further (h : g.OutOfReach key r pos) (hlt : pos < stop) (t : RuleId) : g.OutOfReach key t stop := by
  refine .inl ?_
  rcases h with h | ⟨h, -⟩
  · exact h.trans hlt
  · exact h ▸ hlt

/-- Nor do calls before anything was consumed. -/
theorem here (h : g.OutOfReach key r pos) (ht : LeftCalls g t r) : g.OutOfReach key t pos :=
  h.imp id fun ⟨hpos, hreach⟩ => ⟨hpos, fun reaches => hreach (.head ht reaches)⟩

theorem ne (h : g.OutOfReach key r pos) (silent : Bool) : key ≠ ⟨pos, r, silent⟩ := by
  rintro rfl
  rcases h with h | ⟨-, hreach⟩
  · exact absurd h (Nat.lt_irrefl _)
  · exact hreach .refl

end Grammar.OutOfReach

namespace Machine

/-- A run is as silent after it as it was before, and remembers the same under these keys. -/
structure Leaves (keys : CacheKey → Prop) (st st' : ParseState) : Prop where
  silent : st'.silent = st.silent
  cache : ∀ key, keys key → st'.cache[key]? = st.cache[key]?

namespace Leaves

variable {keys : CacheKey → Prop} {st st₁ st₂ : ParseState}

theorem trans (h : Leaves keys st st₁) (h' : Leaves keys st₁ st₂) : Leaves keys st st₂ :=
  ⟨h'.silent.trans h.silent, fun key hk => (h'.cache key hk).trans (h.cache key hk)⟩

theorem move (h : Leaves keys st st₁) (pos : Nat) : Leaves keys st { st₁ with pos } := ⟨h.silent, h.cache⟩

theorem reported {p : Program Inline} {f : ParseState → ParseState} (hf : Reports f) (st : ParseState) :
    Leaves keys st (reported p f st) := by
  obtain ⟨trace, htrace⟩ := hf.reported p st
  rw [htrace]
  exact ⟨rfl, fun _ _ => rfl⟩

theorem remember (h : Leaves keys st st₁) {r start : Nat} (hkeys : ∀ key, keys key → ∀ silent, key ≠ ⟨start, r, silent⟩)
    (v : Value) : Leaves keys st (st₁.remember r start v) := by
  refine ⟨h.silent, fun key hk => ?_⟩
  unfold ParseState.remember
  rw [Std.HashMap.getElem?_insert, if_neg, h.cache key hk]
  intro hkey
  exact hkeys key hk _ (beq_iff_eq.1 hkey).symm

/-- A rule leaves what its body leaves, but for its own key. -/
theorem around {p : Program Inline} {r : Nat} {name : String} {A : Act HostFunction}
    (hkeys : ∀ key, keys key → ∀ silent, key ≠ ⟨st.pos, r, silent⟩)
    (hA : ∃ cs v st', A (Machine.reported p (·.reportEnter name st.pos) st) cs v st' ∧
      Leaves keys (Machine.reported p (·.reportEnter name st.pos) st) st') :
    ∃ cs v st', Around p r name A st cs v st' ∧ Leaves keys st st' := by
  have enter : Reports (·.reportEnter name st.pos) := reports_enter
  have entered : Leaves keys st (Machine.reported p (·.reportEnter name st.pos) st) := reported enter st
  unfold Around
  split
  · rename_i w st₁ hrecalled
    refine ⟨[], w, _, ⟨rfl, rfl, rfl⟩, .trans ?_ (reported reports_exit st₁)⟩
    split at hrecalled
    · unfold ParseState.remembered? at hrecalled
      obtain ⟨entry, -, e⟩ := Option.map_eq_some_iff.1 hrecalled
      cases e
      exact entered.move entry.next
    · cases hrecalled
  · obtain ⟨cs, v, st₁, hx, leaves⟩ := hA
    refine ⟨cs, v, _, ⟨st₁, hx, rfl⟩, .trans ?_ (reported reports_exit _)⟩
    split
    · exact (entered.trans leaves).remember hkeys v
    · exact entered.trans leaves

end Leaves

theorem lockstep_leaves (keys : CacheKey → Prop) (base : ParseState) :
    Lockstep fun st st' => st = st' ∧ ∀ key, keys key → st.cache[key]? = base.cache[key]? where
  input := fun h => by rw [h.1]
  source := fun h => by rw [h.1]
  pos := fun h => by rw [h.1]
  move := fun ⟨h, hc⟩ _ => ⟨by rw [h], hc⟩
  save := fun ⟨h, hc⟩ _ => ⟨by rw [h], hc⟩
  fail := fun ⟨h, hc⟩ _ => ⟨by rw [h], fun key hk => by rw [fail_cache]; exact hc key hk⟩
  silence := fun ⟨h, hc⟩ => ⟨by rw [h], hc⟩
  unsilence := fun ⟨h, _⟩ ⟨h', hc⟩ _ _ => ⟨by rw [h, h'], hc⟩

/-- Where rules do what other rules do too and leave things as they are, so do rules that call them. -/
theorem leaves_rule {c : Setting} {R R' : RuleId → Act HostFunction} {keys : CacheKey → Prop}
    (hR : ∀ t st cs v st', R t st cs v st' → R' t st cs v st' ∧ Leaves keys st st') {rule : Rule}
    {st st' : ParseState} {cs : List (HostCall HostFunction)} {v : Value} (h : c.ofRule R rule st cs v st') :
    ∃ cs', c.ofRule R' rule st cs' v st' ∧ Leaves keys st st' := by
  have rules (t : RuleId) : Simulates (fun u u' => u = u' ∧ ∀ key, keys key → u.cache[key]? = st.cache[key]?)
      (R t) (R' t) := by
    rintro u _ ⟨rfl, hu⟩ cs v u' hx
    obtain ⟨hx', leaves⟩ := hR t u cs v u' hx
    exact ⟨cs, u', hx', ⟨rfl, fun key hk => (leaves.cache key hk).trans (hu key hk)⟩, leaves.silent, leaves.silent⟩
  have calls (code : HostCode) (ls : Labels) : Simulates (fun u u' => u = u' ∧ ∀ key, keys key → u.cache[key]? = st.cache[key]?)
      (c.call .boundary code ls) (c.call .boundary code ls) := by
    rintro u _ ⟨rfl, hu⟩ cs v u' hx
    obtain ⟨kind, host, hf, rfl, rfl, rfl⟩ := hx
    exact ⟨_, u', ⟨kind, host, hf, rfl, rfl, rfl⟩, .refl ⟨rfl, hu⟩⟩
  obtain ⟨cs', _, hx, ⟨rfl, hc⟩, hs, -⟩ := simulates_rule (lockstep_leaves keys st) rules rule (fun _ _ code _ ls => calls code ls)
    st st ⟨rfl, fun _ _ => rfl⟩ cs v st' h
  exact ⟨cs', hx, hs, hc⟩

end Machine

namespace Compilation

variable {c : Compilation} {bs : Bindings} {s : String} {st st' : ParseState}

/-! ## Rules move on -/

/-- Around a body that moves on, a rule does; and what it remembers then is something that it did. -/
theorem advances_around {r : Nat} {name : String} {A : Act HostFunction}
    (hA : Advances (c.Sane s) (Input.ofString s).size (c.found.guess r) (ConsumesRule c.grammar r) A) :
    Advances (c.Sane s) (Input.ofString s).size (c.found.guess r) (ConsumesRule c.grammar r)
      (Around (c.inlineProgram bs) r name A) := by
  intro st hst cs v st' hx
  have entered := reported_sane (p := c.inlineProgram bs) (f := (·.reportEnter name st.pos)) reports_enter hst
  unfold Around at hx
  split at hx
  · -- what is remembered moved on when it was remembered
    rename_i w st₁ hrecalled
    obtain ⟨-, rfl, rfl⟩ := hx
    split at hrecalled
    · rename_i hcache
      unfold ParseState.remembered? at hrecalled
      obtain ⟨entry, hentry, e⟩ := Option.map_eq_some_iff.1 hrecalled
      cases e
      have moves := entered.1.cache hcache _ _ hentry
      have left := reported_sane (p := c.inlineProgram bs) (f := (·.reportExit name st.pos entry.result true))
        reports_exit ((steady_sane c s).move entered.1 entry.next)
      refine ⟨left.1, ?_⟩
      rw [left.2, ← entered.2]
      exact moves
    · cases hrecalled
  · -- the body moves on, and so does what is remembered of it
    obtain ⟨st₁, hbody, rfl⟩ := hx
    obtain ⟨hst₁, moves⟩ := hA _ entered.1 _ _ _ hbody
    rw [entered.2] at moves
    have remembered : c.Sane s (if (c.inlineProgram bs).cache then st₁.remember r st.pos v else st₁) ∧
        (if (c.inlineProgram bs).cache then st₁.remember r st.pos v else st₁).pos = st₁.pos := by
      split
      · exact ⟨sane_remember hst₁ moves, rfl⟩
      · exact ⟨hst₁, rfl⟩
    have left := reported_sane (p := c.inlineProgram bs) (f := (·.reportExit name st.pos v false)) reports_exit
      remembered.1
    refine ⟨left.1, ?_⟩
    rw [left.2, remembered.2]
    exact moves

section Rules

variable (hc : Matching.Complete c.grammar c.found)

include hc

/-- Where rules move on, so do the expressions of a rule. -/
theorem moving (bs : Bindings) {R : RuleId → Act HostFunction} (hR : ∀ t, Advances (c.Sane s) (Input.ofString s).size
    (c.found.guess t) (ConsumesRule c.grammar t) (R t)) {r : RuleId} {rule : Rule}
    (hr : c.grammar.live? r = some rule) :
    ∃ ρ, Moving s (c.Sane s) (c.setting bs) R c.grammar ρ ∧ Follows (c.setting bs) ρ rule.body ∧
      c.found.guess r = Matching.judge ρ rule.body := by
  obtain ⟨ρ, hvague, hjudged, hguess⟩ := settled hc hr
  refine ⟨ρ, ⟨steady_sane c s, fun t => (hR t).weaken (fun hnever => ?_) id, fun e he => ?_⟩, hjudged, hguess⟩
  · rw [← (hvague t).eq_of_definite (by rw [hnever]; decide)]
    exact hnever
  · exact Matching.consumes_ne_always hc he hvague

theorem advances_ruleExec (n : Nat) (r : RuleId) : Advances (c.Sane s) (Input.ofString s).size (c.found.guess r)
    (ConsumesRule c.grammar r) (RuleExec (c.inlineProgram bs) n r) := by
  induction n generalizing r with
  | zero => exact fun st _ cs v st' h => h.elim
  | succ n ih =>
    intro st hst cs v st' hx
    obtain ⟨rule, hr, hx⟩ := ruleExec_succ_iff.1 hx
    refine advances_around ?_ st hst cs v st' hx
    obtain ⟨ρ, hm, hfollows, hguess⟩ := moving hc bs ih hr
    have same : ConsumesRule c.grammar r → Consumes c.grammar rule.body := by
      rintro ⟨rule', hr', h⟩
      rw [Grammar.rule?_of_live? hr] at hr'
      cases hr'
      exact h
    have body := (hm.advances hfollows []).weaken id same
    rw [hguess]
    unfold Setting.ofRule
    split
    · rename_i name _
      rw [hfollows.self]
      exact body.named hm.steady (fun p => hm.unsure _ (same p)) name
    · exact body

theorem advances_rules (r : RuleId) : Advances (c.Sane s) (Input.ofString s).size (c.found.guess r)
    (ConsumesRule c.grammar r) (RuleRuns (c.inlineProgram bs) r) := by
  rintro st hst cs v st' ⟨n, hx⟩
  exact advances_ruleExec hc n r st hst cs v st' hx

/-! ## Rules come to an end -/

/-- Where a grammar's parsers always get on, every call of a rule comes to an end; and it leaves as it was what is
remembered under keys that are out of its reach. -/
theorem ruleRuns_leaving (bs : Bindings) (hp : c.grammar.Progressive) {reserved : List String}
    (hlabels : ∀ r rule, c.grammar.live? r = some rule → labelsIn reserved [] rule.body = [])
    (hbound : ∀ r rule e code kind names, c.grammar.live? r = some rule → e ∈ rule.body.preorder → code ∈ e.codes →
      ∃ f, (c.setting bs).function ⟨kind, names, code.val, code.span⟩ = .ok f) (keys : CacheKey → Prop)
    (st : ParseState) (hst : c.Sane s st) (r : RuleId) (hr : ∃ rule, c.grammar.live? r = some rule)
    (hkeys : ∀ key, keys key → c.grammar.OutOfReach key r st.pos) :
    ∃ cs v st', RuleRuns (c.inlineProgram bs) r st cs v st' ∧ Leaves keys st st' := by
  -- the outer induction is on what is left of the text, the inner one on the calls that consume nothing
  induction hleft : (Input.ofString s).size - st.pos using Nat.strong_induction_on generalizing st r with
  | _ left ihText =>
    obtain ⟨rule, hr⟩ := hr
    have acc := hp.calls r rule hr
    induction acc generalizing st rule with
    | intro r _ ihCalls =>
      -- of what rules do, only that is looked at which leaves things as they are
      let R : RuleId → Act HostFunction := fun t st cs v st' =>
        RuleRuns (c.inlineProgram bs) t st cs v st' ∧ Leaves keys st st'
      have moves (t : RuleId) : Advances (c.Sane s) (Input.ofString s).size (c.found.guess t)
          (ConsumesRule c.grammar t) (R t) := fun st hst cs v st' hx => advances_rules hc t st hst cs v st' hx.1
      obtain ⟨ρ, hm, hfollows, -⟩ := moving hc bs moves hr
      have runnable : Runnable (c.setting bs) c.grammar (fun t => ∃ rule, c.grammar.live? t = some rule) ρ rule.body := by
        refine ⟨fun e he => ⟨fun i name target heq => ?_, fun code hcode kind names => ?_, ?_⟩, hfollows⟩
        · obtain ⟨t, rule', rfl, ht⟩ := hp.live r rule i name target hr (heq ▸ he)
          exact ⟨t, rfl, rule', ht⟩
        · exact hbound r rule e code kind names hr he hcode
        · exact hp.bounded r rule e hr he
      have completes := completes_expr hm rule.body runnable [] (hlabels r rule hr)
      have halts (st₀ : ParseState) (h₀ : c.Sane s st₀) (hpos : st₀.pos = st.pos) :
          Halts ((c.setting bs).meaning R rule.body []) st₀ := by
        refine completes [] rfl st₀ h₀ ⟨fun t ht hknown st₁ h₁ hpos₁ => ?_, fun t hknown st₁ h₁ hin hlt => ?_⟩
        · obtain ⟨rule', ht'⟩ := hknown
          have calls : LeftCalls c.grammar t r := ⟨rule, Grammar.rule?_of_live? hr, ht⟩
          have here : st₁.pos = st.pos := hpos₁.trans hpos
          exact ihCalls t calls st₁ h₁ (fun key hk => here ▸ (hkeys key hk).here calls) (here ▸ hleft) rule' ht'
        · exact ihText _ (by omega) st₁ h₁ t hknown (fun key hk => (hkeys key hk).further (by omega) t) rfl
      have enter : Reports (·.reportEnter rule.name st.pos) := reports_enter
      have entered := reported_sane (p := c.inlineProgram bs) enter hst
      have body : Halts ((c.setting bs).ofRule R rule) (reported (c.inlineProgram bs) (·.reportEnter rule.name st.pos) st) := by
        unfold Setting.ofRule
        split
        · exact halts_named (halts _ ((steady_sane c s).silence entered.1 _) entered.2)
        · exact halts _ entered.1 entered.2
      obtain ⟨cs₀, v, st₁, hx⟩ := body
      obtain ⟨cs, hx, leaves⟩ := leaves_rule (fun t st cs v st' h => h) hx
      obtain ⟨cs, v, st', hx, leaves⟩ := Leaves.around (fun key hk => (hkeys key hk).ne) ⟨cs, v, st₁, hx, leaves⟩
      exact ⟨cs, v, st', ruleRuns_iff_meaning.2 ⟨rule, hr, hx⟩, leaves⟩

/-- In particular it comes to an end. -/
theorem halts_ruleRuns (bs : Bindings) (hp : c.grammar.Progressive) {reserved : List String}
    (hlabels : ∀ r rule, c.grammar.live? r = some rule → labelsIn reserved [] rule.body = [])
    (hbound : ∀ r rule e code kind names, c.grammar.live? r = some rule → e ∈ rule.body.preorder → code ∈ e.codes →
      ∃ f, (c.setting bs).function ⟨kind, names, code.val, code.span⟩ = .ok f)
    (st : ParseState) (hst : c.Sane s st) (r : RuleId) (hr : ∃ rule, c.grammar.live? r = some rule) :
    Halts (RuleRuns (c.inlineProgram bs) r) st := by
  obtain ⟨cs, v, st', hx, -⟩ := ruleRuns_leaving hc bs hp hlabels hbound (fun _ => False) st hst r hr fun _ h => h.elim
  exact ⟨cs, v, st', hx⟩

end Rules

/-- The parser of a compilation that is ready ends every run in time: with a value, or with an error before it starts. -/
theorem Ready.ends {g : Grammar} {o : CompileOptions} (h : c.Ready g o) (haccepts : Session.Accepted g o)
    (hg : g.Built) (hres : g.Resolved) (bs : Bindings) (text : String) (po : ParseOptions) :
    (∃ code, (c.parserWith bs).unbound? = some code) ∨ (∃ why, (c.parserWith bs).entry po = .error why) ∨
      ∃ v st, (c.parserWith bs).Ends text po (.ok v) st := by
  cases hu : (c.parserWith bs).unbound? with
  | some code => exact .inl ⟨code, rfl⟩
  | none =>
    cases he : (c.parserWith bs).entry po with
    | error why => exact .inr (.inl ⟨why, rfl⟩)
    | ok r =>
      obtain ⟨-, rule, hr⟩ := h.entry_live haccepts he
      have progressive := haccepts.progressive hg hres h.bypasses fun r hr => (h.dropped r hr).2
      obtain ⟨cs, v, st, hx⟩ := halts_ruleRuns h.complete (bs.covering c.grammar.codes) progressive
        (fun r rule hr => haccepts.labels_of hg h.bypasses hr)
        (fun r rule e code kind names hr he hcode => function_of_bind (bs.bind_covering _) hr he hcode kind names)
        (.start text po.source po.tracing) (sane_of_empty rfl rfl) r ⟨rule, hr⟩
      have runs : RuleRuns (c.parserWith (bs.covering c.grammar.codes)).program r _ _ v st :=
        (h.coded.ruleRuns ..).2 ⟨cs, rfl, hx⟩
      rw [program_covering hu] at runs
      exact .inr (.inr ⟨v, st, Parser.ends_of_ruleRuns hu he runs⟩)

/-- So there is a run of the start rule, with calls of the code that is bound. -/
theorem Ready.runs {g : Grammar} {o : CompileOptions} (h : c.Ready g o) (haccepts : Session.Accepted g o)
    (hg : g.Built) (hres : g.Resolved) (bs : Bindings) (text : String) (po : ParseOptions) {r : RuleId}
    (hbound : (c.parserWith bs).unbound? = none) (hentry : (c.parserWith bs).entry po = .ok r) :
    ∃ (calls : List (HostCall HostFunction)) (v : Value) (st : ParseState),
      RuleRuns (c.parserWith bs).program r (.start text po.source po.tracing) (calls.map (HostCall.link c.constants)) v st ∧
        RuleRuns (c.inlineProgram bs) r (.start text po.source po.tracing) calls v st := by
  rcases h.ends haccepts hg hres bs text po with ⟨code, hu⟩ | ⟨why, he⟩ | ⟨v, st, ends⟩
  · cases hbound.symm.trans hu
  · cases hentry.symm.trans he
  · obtain ⟨-, r', cs, hr', hx⟩ := ends.ruleRuns
    cases hentry.symm.trans hr'
    obtain ⟨calls, rfl, hx'⟩ := (h.coded.ruleRuns ..).1 hx
    exact ⟨calls, v, st, hx, hx'⟩

end Compilation

/-- The parser of an accepted grammar comes to an end on every text: it never runs out of fuel, if it has enough. What
consumes nothing may be repeated up to a bound that is a label or host code; where the value of that is no count, the
rounds end with their greatest number, `Value.maxCount`. -/
theorem accepted_parsers_terminate {d : Draft} {g : Grammar} (hd : d.build? = .ok g) {o : CompileOptions}
    {s₀ : Session} (hchecks : Session.advance ⟨.start g o, []⟩ .check = .ok s₀)
    (haccepts : Diagnostics.check s₀.diagnostics = .ok ⟨⟩) :
    ∃ p, Parser.compiled Stage.transform.passes g o = .ok p ∧
      ∀ (bs : Bindings) (text : String) (po : ParseOptions), ∃ result st,
        Parser.Ends { p with bindings := bs } text po result st ∧ result ≠ .error (.fault .outOfFuel) := by
  obtain ⟨rfl, accepted, built, resolved⟩ := Session.accepted_of_checks hd hchecks haccepts
  obtain ⟨c, hcompiled, ready⟩ := accepted.compiled built resolved
  refine ⟨_, hcompiled, fun bs text po => ?_⟩
  show ∃ result st, (c.parserWith bs).Ends text po result st ∧ result ≠ .error (.fault .outOfFuel)
  rcases ready.ends accepted built resolved bs text po with ⟨code, hu⟩ | ⟨why, he⟩ | ⟨v, st, hends⟩
  · exact ⟨_, _, Parser.ends_unbound hu, nofun⟩
  · cases hu : (c.parserWith bs).unbound? with
    | some code => exact ⟨_, _, Parser.ends_unbound hu, nofun⟩
    | none => exact ⟨_, _, Parser.ends_rejected hu he, nofun⟩
  · exact ⟨_, _, hends, nofun⟩

open Draft.Expr in
/-- `Start = ("(" Start ")" / "x")* { f }`. -/
def parens : Draft := ⟨none, none, [
  .of "Start" ((firstOf [seq [exactly "(", ref "Start", exactly ")"], exactly "x"]).star.thenDo "f") none]⟩

theorem accepted_parsers_terminate_parens : ∃ g s₀ p, parens.build? = .ok g ∧
    Session.advance ⟨.start g { CompileOptions.default with cache := true }, []⟩ .check = .ok s₀ ∧
    Diagnostics.check s₀.diagnostics = .ok ⟨⟩ ∧
    Parser.compiled Stage.transform.passes g { CompileOptions.default with cache := true } = .ok p ∧
    p.cache = true ∧ Parser.unbound? { p with bindings := [("f", fun _ _ => .failed)] } = none ∧
    ∀ (text : String) (po : ParseOptions), ∃ result st,
      Parser.Ends { p with bindings := [("f", fun _ _ => .failed)] } text po result st ∧
        result ≠ .error (.fault .outOfFuel) := by
  obtain ⟨g, hg⟩ : ∃ g, parens.build? = .ok g := ⟨_, rfl⟩
  have hs₀ : Session.advance ⟨.start g { CompileOptions.default with cache := true }, []⟩ .check =
      .ok (Session.checked g { CompileOptions.default with cache := true }) := rfl
  have accepts : Diagnostics.check (Session.checked g { CompileOptions.default with cache := true }).diagnostics =
      .ok ⟨⟩ := by cases hg; rfl
  obtain ⟨p, hp, terminates⟩ := accepted_parsers_terminate hg hs₀ accepts
  have known : (Parser.compiled Stage.transform.passes g { CompileOptions.default with cache := true }).map (fun p =>
      (p.cache, Parser.unbound? { p with bindings := [("f", fun _ _ => .failed)] })) = .ok (true, none) := by
    cases hg
    decide +kernel
  rw [hp] at known
  obtain ⟨cache, bound⟩ := Prod.mk.inj (Except.ok.inj known)
  exact ⟨g, _, p, hg, hs₀, accepts, hp, cache, bound, terminates _⟩

end PegCompiler
