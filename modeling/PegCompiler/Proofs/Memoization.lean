/-
Whether results are remembered makes no difference that anyone sees. What a rule does where nothing is remembered
depends on the position and on whether failures count, and on nothing else (`uniform`); so a remembered result is the
one that another run of the rule would give, and all failures of that run are known by then (`Renews`).
-/
import PegCompiler.Proofs.Meaning.Simulation
import PegCompiler.Proofs.Terminating

namespace PegCompiler

open Machine

/-! ## Compiling with and without remembering -/

/-- The compilation of a parser that remembers results, or that does not. -/
def Compilation.withCache (c : Compilation) (cache : Bool) : Compilation :=
  { c with options := { c.options with cache } }

def Session.withCache (s : Session) (cache : Bool) : Session :=
  { s with compilation := s.compilation.withCache cache }

/-- Code is made without asking for it. -/
theorem Working.compileEach_withCache (rules : List (RuleId × Rule)) {s s' : Session}
    (h : (rules.forM fun x => Working.compileRule x.1 x.2) s = .ok ⟨⟩ s') (cache : Bool) :
    (rules.forM fun x => Working.compileRule x.1 x.2) (s.withCache cache) = .ok ⟨⟩ (s'.withCache cache) := by
  induction rules generalizing s with
  | nil => cases h; rfl
  | cons head rules ih =>
    obtain ⟨_, s₁, h₁, h⟩ := bind_ok_iff.1 h
    refine bind_ok_iff.2 ⟨⟨⟩, s₁.withCache cache, ?_, ih h⟩
    have plan : (s.withCache cache).compilation.plan = s.compilation.plan := rfl
    have constants : (s.withCache cache).compilation.constants = s.compilation.constants := rfl
    unfold Working.compileRule at h₁ ⊢
    simp only [plan, constants]
    cases hcode : (Code.ofRule s.compilation.plan head.2).assemble s.compilation.constants with
    | error why k => simp only [hcode] at h₁; cases h₁
    | ok code k => simp only [hcode] at h₁; cases h₁; rfl

/-- The passes up to the code do not ask for it. -/
theorem Pass.run_withCache {p : Pass} (hp : p ≠ .source) {s s' : Session} (h : p.run s = .ok ⟨⟩ s') (cache : Bool) :
    p.run (s.withCache cache) = .ok ⟨⟩ (s'.withCache cache) := by
  cases p with
  | source => exact absurd rfl hp
  | bytecode => exact Working.compileEach_withCache s.compilation.grammar.live h cache
  | matching =>
    obtain ⟨found, rfl, again⟩ := Working.findMatches_withOptions h
    exact again _
  | _ => cases h; rfl

theorem Pass.forM_withCache {ps : List Pass} (hps : .source ∉ ps) {s s' : Session}
    (h : ps.forM Pass.run s = .ok ⟨⟩ s') (cache : Bool) :
    ps.forM Pass.run (s.withCache cache) = .ok ⟨⟩ (s'.withCache cache) := by
  induction ps generalizing s with
  | nil => cases h; rfl
  | cons p ps ih =>
    obtain ⟨_, s₁, h₁, h⟩ := bind_ok_iff.1 h
    have hp : p ≠ .source := fun e => hps (e ▸ List.mem_cons_self)
    exact bind_ok_iff.2 ⟨⟨⟩, s₁.withCache cache, Pass.run_withCache hp h₁ cache,
      ih (fun hm => hps (List.mem_cons_of_mem _ hm)) h⟩

/-- The two parsers differ in nothing else. -/
theorem Parser.compiled_withCache {transform : List Pass} (ht : .source ∉ transform) {g : Grammar} {o : CompileOptions}
    {p : Parser} (h : Parser.compiled transform g o = .ok p) (cache : Bool) :
    Parser.compiled transform g { o with cache } = .ok { p with cache } := by
  have checked : Session.checked g { o with cache } = (Session.checked g o).withCache cache := rfl
  have found : ((Session.checked g o).withCache cache).diagnostics = (Session.checked g o).diagnostics := rfl
  rw [Parser.compiled_eq] at h ⊢
  rw [checked, found]
  cases hcheck : Diagnostics.check (Session.checked g o).diagnostics with
  | error why => rw [hcheck] at h; cases h
  | ok u =>
    simp only [hcheck] at h ⊢
    cases hrun : (transform ++ [Pass.bytecode]).forM Pass.run (Session.checked g o) with
    | error why s => rw [hrun] at h; cases h
    | ok u s =>
      have notSource : Pass.source ∉ transform ++ [Pass.bytecode] := fun hm =>
        (List.mem_append.1 hm).elim ht fun hm => by cases List.mem_singleton.1 hm
      rw [Pass.forM_withCache notSource hrun cache]
      rw [hrun] at h
      simp only at h ⊢
      unfold Parser.ofCompilation at h ⊢
      show (if s.compilation.startRules.isEmpty then _ else _ : Except InternalError Parser).mapError _ = _
      split at h
      · cases h
      · rename_i hstart
        cases h
        rw [if_neg hstart]
        rfl

theorem Compilation.Ready.withCache {g : Grammar} {o : CompileOptions} {c : Compilation} (h : c.Ready g o)
    (cache : Bool) : (c.withCache cache).Ready g { o with cache } where
  bypasses := h.bypasses
  dropped := h.dropped
  options := by
    unfold Compilation.withCache
    rw [h.options]
  startRules := h.startRules
  complete := h.complete
  coded := ⟨h.coded.known, h.coded.code⟩
  functions := h.functions

/-! ## Bounds that do not look back -/

/-- The functions for this code see the position, but not where the text of an action would begin. -/
def Bindings.IgnoreSaved (bs : Bindings) (codes : List HostCode) : Prop :=
  ∀ code ∈ codes, ∀ f, bs.find? code.val = some f → ∀ view saved args, f { view with saved } args = f view args

/-- Bypassing proxies adds no bounds. -/
theorem Grammar.Bypasses.mem_bounds {g g' : Grammar} (h : g.Bypasses g') (hg : g.removed = []) {r : RuleId} {rule : Rule}
    (hr : g'.live? r = some rule) {e : Expr} (he : e ∈ rule.body.preorder) {code : HostCode} (hc : code ∈ e.bounds) :
    code ∈ g.bounds := by
  obtain ⟨e₀, f, he₀, rfl⟩ := h.mem_liveExprs hg (List.mem_flatMap.2 ⟨_, Grammar.mem_live.2 hr, he⟩)
  rw [Expr.bounds_mapRefs] at hc
  exact List.mem_flatMap.2 ⟨e₀, he₀, hc⟩

namespace Compilation

variable {c : Compilation} {bs : Bindings}

/-- A call to such code keeps what acts keep. -/
theorem simulates_bound {rel : ParseState → ParseState → Prop} (hl : Lockstep rel) {codes : List HostCode}
    (hbs : bs.IgnoreSaved codes) {code : HostCode} (hcode : code ∈ codes) (ls : Labels) :
    Simulates rel ((c.setting bs).call .boundary code ls) ((c.setting bs).call .boundary code ls) := by
  rintro _ st' hst _ _ st ⟨kind, host, hf, rfl, rfl, rfl⟩
  refine ⟨_, st', ⟨kind, host, hf, rfl, ?_, rfl⟩, .refl hst⟩
  have found : bs.find? code.val = some host := by
    have hf : Bindings.function bs ⟨.boundary, ls.names, code.val, code.span⟩ = .ok (kind, host) := hf
    unfold Bindings.function at hf
    cases hfind : bs.find? code.val with
    | none => simp only [hfind] at hf; cases hf
    | some f => simp only [hfind] at hf; cases hf; rfl
  have view : HostView.of st = { HostView.of st' with saved := st.saved } := by
    unfold HostView.of
    rw [hl.input hst, hl.source hst, hl.pos hst]
  rw [view, hbs code hcode host found]

/-! ## Runs that remember nothing -/

/-- Two states at the same place that come after two others and after the same failures since then. -/
structure Beside (base base' st st' : ParseState) : Prop where
  input : st.input = base.input
  input' : st'.input = base.input
  source : st.source = base.source
  source' : st'.source = base.source
  pos : st.pos = st'.pos
  silent : st.silent = 0 ↔ st'.silent = 0
  failures : ∃ log, st.failures = base.failures.recordAll log ∧ st'.failures = base'.failures.recordAll log

/-- Two states from which runs are the same. -/
structure Level (st st' : ParseState) : Prop where
  input : st'.input = st.input
  source : st'.source = st.source
  pos : st.pos = st'.pos
  silent : st.silent = 0 ↔ st'.silent = 0

theorem Level.beside {st st' : ParseState} (h : Level st st') : Beside st st' st st' :=
  ⟨rfl, h.input, rfl, h.source, h.pos, h.silent, [], rfl, rfl⟩

theorem lockstep_beside (base base' : ParseState) : Lockstep (Beside base base') where
  input := fun h => h.input.trans h.input'.symm
  source := fun h => h.source.trans h.source'.symm
  pos := fun h => h.pos
  move := fun h _ => ⟨h.input, h.input', h.source, h.source', rfl, h.silent, h.failures⟩
  save := fun h _ => ⟨h.input, h.input', h.source, h.source', h.pos, h.silent, h.failures⟩
  fail := fun {st st'} h e => by
    obtain ⟨log, hlog, hlog'⟩ := h.failures
    refine ⟨(st.fail_input e).trans h.input, (st'.fail_input e).trans h.input', (st.fail_source e).trans h.source,
      (st'.fail_source e).trans h.source', ?_, ?_, ?_⟩
    · rw [st.fail_pos, st'.fail_pos, h.pos]
    · rw [st.fail_silent, st'.fail_silent, h.silent]
    · rw [st.failures_fail, st'.failures_fail]
      by_cases hs : st.silent = 0
      · refine ⟨log ++ [(st.pos, e)], ?_, ?_⟩
        · rw [if_pos hs, hlog, Failures.recordAll_concat]
        · rw [if_pos (h.silent.1 hs), hlog', Failures.recordAll_concat, h.pos]
      · rw [if_neg hs, if_neg (fun hs' => hs (h.silent.2 hs'))]
        exact ⟨log, hlog, hlog'⟩
  silence := fun h => ⟨h.input, h.input', h.source, h.source', h.pos,
    iff_of_false (Nat.succ_ne_zero _) (Nat.succ_ne_zero _), h.failures⟩
  unsilence := fun h h' _ _ => ⟨h'.input, h'.input', h'.source, h'.source', h'.pos, h.silent, h'.failures⟩

/-- Host code that bounds repetitions in the rules does not look back. -/
def BoundsIgnoreSaved (c : Compilation) (bs : Bindings) : Prop :=
  ∃ codes, bs.IgnoreSaved codes ∧
    ∀ r rule e, c.grammar.live? r = some rule → e ∈ rule.body.preorder → ∀ code ∈ e.bounds, code ∈ codes

theorem simulates_rules (hb : c.BoundsIgnoreSaved bs) {rel : ParseState → ParseState → Prop} (hl : Lockstep rel)
    {R R' : RuleId → Act HostFunction} (hR : ∀ t, Simulates rel (R t) (R' t)) {r : RuleId} {rule : Rule}
    (hr : c.grammar.live? r = some rule) :
    Simulates rel ((c.setting bs).ofRule R rule) ((c.setting bs).ofRule R' rule) := by
  obtain ⟨codes, hbs, hcodes⟩ := hb
  exact simulates_rule hl hR rule fun e he code hcode ls =>
    simulates_bound hl hbs (hcodes r rule e hr he code hcode) ls

/-- Reports keep states beside each other. -/
theorem Beside.reported {base base' st st' : ParseState} (h : Beside base base' st st') {p : Program Inline}
    {f f' : ParseState → ParseState} (hf : Reports f) (hf' : Reports f') :
    Beside base base' (reported p f st) (reported p f' st') := by
  obtain ⟨trace, htrace⟩ := hf.reported p st
  obtain ⟨trace', htrace'⟩ := hf'.reported p st'
  rw [htrace, htrace']
  exact ⟨h.input, h.input', h.source, h.source', h.pos, h.silent, h.failures⟩

theorem reported_silent {p : Program Inline} {f : ParseState → ParseState} (hf : Reports f) (st : ParseState) :
    (reported p f st).silent = st.silent := by
  obtain ⟨trace, htrace⟩ := hf.reported p st
  rw [htrace]

/-- Where nothing is remembered, a run of a rule is the same from states at the same place. -/
theorem simulates_beside (hcache : c.options.cache = false) (hb : c.BoundsIgnoreSaved bs) (base base' : ParseState)
    (n r : Nat) : Simulates (Beside base base') (RuleExec (c.inlineProgram bs) n r) (RuleExec (c.inlineProgram bs) n r) := by
  induction n generalizing r with
  | zero => exact fun st st' _ cs v st₁ h => h.elim
  | succ n ih =>
    intro st st' hst cs v st₂ hx
    obtain ⟨rule, hr, hx⟩ := ruleExec_succ_iff.1 hx
    obtain ⟨st₁, hbody, rfl⟩ := (around_iff hcache).1 hx
    have enter (st : ParseState) : Reports (·.reportEnter rule.name st.pos) := reports_enter
    have entered := hst.reported (p := c.inlineProgram bs) (enter st) (enter st')
    obtain ⟨cs', st₁', hbody', stays⟩ :=
      simulates_rules hb (lockstep_beside base base') ih hr _ _ entered cs v st₁ hbody
    have silent := stays.silent.trans (reported_silent reports_enter st)
    have silent' := stays.silent'.trans (reported_silent reports_enter st')
    refine ⟨cs', _, ruleExec_succ_iff.2 ⟨rule, hr, (around_iff hcache).2 ⟨st₁', hbody', rfl⟩⟩, ?_⟩
    exact ⟨stays.related.reported reports_exit reports_exit, (reported_silent reports_exit _).trans silent,
      (reported_silent reports_exit _).trans silent'⟩

theorem uniform (hcache : c.options.cache = false) (hb : c.BoundsIgnoreSaved bs) {r : RuleId} {st st' : ParseState}
    (h : Level st st') : Pairs (RuleRuns (c.inlineProgram bs) r) st (RuleRuns (c.inlineProgram bs) r) st'
      fun _ st₁ st₁' => Stays (Beside st st') st st' st₁ st₁' := by
  rintro cs v st₁ ⟨n, hx⟩
  obtain ⟨cs', st₁', hx', stays⟩ := simulates_beside hcache hb st st' n r st st' h.beside cs v st₁ hx
  exact ⟨cs', st₁', ⟨n, hx'⟩, stays⟩

/-! ## Runs that remember -/

/-- A remembered result is what a run of the rule that remembers nothing gives from every state at its key, and what
fails in that run is known in this state. -/
def Renews (c : Compilation) (bs : Bindings) (st : ParseState) (key : CacheKey) (entry : CacheEntry) : Prop :=
  ∀ u : ParseState, u.input = st.input → u.source = st.source → u.key key.rule u.pos = key →
    ∃ cs u' log, RuleRuns ((c.withCache false).inlineProgram bs) key.rule u cs entry.result u' ∧ u'.pos = entry.next ∧
      u'.failures = u.failures.recordAll log ∧ ∀ x ∈ log, st.failures.Knows x

/-- A state of a parse that remembers nothing and one of a parse that does. -/
structure Remembers (c : Compilation) (bs : Bindings) (u st : ParseState) : Prop where
  input : u.input = st.input
  source : u.source = st.source
  pos : u.pos = st.pos
  silent : u.silent = st.silent
  failures : u.failures.Alike st.failures
  cache : ∀ key entry, st.cache[key]? = some entry → c.Renews bs st key entry

theorem lockstep_remembers (c : Compilation) (bs : Bindings) : Lockstep (c.Remembers bs) where
  input := fun h => h.input
  source := fun h => h.source
  pos := fun h => h.pos
  move := fun h _ => ⟨h.input, h.source, rfl, h.silent, h.failures, h.cache⟩
  save := fun h _ => ⟨h.input, h.source, h.pos, h.silent, h.failures, h.cache⟩
  fail := fun {u st} h e => by
    have known : ∀ x, st.failures.Knows x → (st.fail e).failures.Knows x := fun x hx => by
      rw [st.failures_fail]
      split
      · exact hx.record _ _
      · exact hx
    refine ⟨?_, ?_, ?_, ?_, ?_, fun key entry hentry v hinput hsource hkey => ?_⟩
    · rw [u.fail_input, st.fail_input, h.input]
    · rw [u.fail_source, st.fail_source, h.source]
    · rw [u.fail_pos, st.fail_pos, h.pos]
    · rw [u.fail_silent, st.fail_silent, h.silent]
    · rw [u.failures_fail, st.failures_fail, h.silent, h.pos]
      split
      · exact h.failures.record _ _
      · exact h.failures
    · rw [fail_cache] at hentry
      obtain ⟨cs, v', log, hrun, hnext, hlog, hknown⟩ := h.cache key entry hentry v (hinput.trans (st.fail_input e))
        (hsource.trans (st.fail_source e)) hkey
      exact ⟨cs, v', log, hrun, hnext, hlog, fun x hx => known x (hknown x hx)⟩
  silence := fun h => ⟨h.input, h.source, h.pos, congrArg (· + 1) h.silent, h.failures, h.cache⟩
  unsilence := fun h h' _ _ => ⟨h'.input, h'.source, h'.pos, h.silent, h'.failures, h'.cache⟩

theorem Remembers.report {u st : ParseState} (h : c.Remembers bs u st) {p : Program Inline} {f : ParseState → ParseState}
    (hf : Reports f) : c.Remembers bs (reported p f u) st := by
  obtain ⟨trace, htrace⟩ := hf.reported p u
  rw [htrace]
  exact ⟨h.input, h.source, h.pos, h.silent, h.failures, h.cache⟩

theorem Remembers.report' {u st : ParseState} (h : c.Remembers bs u st) {p : Program Inline} {f : ParseState → ParseState}
    (hf : Reports f) : c.Remembers bs u (reported p f st) := by
  obtain ⟨trace, htrace⟩ := hf.reported p st
  rw [htrace]
  exact ⟨h.input, h.source, h.pos, h.silent, h.failures, h.cache⟩

section Runs

variable (hb : c.BoundsIgnoreSaved bs)

include hb

/-- A remembered result is the one that the run gives which remembers nothing. -/
theorem Renews.agree {r : RuleId} {u u' st : ParseState} {entry : CacheEntry} (h : c.Remembers bs u st)
    (hentry : st.cache[st.key r st.pos]? = some entry) {cs : List (HostCall HostFunction)} {v : Value}
    (hrun : RuleRuns ((c.withCache false).inlineProgram bs) r u cs v u') :
    v = entry.result ∧ u'.silent = u.silent ∧ c.Remembers bs u' { st with pos := entry.next } := by
  have key : u.key r u.pos = st.key r st.pos := by
    unfold ParseState.key
    rw [h.pos, h.silent]
  obtain ⟨cs', u'', log, hrun', hnext, hlog, hknown⟩ := h.cache _ entry hentry u h.input h.source key
  obtain ⟨-, rfl, rfl⟩ := ruleRuns_definite r hrun hrun'
  obtain ⟨_, _, -, stays⟩ := uniform (c := c.withCache false) rfl hb ⟨rfl, rfl, rfl, Iff.rfl⟩ _ _ _ hrun
  refine ⟨rfl, stays.silent, stays.related.input.trans h.input, stays.related.source.trans h.source, hnext,
    stays.silent.trans h.silent, ?_, h.cache⟩
  rw [hlog]
  exact (Failures.alike_recordAll fun x hx => h.failures.knows.2 (hknown x hx)).trans h.failures

/-- The result of a run may be remembered: from a state at its key, the rule gives it again. -/
theorem Renews.remember {r : RuleId} {u u' st st' : ParseState} {cs : List (HostCall HostFunction)} {v : Value}
    (h : c.Remembers bs u st) (hrun : RuleRuns ((c.withCache false).inlineProgram bs) r u cs v u')
    (h' : c.Remembers bs u' st') (hsilent : st'.silent = st.silent) : c.Remembers bs u' (st'.remember r st.pos v) := by
  refine ⟨h'.input, h'.source, h'.pos, h'.silent, h'.failures, fun key entry hentry => ?_⟩
  unfold ParseState.remember at hentry
  simp only [Std.HashMap.getElem?_insert] at hentry
  split at hentry
  · rename_i hkey
    cases hentry
    rw [← beq_iff_eq.1 hkey]
    intro w winput wsource wkey
    have wkey : w.key r w.pos = ⟨st.pos, r, decide (st'.silent > 0)⟩ := wkey
    unfold ParseState.key at wkey
    injection wkey with wpos _ wsilent
    have winput : w.input = st'.input := winput
    have wsource : w.source = st'.source := wsource
    -- a state with this key differs from the one of the run in nothing that the run depends on
    have level : Level u w := by
      obtain ⟨_, _, -, stays⟩ := uniform (c := c.withCache false) rfl hb ⟨rfl, rfl, rfl, Iff.rfl⟩ _ _ _ hrun
      refine ⟨?_, ?_, h.pos.trans wpos.symm, ?_⟩
      · rw [winput, ← h'.input, stays.related.input]
      · rw [wsource, ← h'.source, stays.related.source]
      · rw [hsilent, ← h.silent, decide_eq_decide] at wsilent
        omega
    obtain ⟨cs', w', hrun', stays⟩ := uniform (c := c.withCache false) rfl hb level cs v u' hrun
    obtain ⟨log, hlog, hlog'⟩ := stays.related.failures
    refine ⟨cs', w', log, hrun', stays.related.pos.symm.trans h'.pos, hlog', fun x hx => ?_⟩
    refine h'.failures.knows.1 ?_
    rw [hlog]
    exact Failures.knows_recordAll _ hx
  · exact h'.cache key entry hentry

/-- Whatever a rule does where nothing is remembered, it does where results are. -/
theorem simulates_remembers (n r : Nat) : Simulates (c.Remembers bs)
    (RuleExec ((c.withCache false).inlineProgram bs) n r) (RuleRuns ((c.withCache true).inlineProgram bs) r) := by
  induction n generalizing r with
  | zero => exact fun st st' _ cs v st₁ h => h.elim
  | succ n ih =>
    intro u st h cs v u₂ hx
    have hrun : RuleRuns ((c.withCache false).inlineProgram bs) r u cs v u₂ := ⟨n + 1, hx⟩
    obtain ⟨rule, hr, hx⟩ := ruleExec_succ_iff.1 hx
    obtain ⟨u₁, hbody, rfl⟩ := (around_iff rfl).1 hx
    suffices found : ∃ cs' st₂, Around ((c.withCache true).inlineProgram bs) r rule.name ((c.setting bs).ofRule
        (RuleRuns ((c.withCache true).inlineProgram bs)) rule) st cs' v st₂ ∧ Stays (c.Remembers bs) u st _ st₂ by
      obtain ⟨cs', st₂, hst₂, stays⟩ := found
      exact ⟨cs', st₂, ruleRuns_iff_meaning.2 ⟨rule, hr, hst₂⟩, stays⟩
    have enter (st : ParseState) : Reports (·.reportEnter rule.name st.pos) := reports_enter
    have silent := reported_silent (p := (c.withCache true).inlineProgram bs) (enter st) st
    have heard := h.report' (p := (c.withCache true).inlineProgram bs) (enter st)
    unfold Around
    generalize reported ((c.withCache true).inlineProgram bs) (·.reportEnter rule.name st.pos) st = st₀ at *
    cases hentry : st₀.cache[st₀.key r st₀.pos]? with
    | some entry =>
      -- the rule ran from a state with this key before, and would do the same again
      obtain ⟨rfl, hsilent, after⟩ := Renews.agree hb heard hentry hrun
      have recalled : (if ((c.withCache true).inlineProgram bs).cache then st₀.remembered? r else none) =
          some (entry.result, { st₀ with pos := entry.next }) := by
        show st₀.remembered? r = _
        unfold ParseState.remembered?
        rw [hentry]
        rfl
      rw [recalled]
      exact ⟨[], _, ⟨rfl, rfl, rfl⟩, after.report' reports_exit, hsilent, (reported_silent reports_exit _).trans silent⟩
    | none =>
      have recalled : (if ((c.withCache true).inlineProgram bs).cache then st₀.remembered? r else none) = none := by
        show st₀.remembered? r = _
        unfold ParseState.remembered?
        rw [hentry]
        rfl
      rw [recalled]
      -- the rule runs as it does where nothing is remembered, and its result is stored
      have entered := heard.report (p := (c.withCache false).inlineProgram bs) (enter u)
      obtain ⟨cs', st₁, hbody', stays⟩ := simulates_rules hb (lockstep_remembers c bs) ih hr _ _ entered cs v u₁ hbody
      have leave : Reports (·.reportExit rule.name u.pos v false) := reports_exit
      have left := stays.related.report (p := (c.withCache false).inlineProgram bs) leave
      have stored := Renews.remember hb h hrun left (stays.silent'.trans silent)
      exact ⟨cs', _, ⟨st₁, hbody', rfl⟩, stored.report' reports_exit,
        (reported_silent leave u₁).trans (stays.silent.trans (reported_silent (enter u) u)),
        (reported_silent reports_exit _).trans (stays.silent'.trans silent)⟩

end Runs

end Compilation

/-! ## Parses that remember -/

/-- Two states of parses that no one can tell apart, but for what they remember and report. -/
structure ParseState.Same (st st' : ParseState) : Prop where
  pos : st.pos = st'.pos
  maxFailPos : st.maxFailPos = st'.maxFailPos
  /-- The same was expected, in the order in which it was first expected. -/
  expected : st.expected.toList.eraseDups = st'.expected.toList.eraseDups

/-- Whether a parser remembers results or not, it ends every run in the same way, and every parse with the same answer. -/
theorem remembering_changes_nothing {d : Draft} {g : Grammar} (hd : d.build? = .ok g) {o : CompileOptions}
    {s₀ : Session} (hchecks : Session.advance ⟨.start g o, []⟩ .check = .ok s₀)
    (haccepts : Diagnostics.check s₀.diagnostics = .ok ⟨⟩) :
    ∃ p p', Parser.compiled Stage.transform.passes g { o with cache := false } = .ok p ∧
      Parser.compiled Stage.transform.passes g { o with cache := true } = .ok p' ∧
      ∀ bs : Bindings, bs.IgnoreSaved g.bounds → ∀ (text : String) (po : ParseOptions), ∃ result st st',
        Parser.Ends { p with bindings := bs } text po result st ∧ Parser.Ends { p' with bindings := bs } text po result st' ∧
          st.Same st' ∧ Parser.finish result st = Parser.finish result st' := by
  obtain ⟨rfl, accepted, built, resolved⟩ := Session.accepted_of_checks hd hchecks haccepts
  obtain ⟨c, hcompiled, ready⟩ := accepted.compiled built resolved
  have compiled (cache : Bool) : Parser.compiled Stage.transform.passes g { o with cache } =
      .ok ((c.withCache cache).parserWith []) := Parser.compiled_withCache (by decide) hcompiled cache
  refine ⟨_, _, compiled false, compiled true, fun bs hbs text po => ?_⟩
  show ∃ result st st', ((c.withCache false).parserWith bs).Ends text po result st ∧
    ((c.withCache true).parserWith bs).Ends text po result st' ∧ _
  have accepted' : Session.Accepted g { o with cache := false } := accepted
  rcases (ready.withCache false).ends accepted' built resolved bs text po with ⟨code, hu⟩ | ⟨why, he⟩ | ⟨v, st, hends⟩
  · exact ⟨_, _, _, Parser.ends_unbound hu, Parser.ends_unbound hu, ⟨rfl, rfl, rfl⟩, rfl⟩
  · cases hu : ((c.withCache false).parserWith bs).unbound? with
    | some code => exact ⟨_, _, _, Parser.ends_unbound hu, Parser.ends_unbound hu, ⟨rfl, rfl, rfl⟩, rfl⟩
    | none =>
      have hu' : ((c.withCache true).parserWith bs).unbound? = none := hu
      have he' : ((c.withCache true).parserWith bs).entry po = .error why := he
      exact ⟨_, _, _, Parser.ends_rejected hu he, Parser.ends_rejected hu' he', ⟨rfl, rfl, rfl⟩, rfl⟩
  · -- the run goes over to the parser that remembers, which begins with nothing remembered
    obtain ⟨hu, r, _, he, hrun⟩ := hends.ruleRuns
    have hu' : ((c.withCache true).parserWith bs).unbound? = none := hu
    have he' : ((c.withCache true).parserWith bs).entry po = .ok r := he
    obtain ⟨cs, rfl, n, hrun⟩ := ((ready.withCache false).coded.ruleRuns ..).1 hrun
    have bounds : c.BoundsIgnoreSaved bs := ⟨g.bounds, hbs, fun r rule e hr he code hc =>
      ready.bypasses.mem_bounds built.removed hr he hc⟩
    have start : c.Remembers bs (.start text po.source po.tracing) (.start text po.source po.tracing) :=
      ⟨rfl, rfl, rfl, rfl, .refl _, fun key entry hentry => by
        rw [show (ParseState.start text po.source po.tracing).cache = {} from rfl, Std.HashMap.getElem?_empty] at hentry
        cases hentry⟩
    obtain ⟨cs', st', hrun', stays⟩ := Compilation.simulates_remembers bounds n r _ _ start cs v st hrun
    have runs : RuleRuns ((c.withCache true).parserWith bs).program r _ _ v st' :=
      ((ready.withCache true).coded.ruleRuns ..).2 ⟨cs', rfl, hrun'⟩
    have same := stays.related
    exact ⟨_, st, st', hends, Parser.ends_of_ruleRuns hu' he' runs, ⟨same.pos, same.failures.pos, same.failures.expected⟩,
      Parser.finish_congr same.input same.source same.pos same.failures _⟩

open Draft.Expr in
/-- `Start = Pair "." / Pair { f }` and `Pair = "x"|n|`, where host code tells `n`. -/
def pairs : Draft := ⟨none, none, [
  .of "Start" (firstOf [seq [ref "Pair", exactly "."], (ref "Pair").thenDo "f"]) none,
  .of "Pair" (.repeated .empty (exactly "x") none (.computed ⟨"n", .empty⟩) none) none]⟩

theorem remembering_changes_nothing_pairs : ∃ g s₀ p p' bs, pairs.build? = .ok g ∧
    Session.advance ⟨.start g .default, []⟩ .check = .ok s₀ ∧ Diagnostics.check s₀.diagnostics = .ok ⟨⟩ ∧
    Parser.compiled Stage.transform.passes g { CompileOptions.default with cache := false } = .ok p ∧
    Parser.compiled Stage.transform.passes g { CompileOptions.default with cache := true } = .ok p' ∧
    bs = [("n", fun _ _ => Value.int 2), ("f", fun view _ => Value.str view.text)] ∧
    Parser.unbound? { p with bindings := bs } = none ∧ g.bounds.length = 1 ∧ Bindings.IgnoreSaved bs g.bounds ∧
    ∀ (text : String) (po : ParseOptions), ∃ result st st', Parser.Ends { p with bindings := bs } text po result st ∧
      Parser.Ends { p' with bindings := bs } text po result st' ∧ st.Same st' ∧
      Parser.finish result st = Parser.finish result st' := by
  obtain ⟨g, hg⟩ : ∃ g, pairs.build? = .ok g := ⟨_, rfl⟩
  have hs₀ : Session.advance ⟨.start g .default, []⟩ .check = .ok (Session.checked g .default) := rfl
  have accepts : Diagnostics.check (Session.checked g .default).diagnostics = .ok ⟨⟩ := by cases hg; rfl
  obtain ⟨p, p', hp, hp', same⟩ := remembering_changes_nothing hg hs₀ accepts
  have known : (Parser.compiled Stage.transform.passes g { CompileOptions.default with cache := false }).map (fun p =>
      Parser.unbound? { p with bindings := [("n", fun _ _ => .int 2), ("f", fun view _ => .str view.text)] }) =
      .ok none := by
    cases hg
    decide +kernel
  rw [hp] at known
  have bounds : g.bounds = [⟨"n", .empty⟩] := by cases hg; rfl
  have ignores : Bindings.IgnoreSaved [("n", fun _ _ => .int 2), ("f", fun view _ => .str view.text)] g.bounds := by
    intro code hcode f hf view saved args
    rw [bounds] at hcode
    cases List.mem_singleton.1 hcode
    unfold Bindings.find? at hf
    rw [List.lookup_cons] at hf
    split at hf
    · cases hf
      rfl
    · rename_i hn
      exact absurd hn (by decide)
  exact ⟨g, _, p, p', _, hg, hs₀, accepts, hp, hp', rfl, Except.ok.inj known, by rw [bounds]; rfl, ignores,
    same _ ignores⟩

end PegCompiler
