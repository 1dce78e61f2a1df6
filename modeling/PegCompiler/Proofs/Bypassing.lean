/-
Parsers do the same whether references to proxies were bypassed or not. A run of a proxy is a run of the rule that it
stands for with reports around it, so the two parsers go in step (`simulates_bypassed`). Where results are remembered,
a proxy remembers what its rule remembers: this could only fail if a rule were called again at the place where it
began, and checked grammars have no such calls.
-/
import Mathlib.Order.WellFounded
import PegCompiler.Proofs.Terminating

namespace PegCompiler

open Machine Analysis

/-! ## Proxies do not go round -/

namespace Grammar

variable {g : Grammar} {r t : RuleId}

/-- A proxy calls its target before it has consumed anything. -/
theorem leftCalls_of_proxy {rule : Rule} {i : Expr.Info} {name : String} (hr : g.rule? r = some rule)
    (hbody : rule.body = .ruleRef i name (some t)) : LeftCalls g t r := ⟨rule, hr, by rw [hbody]; rfl⟩

theorem StandsFor.reaches (h : g.StandsFor r t) : Relation.ReflTransGen (fun r t => LeftCalls g t r) r t := by
  induction h with
  | refl => exact .refl
  | proxy hr _ hbody _ ih => exact .head (leftCalls_of_proxy hr hbody) ih

/-- Calls before anything is consumed do not come back to where they began, if they end. -/
theorem not_reaches_of_acc (h : Acc (LeftCalls g) r) (ht : LeftCalls g t r) :
    ¬ Relation.ReflTransGen (fun r t => LeftCalls g t r) t r := by
  induction h generalizing t with
  | intro r _ ih =>
    intro reaches
    -- the first call is one step on the same way round
    rcases reaches.cases_head with rfl | ⟨u, hu, further⟩
    · exact ih t ht ht .refl
    · exact ih t ht hu (further.tail ht)

end Grammar

namespace Compilation

/-- The second compilation is that of the first one's grammar with its references to proxies bypassed. -/
structure Shortens (c c' : Compilation) : Prop where
  bypasses : c.grammar.Bypasses c'.grammar
  /-- No reference is left to a proxy. -/
  final : ∀ r e t, c'.grammar.Inside r e → e.target? = some t → c.grammar.Final t
  cache : c'.options.cache = c.options.cache
  complete : Matching.Complete c.grammar c.found
  complete' : Matching.Complete c'.grammar c'.found
  progressive : c.grammar.Progressive
  progressive' : c'.grammar.Progressive

variable {c c' : Compilation} {bs : Bindings} {s : String}

/-- States of the two parsers: they differ in what was reported and in what proxies remember. What a proxy remembers is
what the rule remembers that it stands for. -/
structure Shares (c c' : Compilation) (s : String) (st st' : ParseState) : Prop where
  input : st.input = st'.input
  source : st.source = st'.source
  pos : st.pos = st'.pos
  saved : st.saved = st'.saved
  silent : st.silent = st'.silent
  failures : st.failures = st'.failures
  sane : c.Sane s st
  trusts : c.Trusts st
  trusts' : c'.Trusts st'
  rules : ∀ key : CacheKey, c.grammar.Final key.rule → st.cache[key]? = st'.cache[key]?
  proxies : ∀ (key : CacheKey) entry t, st.cache[key]? = some entry → c.grammar.StandsFor key.rule t →
    c.grammar.Final t → st'.cache[{ key with rule := t }]? = some entry

theorem lockstep_shares (c c' : Compilation) (s : String) : Lockstep (Shares c c' s) where
  input := fun h => h.input
  source := fun h => h.source
  pos := fun h => h.pos
  move := fun h _ => { h with pos := rfl, sane := (steady_sane c s).move h.sane _ }
  save := fun h _ => { h with saved := rfl, sane := (steady_sane c s).save h.sane _ }
  fail := fun {st st'} h e => by
    refine ⟨?_, ?_, ?_, ?_, ?_, ?_, ((steady_sane c s).fail h.sane e).1, ?_, ?_, fun key hkey => ?_,
      fun key entry t hentry hs ht => ?_⟩
    · rw [st.fail_input, st'.fail_input, h.input]
    · rw [st.fail_source, st'.fail_source, h.source]
    · rw [st.fail_pos, st'.fail_pos, h.pos]
    · rw [st.fail_eq, st'.fail_eq]
      exact h.saved
    · rw [st.fail_silent, st'.fail_silent, h.silent]
    · rw [st.failures_fail, st'.failures_fail, h.failures, h.silent, h.pos]
    · exact ofCache_trusts c _ _ (fail_cache st e) h.trusts
    · exact ofCache_trusts c' _ _ (fail_cache st' e) h.trusts'
    · rw [fail_cache, fail_cache]
      exact h.rules key hkey
    · rw [fail_cache] at hentry ⊢
      exact h.proxies key entry t hentry hs ht
  silence := fun h => { h with silent := congrArg (· + 1) h.silent, sane := (steady_sane c s).silence h.sane _ }
  unsilence := fun h h' _ _ => { h' with silent := h.silent, sane := (steady_sane c s).silence h'.sane _ }

theorem Shares.traced {st st' : ParseState} (h : Shares c c' s st st') (trace trace' : Option (Array TraceEvent)) :
    Shares c c' s { st with trace } { st' with trace := trace' } :=
  { h with sane := (steady_sane c s).keeps st _ rfl rfl h.sane }

theorem Sane.untraced (st : ParseState) (trace : Option (Array TraceEvent)) : c.Sane s { st with trace } → c.Sane s st :=
  (steady_sane c s).keeps _ st rfl rfl

/-- What a proxy did is remembered after its rule did it. -/
theorem Shares.remember_proxy {st st' : ParseState} (h : Shares c c' s st st') {t t' : RuleId}
    (hs : c.grammar.StandsFor t t') (hfinal : c.grammar.Final t') (hne : t ≠ t') {start : Nat} {v : Value}
    (hdone : st'.cache[({ st.key t start with rule := t' } : CacheKey)]? = some ⟨st.pos, v⟩)
    (sane : c.Sane s (st.remember t start v)) (trusts : c.Trusts (st.remember t start v)) :
    Shares c c' s (st.remember t start v) st' := by
  refine { h with sane := sane, trusts := trusts, rules := fun key hkey => ?_, proxies := fun key entry t₀ hentry hs₀ ht₀ => ?_ }
  · unfold ParseState.remember
    rw [Std.HashMap.getElem?_insert, if_neg]
    · exact h.rules key hkey
    · intro hk
      rw [← beq_iff_eq.1 hk] at hkey
      exact hne (hs.eq_of_final hkey)
  · unfold ParseState.remember at hentry
    rw [Std.HashMap.getElem?_insert] at hentry
    split at hentry
    · rename_i hk
      cases hentry
      rw [← beq_iff_eq.1 hk] at hs₀ ⊢
      rw [hs₀.definite ht₀ hs hfinal]
      exact hdone
    · exact h.proxies key entry t₀ hentry hs₀ ht₀

/-- What a rule did is remembered by both parsers, if its proxies did not remember anything there meanwhile. -/
theorem Shares.remember_rule {st st' : ParseState} (h : Shares c c' s st st') {t : RuleId} (hfinal : c.grammar.Final t)
    {start : Nat} {v : Value} (hnone : ∀ r, c.grammar.StandsFor r t → r ≠ t → st.cache[st.key r start]? = none)
    (sane : c.Sane s (st.remember t start v)) (trusts : c.Trusts (st.remember t start v))
    (trusts' : c'.Trusts (st'.remember t start v)) :
    Shares c c' s (st.remember t start v) (st'.remember t start v) := by
  have same : (st'.remember t start v).cache = st'.cache.insert (st.key t start) ⟨st.pos, v⟩ := by
    unfold ParseState.remember ParseState.key
    rw [h.silent, h.pos]
  have rules : ∀ key : CacheKey, c.grammar.Final key.rule →
      (st.remember t start v).cache[key]? = (st'.remember t start v).cache[key]? := fun key hkey => by
    rw [same]
    unfold ParseState.remember
    rw [Std.HashMap.getElem?_insert, Std.HashMap.getElem?_insert, h.rules key hkey]
  refine { h with sane := sane, trusts := trusts, trusts' := trusts', rules := rules,
                  proxies := fun key entry t₀ hentry hs₀ ht₀ => ?_ }
  by_cases hk : st.key t start = key
  · subst hk
    have e : t = t₀ := hs₀.eq_of_final hfinal
    subst e
    rw [← rules _ hfinal]
    exact hentry
  · unfold ParseState.remember at hentry
    rw [Std.HashMap.getElem?_insert, if_neg (fun e => hk (beq_iff_eq.1 e))] at hentry
    rw [same, Std.HashMap.getElem?_insert, if_neg]
    · exact h.proxies key entry t₀ hentry hs₀ ht₀
    · intro e
      obtain ⟨pos, r, silent⟩ := key
      have e := beq_iff_eq.1 e
      unfold ParseState.key at e hk
      injection e with hpos hrule hsilent
      subst hpos hrule hsilent
      -- the entry is one of a proxy, at the key of its rule
      have none := hnone r hs₀ fun e => hk (by rw [e])
      unfold ParseState.key at none
      rw [none] at hentry
      cases hentry

/-! ## Runs side by side -/

/-- After a run of a rule, what it did is remembered. -/
theorem remembered_after (hcache : c.options.cache = true) {r : RuleId} {st st' : ParseState}
    {cs : List (HostCall HostFunction)} {v : Value} (hx : RuleRuns (c.inlineProgram bs) r st cs v st')
    (hsilent : st'.silent = st.silent) : st'.cache[st.key r st.pos]? = some ⟨st'.pos, v⟩ := by
  obtain ⟨rule, -, hx⟩ := ruleRuns_iff_meaning.1 hx
  rcases around_cases hx with ⟨entry, trace, -, -, hentry, rfl, rfl⟩ | ⟨-, trace, st₁, trace', -, rfl⟩
  · exact hentry
  · have remembers : (c.inlineProgram bs).cache = true := hcache
    simp only [remembers, if_true] at hsilent ⊢
    have key : st₁.key r st.pos = st.key r st.pos := by
      unfold ParseState.key
      rw [show st₁.silent = st.silent from hsilent]
    unfold ParseState.remember
    rw [key, Std.HashMap.getElem?_insert_self]

section Runs

variable (h : Shortens c c') (hbs : bs.NeverFail)

include h

/-- Terminals are judged alike. -/
theorem Shortens.terminal {r : RuleId} {rule : Rule} {f : Expr.Reference → Expr.Reference}
    (hr : c.grammar.live? r = some rule) (hr' : c'.grammar.live? r = some { rule with body := rule.body.mapRefs f })
    {e : Expr} (he : e ∈ rule.body.preorder) (ht : (Semantics.terminal? e).isSome) :
    (c.setting bs).matched e = (c'.setting bs).matched e := by
  obtain ⟨ρ, -, hjudged, -⟩ := settled h.complete hr
  obtain ⟨ρ', -, hjudged', -⟩ := settled h.complete' hr'
  have same : e.mapRefs f = e := by
    cases e with
    | literal | charClass | any => rfl
    | _ => cases ht
  have he' : e ∈ (rule.body.mapRefs f).preorder := by
    rw [Expr.preorder_mapRefs]
    exact List.mem_map.2 ⟨e, he, same⟩
  rw [show (c.setting bs).matched e = _ from hjudged e he, show (c'.setting bs).matched e = _ from hjudged' e he']
  cases e with
  | literal | charClass | any => rfl
  | _ => cases ht

include hbs

/-- Where rules go in step, so do the expressions of a rule. -/
theorem Shortens.alike {R : RuleId → Act HostFunction} (hR : ∀ t, Agrees c.Trusts (c.found.guess t) (R t))
    (ih : ∀ t t', c.grammar.StandsFor t t' → c.grammar.Final t' → (∃ rule, c'.grammar.live? t' = some rule) →
      Simulates (Shares c c' s) (R t) (RuleRuns (c'.inlineProgram bs) t'))
    {r : RuleId} {rule : Rule} {f : Expr.Reference → Expr.Reference} (hr : c.grammar.live? r = some rule)
    (hf : c.grammar.Redirects f) (hr' : c'.grammar.live? r = some { rule with body := rule.body.mapRefs f }) :
    AllAlike (Shares c c' s) (c.setting bs) (c'.setting bs) R (RuleRuns (c'.inlineProgram bs)) f rule.body := by
  intro e he
  have he' : e.mapRefs f ∈ (rule.body.mapRefs f).preorder := by
    rw [Expr.preorder_mapRefs]
    exact List.mem_map_of_mem he
  refine ⟨h.terminal hr hr' he, fun ls alike st st' hst cs v st₁ hx => ?_, fun i name t heq => ?_, fun code _ ls => ?_⟩
  · obtain ⟨cs', st₁', hx', -⟩ := alike st st' hst cs v st₁ hx
    have tells := (agrees_inside h.complete hbs hR hr he ls st hst.trusts cs v st₁ hx).1
    have tells' := (agrees_meaning h.complete' hbs hr' he' ls st' hst.trusts' cs' v st₁' hx').1
    exact tells.holds_eq.trans tells'.holds_eq.symm
  · subst heq
    obtain ⟨t', ht', hs⟩ := hf.of_some name t
    rw [Expr.mapRefs, ht'] at he'
    refine ⟨t', ht', ih t t' hs (h.final r _ t' ⟨_, Grammar.rule?_of_live? hr', he'⟩ rfl) ?_⟩
    obtain ⟨_, rule', e, hlive⟩ := h.progressive'.live r _ i _ _ hr' he'
    cases e
    exact ⟨rule', hlive⟩
  · rintro _ st' hst _ _ st ⟨kind, host, hfunction, rfl, rfl, rfl⟩
    refine ⟨_, st', ⟨kind, host, hfunction, rfl, ?_, rfl⟩, .refl hst⟩
    have view : HostView.of st = HostView.of st' := by
      unfold HostView.of
      rw [hst.input, hst.source, hst.saved, hst.pos]
    rw [view]

omit hbs in
/-- A rule does not come back to its proxies where it began. -/
theorem Shortens.outOfReach {r t : RuleId} (hs : c.grammar.StandsFor r t) (hne : r ≠ t) {rule : Rule}
    (hr : c.grammar.live? t = some rule) (pos : Nat) (silent : Bool) : c.grammar.OutOfReach ⟨pos, r, silent⟩ t pos := by
  refine .inr ⟨rfl, fun reaches => ?_⟩
  have acc := h.progressive.calls t rule hr
  rcases reaches.cases_head with e | ⟨u, hu, further⟩
  · exact hne e.symm
  · exact Grammar.not_reaches_of_acc acc hu (further.trans hs.reaches)

omit h hbs in
/-- What a proxy remembers, or a rule, the other parser remembers too. -/
theorem Shares.recall {st st' : ParseState} (hst : Shares c c' s st st') {t t' : RuleId}
    (hs : c.grammar.StandsFor t t') (hfinal : c.grammar.Final t') (hcache : c'.options.cache = true)
    (hlive : ∃ rule, c'.grammar.live? t' = some rule) {entry : CacheEntry}
    (hentry : st.cache[st.key t st.pos]? = some entry) (trace : Option (Array TraceEvent)) :
    ∃ cs' st₂', RuleRuns (c'.inlineProgram bs) t' st' cs' entry.result st₂' ∧
      Stays (Shares c c' s) st st' { st with pos := entry.next, trace } st₂' := by
  obtain ⟨rule', hr'⟩ := hlive
  have hentry' : st'.cache[st'.key t' st'.pos]? = some entry := by
    have found := hst.proxies _ entry t' hentry hs hfinal
    unfold ParseState.key at found ⊢
    rw [← hst.silent, ← hst.pos]
    exact found
  obtain ⟨trace', hx'⟩ := around_of_hit (p := c'.inlineProgram bs) rule'.name
    ((c'.setting bs).ofRule (RuleRuns (c'.inlineProgram bs)) rule') hcache hentry'
  exact ⟨[], _, ruleRuns_iff_meaning.2 ⟨rule', hr', hx'⟩,
    ((lockstep_shares c c' s).move hst entry.next).traced trace trace', rfl, rfl⟩

omit hbs in
/-- Proxies of a rule that was not remembered remember nothing while it runs: its run does not come to them, and what
they remembered before the other parser would have recalled. -/
theorem Shortens.proxies_idle {reserved : List String}
    (hlabels : ∀ r rule, c.grammar.live? r = some rule → labelsIn reserved [] rule.body = [])
    (hbound : ∀ r rule e code kind names, c.grammar.live? r = some rule → e ∈ rule.body.preorder → code ∈ e.codes →
      ∃ f, (c.setting bs).function ⟨kind, names, code.val, code.span⟩ = .ok f)
    {st st' : ParseState} (hst : Shares c c' s st st') {t : RuleId} (hfinal : c.grammar.Final t) {rule : Rule}
    (hr : c.grammar.live? t = some rule) (miss : st'.cache[st'.key t st'.pos]? = none)
    {cs : List (HostCall HostFunction)} {v : Value} {st₁ st₂ : ParseState}
    (hrun : RuleRuns (c.inlineProgram bs) t st cs v st₂) (hst₂ : st₂.cache = (st₁.remember t st.pos v).cache)
    {r : RuleId} (hs : c.grammar.StandsFor r t) (hne : r ≠ t) : st₁.cache[st.key r st.pos]? = none := by
  obtain ⟨_, _, _, hleft, leaves⟩ := ruleRuns_leaving h.complete bs h.progressive hlabels hbound
    (· = st.key r st.pos) st hst.sane t ⟨rule, hr⟩ (fun _ e => e ▸ h.outOfReach hs hne hr _ _)
  obtain ⟨-, -, rfl⟩ := ruleRuns_definite t hrun hleft
  have kept := leaves.cache _ rfl
  unfold ParseState.remember at hst₂
  rw [hst₂, Std.HashMap.getElem?_insert, if_neg] at kept
  · rw [kept]
    cases hfound : st.cache[st.key r st.pos]? with
    | none => rfl
    | some entry =>
      have found := hst.proxies _ entry t hfound hs hfinal
      unfold ParseState.key at found miss
      rw [← hst.silent, ← hst.pos] at miss
      rw [miss] at found
      cases found
  · intro e
    have e := beq_iff_eq.1 e
    unfold ParseState.key at e
    injection e with _ e _
    exact hne e.symm

omit h hbs in
/-- A rule that both parsers have done is remembered by both, or by neither. -/
theorem Shares.done_rule (hsame : c'.options.cache = c.options.cache) {st st' st₁ st₁' : ParseState}
    (hst : Shares c c' s st st') (stays : Stays (Shares c c' s) st st' st₁ st₁') {t : RuleId}
    (hfinal : c.grammar.Final t) {v : Value} {trace trace' : Option (Array TraceEvent)}
    (hnone : c.options.cache = true →
      ∀ r, c.grammar.StandsFor r t → r ≠ t → st₁.cache[st.key r st.pos]? = none)
    (sane : c.Sane s { (if (c.inlineProgram bs).cache then st₁.remember t st.pos v else st₁) with trace })
    (trusts : c.Trusts { (if (c.inlineProgram bs).cache then st₁.remember t st.pos v else st₁) with trace })
    (trusts' : c'.Trusts
      { (if (c'.inlineProgram bs).cache then st₁'.remember t st'.pos v else st₁') with trace := trace' }) :
    Stays (Shares c c' s) st st' { (if (c.inlineProgram bs).cache then st₁.remember t st.pos v else st₁) with trace }
      { (if (c'.inlineProgram bs).cache then st₁'.remember t st'.pos v else st₁') with trace := trace' } := by
  cases hcache : c.options.cache with
  | false =>
    have off : (c.inlineProgram bs).cache = false := hcache
    have off' : (c'.inlineProgram bs).cache = false := hsame.trans hcache
    rw [off, off']
    exact ⟨stays.related.traced trace trace', stays.silent, stays.silent'⟩
  | true =>
    have on : (c.inlineProgram bs).cache = true := hcache
    have on' : (c'.inlineProgram bs).cache = true := hsame.trans hcache
    rw [on] at trusts sane ⊢
    rw [on', ← hst.pos] at trusts' ⊢
    have none : ∀ r, c.grammar.StandsFor r t → r ≠ t → st₁.cache[st₁.key r st.pos]? = none := fun r hsr hrt => by
      have key : st₁.key r st.pos = st.key r st.pos := by
        unfold ParseState.key
        rw [show st₁.silent = st.silent from stays.silent]
      rw [key]
      exact hnone hcache r hsr hrt
    have stored := stays.related.remember_rule hfinal none
      (.untraced (st₁.remember t st.pos v) trace sane) (ofCache_trusts c _ _ rfl trusts)
      (ofCache_trusts c' _ _ rfl trusts')
    exact ⟨stored.traced trace trace', stays.silent, stays.silent'⟩

omit h hbs in
/-- A proxy that the first parser has done is remembered by it as its rule is by the second one, or by neither. -/
theorem Shares.done_proxy (hsame : c'.options.cache = c.options.cache) {st st' st₁ st₁' : ParseState}
    (hst : Shares c c' s st st') (stays : Stays (Shares c c' s) st st' st₁ st₁') {t t' : RuleId}
    (hs : c.grammar.StandsFor t t') (hfinal : c.grammar.Final t') (hne : t ≠ t') {cs : List (HostCall HostFunction)}
    {v : Value} (hx : RuleRuns (c'.inlineProgram bs) t' st' cs v st₁') {trace : Option (Array TraceEvent)}
    (sane : c.Sane s { (if (c.inlineProgram bs).cache then st₁.remember t st.pos v else st₁) with trace })
    (trusts : c.Trusts { (if (c.inlineProgram bs).cache then st₁.remember t st.pos v else st₁) with trace }) :
    Stays (Shares c c' s) st st' { (if (c.inlineProgram bs).cache then st₁.remember t st.pos v else st₁) with trace }
      st₁' := by
  cases hcache : c.options.cache with
  | false =>
    have off : (c.inlineProgram bs).cache = false := hcache
    rw [off]
    exact ⟨stays.related.traced trace st₁'.trace, stays.silent, stays.silent'⟩
  | true =>
    have on : (c.inlineProgram bs).cache = true := hcache
    rw [on] at trusts sane ⊢
    have done : st₁'.cache[({ st₁.key t st.pos with rule := t' } : CacheKey)]? = some ⟨st₁.pos, v⟩ := by
      have done := remembered_after (hsame.trans hcache) hx stays.silent'
      unfold ParseState.key at done ⊢
      rw [stays.related.pos, show st₁.silent = st.silent from stays.silent, hst.silent, hst.pos]
      exact done
    have stored := stays.related.remember_proxy hs hfinal hne done
      (.untraced (st₁.remember t st.pos v) trace sane) (ofCache_trusts c _ _ rfl trusts)
    exact ⟨stored.traced trace st₁'.trace, stays.silent, stays.silent'⟩

/-- From states that share, a rule does in the one parser what the rule that it stands for does in the other one. -/
theorem simulates_bypassed {reserved : List String}
    (hlabels : ∀ r rule, c.grammar.live? r = some rule → labelsIn reserved [] rule.body = [])
    (hbound : ∀ r rule e code kind names, c.grammar.live? r = some rule → e ∈ rule.body.preorder → code ∈ e.codes →
      ∃ f, (c.setting bs).function ⟨kind, names, code.val, code.span⟩ = .ok f)
    (n : Nat) (t t' : RuleId) (hs : c.grammar.StandsFor t t') (hfinal : c.grammar.Final t')
    (hlive : ∃ rule, c'.grammar.live? t' = some rule) :
    Simulates (Shares c c' s) (RuleExec (c.inlineProgram bs) n t) (RuleRuns (c'.inlineProgram bs) t') := by
  induction n generalizing t t' with
  | zero => exact fun st st' _ cs v st₁ hx => hx.elim
  | succ n ih =>
    intro st st' hst cs v st₂ hrun
    obtain ⟨rule, hr, hx⟩ := ruleExec_succ_iff.1 hrun
    have trusts : c.Trusts st₂ := (agrees_ruleExec h.complete hbs (n + 1) t st hst.trusts cs v st₂ hrun).2
    have sane : c.Sane s st₂ := (advances_ruleExec h.complete (n + 1) t st hst.sane cs v st₂ hrun).1
    rcases around_cases hx with ⟨entry, trace, -, hcache, hentry, rfl, rfl⟩ | ⟨hmiss, trace, st₁, trace', hbody, rfl⟩
    · exact hst.recall hs hfinal (h.cache.trans hcache) hlive hentry trace
    by_cases hne : t = t'
    · -- the rule itself: its body has redirected references in the other parser, which run on the shorter runs
      subst hne
      obtain ⟨rule', hr'⟩ := hlive
      obtain ⟨f, hf, hrule'⟩ := h.bypasses.rule t rule (Grammar.rule?_of_live? hr)
      rw [Grammar.rule?_of_live? hr'] at hrule'
      cases hrule'
      have miss : (c'.inlineProgram bs).cache = true → st'.cache[st'.key t st'.pos]? = none := fun hc => by
        have key : st'.key t st'.pos = st.key t st.pos := by
          unfold ParseState.key
          rw [hst.silent, hst.pos]
        rw [key, ← hst.rules _ hfinal]
        exact hmiss (h.cache.symm.trans hc)
      obtain ⟨trace₁, around⟩ := around_of_miss rule.name
        ((c'.setting bs).ofRule (RuleRuns (c'.inlineProgram bs)) { rule with body := rule.body.mapRefs f }) miss
      have calls : (c.setting bs).function = (c'.setting bs).function := rfl
      have alike := h.alike hbs (agrees_ruleExec h.complete hbs n) ih hr hf hr'
      obtain ⟨cs', st₁', hbody', stays⟩ := simulates_ofRule (lockstep_shares c c' s) calls rule alike _ _
        (hst.traced trace trace₁) cs v st₁ hbody
      obtain ⟨trace₂, hx'⟩ := around cs' v st₁' hbody'
      have hrun' : RuleRuns (c'.inlineProgram bs) t st' cs' v _ := ruleRuns_iff_meaning.2 ⟨_, hr', hx'⟩
      have trusts' := (agrees_ruleRuns h.complete' hbs t st' hst.trusts' cs' v _ hrun').2
      refine ⟨cs', _, hrun', hst.done_rule h.cache ⟨stays.related, stays.silent, stays.silent'⟩ hfinal
        (fun on r hsr hrt => ?_) sane trusts trusts'⟩
      have remembers : (c.inlineProgram bs).cache = true := on
      rw [remembers] at hrun
      exact h.proxies_idle hlabels hbound hst hfinal hr (miss (h.cache.trans on)) ⟨n + 1, hrun⟩ rfl hsr hrt
    · -- a proxy: the rule that it calls stands for the same one, and runs shorter
      cases hs with
      | refl => exact absurd rfl hne
      | @proxy _ u _ rule₀ i name hr₀ hname hbody₀ hs₀ =>
        have stands : c.grammar.StandsFor t t' := .proxy hr₀ hname hbody₀ hs₀
        rw [Grammar.rule?_of_live? hr] at hr₀
        cases hr₀
        have hbody : RuleExec (c.inlineProgram bs) n u { st with trace } cs v st₁ := by
          unfold Setting.ofRule at hbody
          rw [hname, hbody₀, Setting.meaning] at hbody
          exact hbody
        obtain ⟨cs', st₁', hx', stays⟩ := ih u t' hs₀ hfinal hlive _ _ (hst.traced trace st'.trace) cs v st₁ hbody
        exact ⟨cs', st₁', hx', hst.done_proxy h.cache ⟨stays.related, stays.silent, stays.silent'⟩ stands hfinal hne hx'
          sane trusts⟩

/-- A run of the rule that a parse starts from, which may itself be a proxy that was kept. -/
theorem runs_bypassed {reserved : List String}
    (hlabels : ∀ r rule, c.grammar.live? r = some rule → labelsIn reserved [] rule.body = [])
    (hbound : ∀ r rule e code kind names, c.grammar.live? r = some rule → e ∈ rule.body.preorder → code ∈ e.codes →
      ∃ f, (c.setting bs).function ⟨kind, names, code.val, code.span⟩ = .ok f)
    {r : RuleId} (hlive : ∃ rule, c'.grammar.live? r = some rule) {st st' : ParseState} (hst : Shares c c' s st st')
    (hempty : st.cache = {}) (hempty' : st'.cache = {}) {cs : List (HostCall HostFunction)} {v : Value}
    {st₂ : ParseState} (hx : RuleRuns (c.inlineProgram bs) r st cs v st₂) :
    ∃ cs' st₂', RuleRuns (c'.inlineProgram bs) r st' cs' v st₂' ∧ st₂.input = st₂'.input ∧ st₂.source = st₂'.source ∧
      st₂.pos = st₂'.pos ∧ st₂.failures = st₂'.failures := by
  obtain ⟨n, hx⟩ := hx
  by_cases hfinal : c.grammar.Final r
  · obtain ⟨cs', st₂', hx', stays⟩ :=
      simulates_bypassed h hbs hlabels hbound n r r (.refl r) hfinal hlive st st' hst cs v st₂ hx
    have shares := stays.related
    exact ⟨cs', st₂', hx', shares.input, shares.source, shares.pos, shares.failures⟩
  · -- a proxy is run in both parsers, with another target in the second one
    unfold Grammar.Final at hfinal
    push Not at hfinal
    obtain ⟨rule, i, name, t, hrule, hname, hbody⟩ := hfinal
    obtain ⟨rule', hr'⟩ := hlive
    obtain ⟨f, hf, hrule'⟩ := h.bypasses.rule r rule hrule
    rw [Grammar.rule?_of_live? hr'] at hrule'
    cases hrule'
    obtain ⟨t', ht', hs⟩ := hf.of_some name t
    have body' : rule.body.mapRefs f = .ruleRef i (f ⟨name, some t⟩).name (some t') := by
      rw [hbody, Expr.mapRefs, ht']
    have inside : Expr.ruleRef i (f ⟨name, some t⟩).name (some t') ∈ (rule.body.mapRefs f).preorder := by
      rw [body']
      exact Expr.mem_preorder_self _
    have hfinal' : c.grammar.Final t' := h.final r _ t' ⟨_, Grammar.rule?_of_live? hr', inside⟩ rfl
    have hlive' : ∃ rule, c'.grammar.live? t' = some rule := by
      obtain ⟨_, rule', e, hlive⟩ := h.progressive'.live r _ i _ _ hr' inside
      cases e
      exact ⟨rule', hlive⟩
    cases n with
    | zero => exact hx.elim
    | succ n =>
      obtain ⟨rule₁, hr₁, hx⟩ := ruleExec_succ_iff.1 hx
      rw [Grammar.rule?_of_live? hr₁] at hrule
      cases hrule
      rcases around_cases hx with ⟨entry, _, -, -, hentry, -⟩ | ⟨-, trace, st₁, trace', hdone, rfl⟩
      · -- nothing is remembered at the start of a parse
        rw [hempty, Std.HashMap.getElem?_empty] at hentry
        cases hentry
      have hx : RuleExec (c.inlineProgram bs) n t { st with trace } cs v st₁ := by
        unfold Setting.ofRule at hdone
        rw [hname, hbody, Setting.meaning] at hdone
        exact hdone
      have miss : (c'.inlineProgram bs).cache = true → st'.cache[st'.key r st'.pos]? = none := fun _ => by
        rw [hempty', Std.HashMap.getElem?_empty]
      obtain ⟨trace₁, around⟩ := around_of_miss rule.name
        ((c'.setting bs).ofRule (RuleRuns (c'.inlineProgram bs)) { rule with body := rule.body.mapRefs f }) miss
      obtain ⟨cs', st₁', hx', stays⟩ := simulates_bypassed h hbs hlabels hbound n t t' hs hfinal' hlive' _ _
        (hst.traced trace trace₁) cs v st₁ hx
      obtain ⟨trace₂, hx'⟩ := around cs' v st₁' (by
        unfold Setting.ofRule
        rw [hname]
        show (c'.setting bs).meaning _ (rule.body.mapRefs f) [] _ _ _ _
        rw [body', Setting.meaning]
        exact hx')
      have shares := stays.related
      -- after the target there are only reports, and what is remembered
      have plain (b : Bool) (u : ParseState) (start : Nat) (trace : Option (Array TraceEvent)) :
          ∀ w : ParseState, w = { (if b then u.remember r start v else u) with trace } →
            w.input = u.input ∧ w.source = u.source ∧ w.pos = u.pos ∧ w.failures = u.failures := by
        rintro _ rfl
        cases b <;> exact ⟨rfl, rfl, rfl, rfl⟩
      obtain ⟨input, source, pos, failures⟩ := plain _ st₁ st.pos trace' _ rfl
      obtain ⟨input', source', pos', failures'⟩ := plain _ st₁' st'.pos trace₂ _ rfl
      refine ⟨cs', _, ruleRuns_iff_meaning.2 ⟨_, hr', hx'⟩, ?_, ?_, ?_, ?_⟩
      · exact input.trans (shares.input.trans input'.symm)
      · exact source.trans (shares.source.trans source'.symm)
      · exact pos.trans (shares.pos.trans pos'.symm)
      · exact failures.trans (shares.failures.trans failures'.symm)

end Runs

/-- The compilation without proxies is that of the same grammar with its references bypassed. -/
theorem Ready.shortens {g : Grammar} {o : CompileOptions} (h : c.Ready g o) (hsame : c.grammar = g) (h' : c'.Ready g o)
    (hbypassed : c'.grammar = (g.removeProxies (Analysis.startRules g o.allowedStartRules).1).1) (haccepts : Session.Accepted g o)
    (hg : g.Built) (hres : g.Resolved) : Shortens c c' := by
  have progressive := haccepts.progressive hg hres h.bypasses fun r hr => (h.dropped r hr).2
  refine ⟨hsame ▸ h'.bypasses, fun r e t he ht => ?_, h'.options.symm ▸ h.options.symm ▸ rfl, h.complete, h'.complete,
    progressive, haccepts.progressive hg hres h'.bypasses fun r hr => (h'.dropped r hr).2⟩
  rw [hsame] at progressive ⊢
  intro rule i name u hrule hname hbody
  have hlive : g.live? t = some rule := by
    unfold Grammar.live?
    rw [hg.removed]
    exact hrule
  have hcycle : ¬ g.StandsFor u t := fun hs =>
    Grammar.not_reaches_of_acc (progressive.calls t rule hlive) (Grammar.leftCalls_of_proxy hrule hbody) hs.reaches
  rw [hbypassed] at he
  exact Grammar.unreferenced_removeProxies hg.removed _ hrule hname hbody hcycle r e he ht

/-- Where a parser with all proxies ends a run, the one without them does so with the same value at the same place, and
with the same failures. -/
theorem Ready.ends_bypassed {g : Grammar} {o : CompileOptions} (h : c.Ready g o) (h' : c'.Ready g o)
    (shortens : Shortens c c') (haccepts : Session.Accepted g o) (hg : g.Built) (hbs : bs.NeverFail)
    (hu' : (c'.parserWith bs).unbound? = none) {text : String} {po : ParseOptions} {v : Value} {st : ParseState}
    (hends : (c.parserWith bs).Ends text po (.ok v) st) : ∃ st', (c'.parserWith bs).Ends text po (.ok v) st' ∧
      st.input = st'.input ∧ st.source = st'.source ∧ st.pos = st'.pos ∧ st.failures = st'.failures := by
  obtain ⟨hu, r, _, he, hrun⟩ := hends.ruleRuns
  have he' : (c'.parserWith bs).entry po = .ok r := h.entry_congr h' bs bs po ▸ he
  -- functions for host code that is never called do no harm, and make rules come to an end
  have full : (bs.covering c.grammar.codes).NeverFail := hbs.covering
  rw [← program_covering hu c.grammar.codes] at hrun
  obtain ⟨cs, rfl, hinline⟩ := (h.coded.ruleRuns ..).1 hrun
  have start : Shares c c' text (.start text po.source po.tracing) (.start text po.source po.tracing) :=
    { input := rfl, source := rfl, pos := rfl, saved := rfl, silent := rfl, failures := rfl
      sane := sane_of_empty rfl rfl
      trusts := trusts_of_empty rfl
      trusts' := trusts_of_empty rfl
      rules := fun _ _ => rfl
      proxies := fun key entry t hentry => by
        rw [show (ParseState.start text po.source po.tracing).cache = {} from rfl, Std.HashMap.getElem?_empty] at hentry
        cases hentry }
  obtain ⟨cs', st', hrun', input, source, pos, failures⟩ := runs_bypassed shortens full
    (fun r rule hr => haccepts.labels_of hg h.bypasses hr)
    (fun r rule e code kind names hr he hcode => function_of_bind (bs.bind_covering _) hr he hcode kind names)
    (h'.entry_live haccepts he').2 start rfl rfl hinline
  have runs : RuleRuns (c'.parserWith (bs.covering c.grammar.codes)).program r _ _ v st' :=
    (h'.coded.ruleRuns ..).2 ⟨cs', rfl, hrun'⟩
  rw [program_covering hu'] at runs
  exact ⟨st', Parser.ends_of_ruleRuns hu' he' runs, input, source, pos, failures⟩

end Compilation

/-! ## Parses without proxies -/

/-- Whether references to proxies were bypassed or not, a parser ends every run in the same way, and every parse with
the same answer. -/
theorem bypassing_changes_nothing {d : Draft} {g : Grammar} (hd : d.build? = .ok g) {o : CompileOptions}
    {s₀ : Session} (hchecks : Session.advance ⟨.start g o, []⟩ .check = .ok s₀)
    (haccepts : Diagnostics.check s₀.diagnostics = .ok ⟨⟩) :
    ∃ p p', Parser.compiled [.matching] g o = .ok p ∧ Parser.compiled [.proxies, .matching] g o = .ok p' ∧
      ∀ bs : Bindings, bs.NeverFail → Parser.unbound? { p with bindings := bs } = none →
        Parser.unbound? { p' with bindings := bs } = none → ∀ (text : String) (po : ParseOptions), ∃ result st st',
          Parser.Ends { p with bindings := bs } text po result st ∧
          Parser.Ends { p' with bindings := bs } text po result st' ∧ st.pos = st'.pos ∧ st.maxFailPos = st'.maxFailPos ∧
          st.expected.toList = st'.expected.toList ∧ Parser.finish result st = Parser.finish result st' := by
  obtain ⟨rfl, accepted, built, resolved⟩ := Session.accepted_of_checks hd hchecks haccepts
  obtain ⟨c, hcompiled, ready, same⟩ := accepted.compiled_proxies built resolved
  obtain ⟨c', hcompiled', ready', bypassed⟩ := accepted.compiled_bypassed built resolved
  refine ⟨_, _, hcompiled, hcompiled', fun bs hbs hu hu' text po => ?_⟩
  show ∃ result st st', (c.parserWith bs).Ends text po result st ∧ (c'.parserWith bs).Ends text po result st' ∧ _
  have hu : (c.parserWith bs).unbound? = none := hu
  have hu' : (c'.parserWith bs).unbound? = none := hu'
  have entry := ready.entry_congr ready' bs bs po
  rcases ready.ends accepted built resolved bs text po with ⟨code, h⟩ | ⟨why, he⟩ | ⟨v, st, hends⟩
  · rw [hu] at h
    cases h
  · exact ⟨_, _, _, Parser.ends_rejected hu he, Parser.ends_rejected hu' (entry ▸ he), rfl, rfl, rfl, rfl⟩
  · have shortens := ready.shortens same ready' bypassed accepted built resolved
    obtain ⟨st', hends', input, source, pos, failures⟩ := ready.ends_bypassed ready' shortens accepted built hbs hu' hends
    exact ⟨_, st, st', hends, hends', pos, congrArg Failures.pos failures, congrArg Failures.expected failures,
      Parser.finish_congr input source pos (failures ▸ .refl _) _⟩

open Draft.Expr in
/-- `Start = List`, `List = Items`, `Items = Item ("," Item)*`, `Item = Word` and `Word = "a" { f }`. -/
def proxied : Draft := ⟨none, none, [
  .of "Start" (ref "List") none, .of "List" (ref "Items") none,
  .of "Items" (seq [ref "Item", star (seq [exactly ",", ref "Item"])]) none,
  .of "Item" (ref "Word") none, .of "Word" ((exactly "a").thenDo "f") none]⟩

theorem bypassing_changes_nothing_proxied : ∃ g s₀ p p' bs, proxied.build? = .ok g ∧
    Session.advance ⟨.start g .default, []⟩ .check = .ok s₀ ∧ Diagnostics.check s₀.diagnostics = .ok ⟨⟩ ∧
    Parser.compiled [.matching] g .default = .ok p ∧ Parser.compiled [.proxies, .matching] g .default = .ok p' ∧
    bs = [("f", fun view _ => Value.str view.text)] ∧ Bindings.NeverFail bs ∧
    Parser.unbound? { p with bindings := bs } = none ∧ Parser.unbound? { p' with bindings := bs } = none ∧
    ∀ (text : String) (po : ParseOptions), ∃ result st st', Parser.Ends { p with bindings := bs } text po result st ∧
      Parser.Ends { p' with bindings := bs } text po result st' ∧ st.pos = st'.pos ∧ st.maxFailPos = st'.maxFailPos ∧
      st.expected.toList = st'.expected.toList ∧ Parser.finish result st = Parser.finish result st' := by
  obtain ⟨g, hg⟩ : ∃ g, proxied.build? = .ok g := ⟨_, rfl⟩
  have hs₀ : Session.advance ⟨.start g .default, []⟩ .check = .ok (Session.checked g .default) := rfl
  have accepts : Diagnostics.check (Session.checked g .default).diagnostics = .ok ⟨⟩ := by cases hg; rfl
  obtain ⟨p, p', hp, hp', same⟩ := bypassing_changes_nothing hg hs₀ accepts
  have known : (Parser.compiled [.matching] g .default).map (fun p =>
      Parser.unbound? { p with bindings := [("f", fun view _ => .str view.text)] }) = .ok none := by
    cases hg
    decide +kernel
  have known' : (Parser.compiled [.proxies, .matching] g .default).map (fun p =>
      Parser.unbound? { p with bindings := [("f", fun view _ => .str view.text)] }) = .ok none := by
    cases hg
    decide +kernel
  rw [hp] at known
  rw [hp'] at known'
  have never : Bindings.NeverFail [("f", fun view _ => .str view.text)] :=
    Bindings.neverFail_cons (fun _ _ => rfl) Bindings.neverFail_nil
  exact ⟨g, _, p, p', _, hg, hs₀, accepts, hp, hp', rfl, never, Except.ok.inj known, Except.ok.inj known',
    same _ never (Except.ok.inj known) (Except.ok.inj known')⟩

end PegCompiler
