/-
Grammars whose parsers always get on. The checks look at a grammar before its proxies are bypassed and parsers run
what is left afterwards, so what the checks made sure of has to survive this: that calls before anything is consumed
end, and that repetitions do.
-/
import PegCompiler.Proofs.Acceptance
import PegCompiler.Proofs.Analysis.LeftRecursion

namespace PegCompiler

open Analysis

/-- Parsers of the grammar always get on. -/
structure Grammar.Progressive (g : Grammar) : Prop where
  /-- Calls before anything is consumed end. -/
  calls : ∀ r rule, g.live? r = some rule → Acc (LeftCalls g) r
  /-- Repetitions end. -/
  bounded : ∀ r rule e, g.live? r = some rule → e ∈ rule.body.preorder → Bounded (Consumes g) e
  /-- References stand for rules that were not removed. -/
  live : ∀ r rule i name target, g.live? r = some rule → .ruleRef i name target ∈ rule.body.preorder →
    ∃ t rule', target = some t ∧ g.live? t = some rule'

namespace Grammar.Bypasses

variable {g g' : Grammar} {f : Expr.Reference → Expr.Reference}

/-- References to one rule get another target. -/
def toward (t t' : RuleId) (ref : Expr.Reference) : Expr.Reference :=
  if ref.target = some t then ⟨ref.name, some t'⟩ else ref

theorem redirects_toward {t t' : RuleId} (h : g.StandsFor t t') : g.Redirects (toward t t') := by
  intro ref
  unfold toward
  split
  · rename_i ht; exact .inr ⟨t, t', ht, rfl, h⟩
  · exact .inl rfl

/-- What consumed still does. -/
theorem consumes_mapRefs (h : g.Bypasses g') {e : Expr} (he : Consumes g e) (hf : g.Redirects f) :
    Consumes g' (e.mapRefs f) := by
  induction he generalizing f with
  | literal hv => exact .literal hv
  | charClass => exact .charClass
  | any => exact .any
  | @sequence i elements e hm _ ih =>
    rw [Expr.mapRefs, Expr.mapRefsAll_eq]
    exact .sequence (List.mem_map_of_mem hm) (ih hf)
  | @choice i first others _ _ ih ihs =>
    rw [Expr.mapRefs, Expr.mapRefsAll_eq]
    refine .choice (ih hf) fun e' he' => ?_
    obtain ⟨e, hm, rfl⟩ := List.mem_map.1 he'
    exact ihs e hm hf
  | @repeated i body min max delimiter hn _ ih => cases delimiter <;> exact .repeated hn (ih hf)
  | delimited hn _ ih => exact .delimited hn (ih hf)
  | @ruleRef i name t rule hr _ ih =>
    obtain ⟨f₀, hf₀, hr'⟩ := h.rule t rule hr
    have same (ref : Expr.Reference) (ht : ref.target = some t) : Consumes g' (.ruleRef i ref.name ref.target) := by
      rw [ht]
      exact .ruleRef hr' (ih hf₀)
    rcases hf ⟨name, some t⟩ with e | ⟨_, t', e, ht', hs⟩
    · rw [Expr.mapRefs, e]; exact same _ rfl
    · cases e
      cases hs with
      | refl => exact same _ ht'
      | proxy hr₁ _ hbody hs =>
        -- the body of the proxy leads to the new target, if its reference is pointed there
        rw [hr] at hr₁
        cases hr₁
        have onward := ih (redirects_toward hs)
        rw [hbody, Expr.mapRefs, toward, if_pos rfl] at onward
        cases onward with
        | ruleRef hr'' hc =>
          rw [Expr.mapRefs, ht']
          exact .ruleRef hr'' hc
  | labeled _ ih => exact .labeled (ih hf)
  | action _ ih => exact .action (ih hf)
  | named _ ih => exact .named (ih hf)
  | text _ ih => exact .text (ih hf)
  | oneOrMore _ ih => exact .oneOrMore (ih hf)
  | group _ ih => exact .group (ih hf)

theorem bounded_mapRefs (h : g.Bypasses g') (hf : g.Redirects f) {e : Expr} (he : Bounded (Consumes g) e) :
    Bounded (Consumes g') (e.mapRefs f) := by
  cases e with
  | zeroOrMore i body | oneOrMore i body => exact h.consumes_mapRefs he hf
  | repeated i body min max delimiter =>
    rcases he with he | ⟨d, hd, he⟩ | he
    · cases delimiter <;> exact .inl (h.consumes_mapRefs he hf)
    · cases hd
      exact .inr (.inl ⟨_, rfl, h.consumes_mapRefs he hf⟩)
    · cases delimiter <;> exact .inr (.inr he)
  | _ => trivial

/-- Elements lead on as before, if each of them does and what may consume nothing might consume nothing before. -/
theorem leadsInOrder_mapRefs {es : List Expr} {t' : RuleId}
    (only : ∀ e : Expr, ¬ Consumes g' (e.mapRefs f) → ¬ Consumes g e)
    (h : ∀ e ∈ es, Leads g' t' (e.mapRefs f) → ∃ t, Leads g t e ∧ g.StandsFor t t')
    (hes : LeadsInOrder g' t' (es.map (Expr.mapRefs f))) : ∃ t, LeadsInOrder g t es ∧ g.StandsFor t t' := by
  induction es with
  | nil => exact hes.elim
  | cons e es ih =>
    rcases hes with he | ⟨hc, hes⟩
    · obtain ⟨t, ht, hs⟩ := h e List.mem_cons_self he
      exact ⟨t, .inl ht, hs⟩
    · obtain ⟨t, ht, hs⟩ := ih (fun e' he' => h e' (List.mem_cons_of_mem _ he')) hes
      exact ⟨t, .inr ⟨only e hc, ht⟩, hs⟩

theorem leadsAny_mapRefs {es : List Expr} {t' : RuleId}
    (h : ∀ e ∈ es, Leads g' t' (e.mapRefs f) → ∃ t, Leads g t e ∧ g.StandsFor t t')
    (hes : LeadsAny g' t' (es.map (Expr.mapRefs f))) : ∃ t, LeadsAny g t es ∧ g.StandsFor t t' := by
  induction es with
  | nil => exact hes.elim
  | cons e es ih =>
    rcases hes with he | hes
    · obtain ⟨t, ht, hs⟩ := h e List.mem_cons_self he
      exact ⟨t, .inl ht, hs⟩
    · obtain ⟨t, ht, hs⟩ := ih (fun e' he' => h e' (List.mem_cons_of_mem _ he')) hes
      exact ⟨t, .inr ht, hs⟩

/-- Whatever an expression leads to, it led to before, or to a proxy of it. -/
theorem leads_mapRefs (h : g.Bypasses g') (hf : g.Redirects f) {e : Expr} {t' : RuleId}
    (he : Leads g' t' (e.mapRefs f)) : ∃ t, Leads g t e ∧ g.StandsFor t t' := by
  -- what is sure to consume stays so, and hides no less of what follows it
  have only {e : Expr} (hc : ¬ Consumes g' (e.mapRefs f)) : ¬ Consumes g e := fun he => hc (h.consumes_mapRefs he hf)
  induction e using Expr.induction with
  | sequence i elements ih =>
    unfold Expr.mapRefs at he
    unfold Leads at he ⊢
    rw [Expr.mapRefsAll_eq] at he
    exact leadsInOrder_mapRefs (fun _ => only) ih he
  | choice i first others ih ihs =>
    unfold Expr.mapRefs at he
    unfold Leads at he ⊢
    rw [Expr.mapRefsAll_eq] at he
    rcases he with he | he
    · obtain ⟨t, ht, hs⟩ := ih he
      exact ⟨t, .inl ht, hs⟩
    · obtain ⟨t, ht, hs⟩ := leadsAny_mapRefs ihs he
      exact ⟨t, .inr ht, hs⟩
  | repeated i body min max delimiter ih ihDelimiter =>
    cases delimiter with
    | none => exact ih he
    | some d =>
      rcases he with he | ⟨hc, he⟩
      · obtain ⟨t, ht, hs⟩ := ih he
        exact ⟨t, .inl ht, hs⟩
      · obtain ⟨t, ht, hs⟩ := ihDelimiter d rfl he
        exact ⟨t, .inr ⟨only hc, ht⟩, hs⟩
  | ruleRef i name target =>
    unfold Expr.mapRefs at he
    -- the new target is one that the old one stands for
    cases ht : (f ⟨name, target⟩).target with
    | none => rw [ht] at he; exact he.elim
    | some t₀ =>
      rw [ht] at he
      obtain rfl : t₀ = t' := he
      obtain ⟨t, e, hs⟩ := hf.of_target ht
      cases e
      exact ⟨t, rfl, hs⟩
  | labeled _ _ _ body ih | action _ body _ ih | text _ body ih | simpleAnd _ body ih | simpleNot _ body ih
  | optional _ body ih | zeroOrMore _ body ih | oneOrMore _ body ih | group _ body ih | named _ _ body ih =>
    exact ih he
  | semanticAnd | semanticNot | literal | charClass | any => exact he.elim

/-- Where the calls of a rule ended, those of the rules it stands for still do. -/
theorem acc_leftCalls (h : g.Bypasses g') {r : RuleId} (hr : Acc (LeftCalls g) r) :
    ∀ r', g.StandsFor r r' → Acc (LeftCalls g') r' := by
  induction hr with
  | intro r _ ih =>
    intro r' hs
    cases hs with
    | proxy hr _ hbody hs => exact ih _ ⟨_, hr, by rw [hbody]; rfl⟩ r' hs
    | refl =>
      refine .intro r fun t' ⟨rule', hr', ht'⟩ => ?_
      obtain ⟨rule, f, hr, hf, rfl⟩ := h.of_rule hr'
      obtain ⟨t, ht, hs⟩ := h.leads_mapRefs hf ht'
      exact ih t ⟨rule, hr, ht⟩ t' hs

end Grammar.Bypasses

/-- What the parser of an accepted grammar runs always gets on, whichever proxies were bypassed. -/
theorem Session.Accepted.progressive {g g' : Grammar} {o : CompileOptions} (h : Session.Accepted g o) (hg : g.Built)
    (hres : g.Resolved) (bypasses : g.Bypasses g') (hremoved : ∀ r ∈ g'.removed, g'.Unreferenced r) :
    g'.Progressive := by
  have live : ∀ r rule, g.rule? r = some rule → g.live? r = some rule := fun r rule hr => by
    unfold Grammar.live?
    rw [hg.removed]
    exact hr
  refine ⟨fun r rule' hr' => ?_, fun r rule' e' hr' he' => ?_, fun r rule' i name target hr' he' => ?_⟩
  · obtain ⟨rule, -, hr, -, -⟩ := bypasses.of_rule (Grammar.rule?_of_live? hr')
    exact bypasses.acc_leftCalls (acc_of_leftRecursion h.excludes.recursion hg.refers r
      (Grammar.mem_liveIds.2 ⟨rule, live r rule hr⟩)) r (.refl r)
  · obtain ⟨e, f, ⟨rule, hr, he⟩, hf, rfl⟩ := bypasses.inside ⟨rule', Grammar.rule?_of_live? hr', he'⟩
    refine bypasses.bounded_mapRefs hf (bounded_of_emptyRepetitions h.excludes.repetitions ?_)
    exact List.mem_flatMap.2 ⟨(r, rule), Grammar.mem_live.2 (live r rule hr), he⟩
  · have inside := Grammar.rule?_of_live? hr'
    obtain ⟨t, rfl, ht⟩ := bypasses.resolved hres r _ ⟨rule', inside, he'⟩
    have present := List.getElem?_eq_getElem ht
    refine ⟨t, g'.rules[t], rfl, ?_⟩
    unfold Grammar.live?
    split
    · rename_i removed
      have gone := hremoved t (List.contains_iff_mem.1 removed)
      exact absurd rfl (gone r _ ⟨rule', inside, he'⟩)
    · exact present

end PegCompiler
