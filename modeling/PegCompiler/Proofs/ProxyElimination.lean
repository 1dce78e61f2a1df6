/-
No proxy is left behind. The pass looks at every rule once, while it changes the bodies that say who is a proxy. What
carries it through chains and cycles in any order of declaration is `Bypassing`: a rule that had its turn is no proxy
from then on, or nothing refers to it. A proxy stays unmentioned, because a later reference to it could only come from
the body of a later proxy, which would mention it already; and no rule becomes a proxy, because a reference to itself
is not redirected. So the pass finds nothing to do in what it has made.
-/
import PegCompiler.Compilation
import PegCompiler.Proofs.Grammar.Links
import PegCompiler.Proofs.Grammar.Proxy

namespace PegCompiler

/-! ## Redirected references -/

namespace Expr

/-- Only references matter to a change of references. -/
theorem mapRefs_congr {f f' : Reference → Reference} (e : Expr)
    (h : ∀ i name target, .ruleRef i name target ∈ e.preorder → f ⟨name, target⟩ = f' ⟨name, target⟩) :
    e.mapRefs f = e.mapRefs f' := by
  have below {e c : Expr} (hc : c ∈ e.children)
      (h : ∀ i name target, .ruleRef i name target ∈ e.preorder → f ⟨name, target⟩ = f' ⟨name, target⟩) :
      ∀ i name target, .ruleRef i name target ∈ c.preorder → f ⟨name, target⟩ = f' ⟨name, target⟩ :=
    fun i name target hm => h i name target (mem_preorder_of_child hc hm)
  induction e using induction with
  | choice i first others ih ihs =>
    rw [mapRefs, mapRefs, mapRefsAll_eq, mapRefsAll_eq, ih (below List.mem_cons_self h),
      List.map_congr_left fun c hc => ihs c hc (below (e := .choice i first others) (List.mem_cons_of_mem _ hc) h)]
  | sequence i elements ih =>
    rw [mapRefs, mapRefs, mapRefsAll_eq, mapRefsAll_eq,
      List.map_congr_left fun c hc => ih c hc (below (e := .sequence i elements) hc h)]
  | repeated i body min max delimiter ih ihDelimiter =>
    cases delimiter with
    | none => rw [mapRefs, mapRefs, ih (below List.mem_cons_self h)]
    | some d =>
      rw [mapRefs, mapRefs, ih (below List.mem_cons_self h),
        ihDelimiter d rfl (below (List.mem_cons_of_mem _ List.mem_cons_self) h)]
  | ruleRef i name target => rw [mapRefs, mapRefs, h i name target (mem_preorder_self _)]
  | labeled _ _ _ body ih | action _ body _ ih | text _ body ih | simpleAnd _ body ih | simpleNot _ body ih
  | optional _ body ih | zeroOrMore _ body ih | oneOrMore _ body ih | group _ body ih | named _ _ body ih =>
    rw [mapRefs, mapRefs, ih (below List.mem_cons_self h)]
  | semanticAnd | semanticNot | literal | charClass | any => rfl

/-- A reference of the new expression comes from one of the old expression. -/
theorem of_mapRefs_eq_ruleRef {f : Reference → Reference} {e : Expr} {i : Info} {name : String} {target : Option RuleId}
    (h : e.mapRefs f = .ruleRef i name target) :
    ∃ name₀ target₀, e = .ruleRef i name₀ target₀ ∧ f ⟨name₀, target₀⟩ = ⟨name, target⟩ := by
  cases e with
  | ruleRef j name₀ target₀ =>
    cases h
    exact ⟨name₀, target₀, rfl, rfl⟩
  | repeated j body min max delimiter => cases delimiter <;> cases h
  | _ => cases h

end Expr

namespace Grammar

/-- No reference that is left leads to a rule. -/
def Unmentioned (g : Grammar) (r : RuleId) : Prop := ∀ e ∈ g.liveExprs, e.target? ≠ some r

theorem proxyTarget?_eq_some {g : Grammar} {r t : RuleId} {rule : Rule} {i : Expr.Info} {name : String} (hne : t ≠ r)
    (hr : g.rule? r = some rule) (hname : rule.displayName = none) (hbody : rule.body = .ruleRef i name (some t)) :
    g.proxyTarget? r = some t := by
  obtain ⟨ruleName, nameSpan, displayName, body, span⟩ := rule
  obtain rfl : displayName = none := hname
  obtain rfl : body = .ruleRef i name (some t) := hbody
  unfold proxyTarget?
  rw [hr]
  exact if_neg hne

theorem proxyTarget?_congr {g g' : Grammar} {r : RuleId} (h : g'.rule? r = g.rule? r) :
    g'.proxyTarget? r = g.proxyTarget? r := by
  unfold proxyTarget?
  rw [h]

/-! ## One proxy -/

section Bypass

variable {g : Grammar} {rules : List RuleId} {r t d : RuleId}

theorem rule?_bypass (g : Grammar) (rules : List RuleId) (r t d : RuleId) : (g.bypass rules r t).1.rule? d =
    (g.rule? d).map fun rule =>
      { rule with body := if rules.contains d then rule.body.mapRefs (g.redirect r t) else rule.body } :=
  rule?_mapBodies g _ d

theorem live?_bypass (g : Grammar) (rules : List RuleId) (r t d : RuleId) : (g.bypass rules r t).1.live? d =
    (g.live? d).map fun rule =>
      { rule with body := if rules.contains d then rule.body.mapRefs (g.redirect r t) else rule.body } := by
  show (if g.removed.contains d then none else (g.bypass rules r t).1.rule? d) = _
  unfold live?
  rw [rule?_bypass]
  split <;> rfl

theorem mem_liveIds_bypass : d ∈ (g.bypass rules r t).1.liveIds ↔ d ∈ g.liveIds := by
  rw [mem_liveIds, mem_liveIds, live?_bypass]
  constructor
  · rintro ⟨rule', h⟩
    obtain ⟨rule, hrule, -⟩ := Option.map_eq_some_iff.1 h
    exact ⟨rule, hrule⟩
  · rintro ⟨rule, hrule⟩
    exact ⟨_, Option.map_eq_some_iff.2 ⟨rule, hrule, rfl⟩⟩

/-- Where all rules that are left are gone over, their expressions are those of before with redirected references. -/
theorem of_mem_liveExprs_bypass (hrules : ∀ d ∈ g.liveIds, d ∈ rules) {e' : Expr}
    (he' : e' ∈ (g.bypass rules r t).1.liveExprs) : ∃ e ∈ g.liveExprs, e' = e.mapRefs (g.redirect r t) := by
  obtain ⟨d, rule', hrule', he'⟩ := mem_liveExprs.1 he'
  rw [live?_bypass] at hrule'
  obtain ⟨rule, hrule, rfl⟩ := Option.map_eq_some_iff.1 hrule'
  have covered : rules.contains d = true := List.contains_iff_mem.2 (hrules d (mem_liveIds.2 ⟨rule, hrule⟩))
  simp only [covered, if_true, Expr.preorder_mapRefs] at he'
  obtain ⟨e, he, rfl⟩ := List.mem_map.1 he'
  exact ⟨e, mem_liveExprs.2 ⟨d, rule, hrule, he⟩, rfl⟩

/-- A proxy that is left has its reference among those that are left. -/
theorem reference_of_proxyTarget? (hr : r ∈ g.liveIds) (ht : g.proxyTarget? r = some t) :
    ∃ i name, .ruleRef i name (some t) ∈ g.liveExprs := by
  obtain ⟨-, proxy, i, name, hproxy, -, hbody⟩ := of_proxyTarget? ht
  obtain ⟨rule, hlive⟩ := mem_liveIds.1 hr
  have same : rule = proxy := Option.some.inj ((rule?_of_live? hlive).symm.trans hproxy)
  refine ⟨i, name, mem_liveExprs.2 ⟨r, rule, hlive, ?_⟩⟩
  rw [same, hbody]
  exact Expr.mem_preorder_self _

/-- The new references are linked: that of the proxy was, and it is what they become. -/
theorem linked_bypass (hg : g.Linked) (hrules : ∀ d ∈ g.liveIds, d ∈ rules) (hr : r ∈ g.liveIds)
    (ht : g.proxyTarget? r = some t) : (g.bypass rules r t).1.Linked := by
  intro i name target hmem
  obtain ⟨e, he, h⟩ := of_mem_liveExprs_bypass hrules hmem
  obtain ⟨name₀, target₀, rfl, redirected⟩ := Expr.of_mapRefs_eq_ruleRef h.symm
  have linked : ∃ u rule, target = some u ∧ g.live? u = some rule ∧ rule.name = name := by
    unfold redirect at redirected
    split at redirected
    · cases redirected
      obtain ⟨j, proxyName, reference⟩ := reference_of_proxyTarget? hr ht
      obtain ⟨u, rule, hu, hrule, -⟩ := hg j proxyName (some t) reference
      cases hu
      refine ⟨t, rule, rfl, hrule, ?_⟩
      unfold ruleName
      rw [rule?_of_live? hrule]
      rfl
    · cases redirected
      exact hg i name target he
  obtain ⟨u, rule, hu, hrule, hname⟩ := linked
  have live := live?_bypass g rules r t u
  rw [hrule, Option.map_some] at live
  exact ⟨u, _, hu, live, hname⟩

/-- No rule becomes a proxy. -/
theorem proxyTarget?_of_bypass (ht : g.proxyTarget? r = some t)
    (hd : (g.bypass rules r t).1.proxyTarget? d ≠ none) : g.proxyTarget? d ≠ none := by
  obtain ⟨u, hu⟩ := Option.ne_none_iff_exists'.1 hd
  obtain ⟨hne, rule', i, name, hrule', hname, hbody⟩ := of_proxyTarget? hu
  rw [rule?_bypass] at hrule'
  obtain ⟨rule, hrule, rfl⟩ := Option.map_eq_some_iff.1 hrule'
  -- what the rule referred to before was not the rule itself
  have before : ∃ name₀ u₀, rule.body = .ruleRef i name₀ (some u₀) ∧ u₀ ≠ d := by
    by_cases covered : rules.contains d = true
    · simp only [covered, if_true] at hbody
      obtain ⟨name₀, target₀, hbody, redirected⟩ := Expr.of_mapRefs_eq_ruleRef hbody
      unfold redirect at redirected
      split at redirected
      · rename_i hproxy
        obtain rfl : target₀ = some r := hproxy
        refine ⟨name₀, r, hbody, ?_⟩
        rintro rfl
        obtain ⟨hself, proxy, j, proxyName, hproxy', -, hbody'⟩ := of_proxyTarget? ht
        rw [hrule] at hproxy'
        cases hproxy'
        rw [hbody] at hbody'
        cases hbody'
        exact hself rfl
      · cases redirected
        exact ⟨name, u, hbody, hne⟩
    · simp only [covered, Bool.false_eq_true, if_false] at hbody
      exact ⟨name, u, hbody, hne⟩
  obtain ⟨name₀, u₀, hbody₀, hne₀⟩ := before
  rw [proxyTarget?_eq_some hne₀ hrule hname hbody₀]
  exact Option.some_ne_none u₀

/-- A proxy that is bypassed is not mentioned any more; nor is, still, a rule that was not. -/
theorem unmentioned_bypass (hrules : ∀ d ∈ g.liveIds, d ∈ rules) (hr : r ∈ g.liveIds) (ht : g.proxyTarget? r = some t)
    (hd : d = r ∨ g.Unmentioned d) : (g.bypass rules r t).1.Unmentioned d := by
  intro e' he' htarget
  obtain ⟨e, he, rfl⟩ := of_mem_liveExprs_bypass hrules he'
  obtain ⟨i, name, target, rfl, redirected⟩ := Expr.target_mapRefs htarget
  unfold redirect at redirected
  split at redirected
  · cases redirected
    -- the rule is the target of the proxy, which mentions it
    rcases hd with rfl | hd
    · exact (of_proxyTarget? ht).1 rfl
    · obtain ⟨j, proxyName, reference⟩ := reference_of_proxyTarget? hr ht
      exact hd _ reference rfl
  · rename_i hother
    rcases hd with rfl | hd
    · exact hother redirected
    · exact hd _ he redirected

/-- There is nothing to redirect where a proxy is not mentioned. -/
theorem bypass_of_unmentioned (hrules : ∀ d ∈ rules, d ∈ g.liveIds) (h : g.Unmentioned r) :
    g.bypass rules r t = (g, []) := by
  have untouched : ∀ d rule, g.rule? d = some rule → rules.contains d = true →
      ∀ e ∈ rule.body.preorder, e.target? ≠ some r := by
    intro d rule hrule covered e he
    obtain ⟨rule', hlive⟩ := mem_liveIds.1 (hrules d (List.contains_iff_mem.1 covered))
    have same : rule' = rule := Option.some.inj ((rule?_of_live? hlive).symm.trans hrule)
    exact h e (mem_liveExprs.2 ⟨d, rule', hlive, same ▸ he⟩)
  refine Prod.ext ?_ ?_
  · show { g with rules := ((g.bypass rules r t).1).rules } = g
    congr 1
    refine List.ext_getElem? fun d => ?_
    show (g.bypass rules r t).1.rule? d = g.rule? d
    rw [rule?_bypass]
    cases hrule : g.rule? d with
    | none => rfl
    | some rule =>
      simp only [Option.map_some, Option.some.injEq]
      split
      · rename_i covered
        have fixed : rule.body.mapRefs (g.redirect r t) = rule.body := by
          have same : rule.body.mapRefs (g.redirect r t) = rule.body.mapRefs fun ref => ref :=
            Expr.mapRefs_congr rule.body fun i name target hmem => if_neg (untouched d rule hrule covered _ hmem)
          rw [same, Expr.mapRefs_self]
        rw [fixed]
      · rfl
  · refine List.flatMap_eq_nil_iff.2 fun body hbody => List.filterMap_eq_nil_iff.2 fun e he => ?_
    obtain ⟨⟨d, rule⟩, hmem, rfl⟩ := List.mem_map.1 hbody
    obtain ⟨hnumbered, covered⟩ := List.mem_filter.1 hmem
    exact if_neg (untouched d rule (mem_numbered.1 hnumbered) covered e he)

end Bypass

/-! ## All of them -/

/-- What a grammar has become when the rules `past` had their turn; the rules `out` are to be removed. -/
structure Bypassing (g₀ g : Grammar) (start past out : List RuleId) : Prop where
  live : ∀ d, d ∈ g.liveIds ↔ d ∈ g₀.liveIds
  linked : g.Linked
  proxies : ∀ d, g.proxyTarget? d ≠ none → g₀.proxyTarget? d ≠ none
  dropped : ∀ d ∈ out, g.Unmentioned d ∧ d ∉ start ∧ g₀.proxyTarget? d ≠ none
  done : ∀ d ∈ past, g.proxyTarget? d ≠ none → g.Unmentioned d ∧ (d ∈ start ∨ d ∈ out)

namespace Bypassing

variable {g₀ g : Grammar} {rules start past out : List RuleId} {r t : RuleId}

theorem begin (hg : g.Linked) (start : List RuleId) : Bypassing g g start [] [] where
  live _ := .rfl
  linked := hg
  proxies _ h := h
  dropped := nofun
  done := nofun

/-- A rule that is no proxy has had its turn. -/
theorem pass (h : Bypassing g₀ g start past out) (hr : g.proxyTarget? r = none) :
    Bypassing g₀ g start (past ++ [r]) out where
  live := h.live
  linked := h.linked
  proxies := h.proxies
  dropped := h.dropped
  done := by
    intro d hd hproxy
    rcases List.mem_append.1 hd with hd | hd
    · exact h.done d hd hproxy
    · rw [List.mem_singleton.1 hd] at hproxy
      exact absurd hr hproxy

/-- A proxy has had its turn when it is bypassed. -/
theorem step (h : Bypassing g₀ g start past out) (hrules : ∀ d ∈ g₀.liveIds, d ∈ rules) (hr : r ∈ g₀.liveIds)
    (ht : g.proxyTarget? r = some t) : Bypassing g₀ (g.bypass rules r t).1 start (past ++ [r])
      (out ++ if start.contains r then [] else [r]) := by
  have covers : ∀ d ∈ g.liveIds, d ∈ rules := fun d hd => hrules d ((h.live d).1 hd)
  have live : r ∈ g.liveIds := (h.live r).2 hr
  have bypassed : (g.bypass rules r t).1.Unmentioned r := unmentioned_bypass covers live ht (.inl rfl)
  -- bypassing brings no rule back that was not mentioned any more
  have still {d : RuleId} (hd : g.Unmentioned d) : (g.bypass rules r t).1.Unmentioned d :=
    unmentioned_bypass covers live ht (.inr hd)
  exact
    { live := fun d => mem_liveIds_bypass.trans (h.live d)
      linked := linked_bypass h.linked covers live ht
      proxies := fun d hd => h.proxies d (proxyTarget?_of_bypass ht hd)
      dropped := by
        intro d hd
        rcases List.mem_append.1 hd with hd | hd
        · obtain ⟨hd, rest⟩ := h.dropped d hd
          exact ⟨still hd, rest⟩
        · split at hd
          · cases hd
          · rename_i hstart
            rw [List.mem_singleton.1 hd]
            refine ⟨bypassed, fun hmem => hstart (List.contains_iff_mem.2 hmem), h.proxies r ?_⟩
            rw [ht]
            exact Option.some_ne_none t
      done := by
        intro d hd hproxy
        rcases List.mem_append.1 hd with hd | hd
        · obtain ⟨hd, reason⟩ := h.done d hd (proxyTarget?_of_bypass ht hproxy)
          exact ⟨still hd, reason.imp_right fun hd => List.mem_append_left _ hd⟩
        · rw [List.mem_singleton.1 hd]
          refine ⟨bypassed, ?_⟩
          by_cases hstart : start.contains r = true
          · exact .inl (List.contains_iff_mem.1 hstart)
          · right
            rw [if_neg hstart]
            exact List.mem_append_right _ (List.mem_singleton_self r) }

/-- All candidates have their turn. -/
theorem run (candidates : List RuleId) (h : Bypassing g₀ g start past out) (hrules : ∀ d ∈ g₀.liveIds, d ∈ rules)
    (hcandidates : ∀ d ∈ candidates, d ∈ g₀.liveIds) : Bypassing g₀ (bypassAll rules start g candidates).1 start
      (past ++ candidates) (out ++ (bypassAll rules start g candidates).2.1) := by
  induction candidates generalizing g past out with
  | nil =>
    rw [List.append_nil]
    show Bypassing g₀ g start past (out ++ [])
    rw [List.append_nil]
    exact h
  | cons r candidates ih =>
    obtain ⟨hr, hcandidates⟩ := List.forall_mem_cons.1 hcandidates
    rw [List.append_cons]
    unfold bypassAll
    cases ht : g.proxyTarget? r with
    | none => exact ih (h.pass ht) hcandidates
    | some t =>
      have all := ih (h.step hrules hr ht) hcandidates
      by_cases hstart : start.contains r = true
      · simpa only [hstart, if_true, List.append_nil] using all
      · simpa only [hstart, Bool.false_eq_true, if_false, List.append_assoc, List.singleton_append] using all

end Bypassing

/-- Where no proxy is mentioned, and all of them are started from, there is nothing to do. -/
theorem bypassAll_settled {g : Grammar} {rules start : List RuleId} (hrules : ∀ d ∈ rules, d ∈ g.liveIds)
    (candidates : List RuleId) (h : ∀ d ∈ candidates, g.proxyTarget? d ≠ none → g.Unmentioned d ∧ d ∈ start) :
    bypassAll rules start g candidates = (g, [], []) := by
  induction candidates with
  | nil => rfl
  | cons r candidates ih =>
    obtain ⟨hr, hcandidates⟩ := List.forall_mem_cons.1 h
    unfold bypassAll
    cases ht : g.proxyTarget? r with
    | none => exact ih hcandidates
    | some t =>
      obtain ⟨unmentioned, started⟩ := hr (by rw [ht]; exact Option.some_ne_none t)
      simp only [bypass_of_unmentioned hrules unmentioned, ih hcandidates, List.contains_iff_mem.2 started, if_true,
        List.append_nil]

theorem removeProxies_settled {g : Grammar} {start : List RuleId}
    (h : ∀ d ∈ g.liveIds, g.proxyTarget? d ≠ none → g.Unmentioned d ∧ d ∈ start) : g.removeProxies start = (g, []) := by
  unfold removeProxies
  rw [bypassAll_settled (fun d hd => hd) g.liveIds h]
  rfl

/-! ## Removal -/

/-- A grammar with the rules of another one, of which some more are removed. -/
structure Drops (g g' : Grammar) (out : List RuleId) : Prop where
  rule? : ∀ r, g'.rule? r = g.rule? r
  removed : ∀ r, r ∈ g'.removed ↔ r ∈ g.removed ∨ r ∈ out

namespace Drops

variable {g g' : Grammar} {out : List RuleId} {r : RuleId} {rule : Rule}

theorem live?_iff (h : g.Drops g' out) : g'.live? r = some rule ↔ g.live? r = some rule ∧ r ∉ out := by
  unfold Grammar.live?
  rw [h.rule?]
  by_cases hr : r ∈ g.removed <;> by_cases hout : r ∈ out <;> simp [h.removed, hr, hout]

/-- No other expressions are left. -/
theorem mem_liveExprs (h : g.Drops g' out) {e : Expr} (he : e ∈ g'.liveExprs) : e ∈ g.liveExprs := by
  obtain ⟨r, rule, hrule, he⟩ := Grammar.mem_liveExprs.1 he
  exact Grammar.mem_liveExprs.2 ⟨r, rule, (h.live?_iff.1 hrule).1, he⟩

theorem unmentioned (h : g.Drops g' out) (hr : g.Unmentioned r) : g'.Unmentioned r :=
  fun e he => hr e (h.mem_liveExprs he)

/-- References stay linked if rules are dropped that none leads to. -/
theorem linked (h : g.Drops g' out) (hg : g.Linked) (hout : ∀ d ∈ out, g.Unmentioned d) : g'.Linked := by
  intro i name target hmem
  obtain ⟨t, rule, rfl, hrule, hname⟩ := hg i name target (h.mem_liveExprs hmem)
  have kept : t ∉ out := fun ht => hout t ht _ (h.mem_liveExprs hmem) rfl
  exact ⟨t, rule, rfl, h.live?_iff.2 ⟨hrule, kept⟩, hname⟩

end Drops

theorem drops_removeProxies (g : Grammar) (start : List RuleId) : (bypassAll g.liveIds start g g.liveIds).1.Drops
    (g.removeProxies start).1 (bypassAll g.liveIds start g g.liveIds).2.1 where
  rule? := rule?_removeProxies g start
  removed := (foldl_remove _ _).2

/-- When all rules had their turn, the proxies that are left are started from, and nothing refers to them. -/
theorem Bypassing.left {g₀ g g' : Grammar} {start out : List RuleId} (h : Bypassing g₀ g start g₀.liveIds out)
    (hdrops : g.Drops g' out) {r : RuleId} (hr : r ∈ g'.liveIds) (hproxy : g'.proxyTarget? r ≠ none) :
    g'.Unmentioned r ∧ r ∈ start := by
  obtain ⟨rule, hrule⟩ := mem_liveIds.1 hr
  obtain ⟨hrule, kept⟩ := hdrops.live?_iff.1 hrule
  rw [proxyTarget?_congr (hdrops.rule? r)] at hproxy
  obtain ⟨unmentioned, started | dropped⟩ := h.done r ((h.live r).1 (mem_liveIds.2 ⟨rule, hrule⟩)) hproxy
  · exact ⟨hdrops.unmentioned unmentioned, started⟩
  · exact absurd dropped kept

/-- References that are linked lead to rules that are left. -/
theorem Linked.target {g : Grammar} (hg : g.Linked) {e : Expr} (he : e ∈ g.liveExprs) {t : RuleId}
    (ht : e.target? = some t) : t ∈ g.liveIds := by
  cases e with
  | ruleRef i name target =>
    obtain ⟨u, rule, rfl, hrule, -⟩ := hg i name target he
    cases ht
    exact mem_liveIds.2 ⟨rule, hrule⟩
  | _ => cases ht

/-! ## The pass -/

/-- A grammar without proxies that was made of another one. -/
structure WithoutProxies (g g' : Grammar) (start : List RuleId) : Prop where
  /-- The rules are the old ones, and each reference is redirected along proxies if at all. -/
  bypasses : g.Bypasses g'
  linked : g'.Linked
  direct : ∀ e ∈ g'.liveExprs, ∀ t, e.target? = some t → g'.proxyTarget? t = none
  /-- Rules that were removed before still are. -/
  removed : ∀ r ∈ g.removed, r ∈ g'.removed
  /-- Others were only removed if they were proxies that are not started from. -/
  dropped : ∀ r ∈ g'.removed, r ∈ g.removed ∨ (r ∉ start ∧ g.proxyTarget? r ≠ none)
  /-- The proxies that are left are started from. -/
  started : ∀ r ∈ g'.liveIds, g'.proxyTarget? r ≠ none → r ∈ start
  settled : g'.removeProxies start = (g', [])

theorem withoutProxies_removeProxies {g : Grammar} (hg : g.Linked) (start : List RuleId) :
    g.WithoutProxies (g.removeProxies start).1 start := by
  have loop := (Bypassing.begin hg start).run g.liveIds (fun d hd => hd) fun d hd => hd
  rw [List.nil_append, List.nil_append] at loop
  have drops := drops_removeProxies g start
  have removed₁ : (bypassAll g.liveIds start g g.liveIds).1.removed = g.removed :=
    (bypassAll_bypasses g.liveIds (.refl g)).2
  have linked := drops.linked loop.linked fun d hd => (loop.dropped d hd).1
  exact
    { bypasses := bypasses_removeProxies g start
      linked
      direct := by
        intro e he t ht
        by_contra hproxy
        exact (loop.left drops (linked.target he ht) hproxy).1 e he ht
      removed := by
        intro r hr
        rw [← removed₁] at hr
        exact (drops.removed r).2 (.inl hr)
      dropped := by
        intro r hr
        rw [← removed₁]
        exact ((drops.removed r).1 hr).imp_right fun hd => (loop.dropped r hd).2
      started := fun r hr hproxy => (loop.left drops hr hproxy).2
      settled := removeProxies_settled fun d hd hproxy => loop.left drops hd hproxy }

end Grammar

/-- The pass as one change of the session. -/
theorem Pass.run_proxies (s : Session) : Pass.proxies.run s = .ok ⟨⟩
    { compilation :=
        { s.compilation with grammar := (s.compilation.grammar.removeProxies s.compilation.startRules).1 }
      diagnostics := s.diagnostics ++ (s.compilation.grammar.removeProxies s.compilation.startRules).2 } := rfl

/-- Where references lead to rules, one run of the pass leaves a grammar without proxies, whatever rules are started
from, and a second run does nothing at all. -/
theorem proxies_eliminated (s : Session) (hs : s.compilation.grammar.Linked) : ∃ s', Pass.proxies.run s = .ok ⟨⟩ s' ∧
    s.compilation.grammar.WithoutProxies s'.compilation.grammar s.compilation.startRules ∧
    Pass.proxies.run s' = .ok ⟨⟩ s' := by
  refine ⟨_, Pass.run_proxies s, ?_, ?_⟩
  · exact Grammar.withoutProxies_removeProxies hs s.compilation.startRules
  · rw [Pass.run_proxies, (Grammar.withoutProxies_removeProxies hs s.compilation.startRules).settled, List.append_nil]

open Draft.Expr in
/-- A chain of proxies against the direction of its declaration, from the start rule on, and a cycle. -/
def tangled : Draft := ⟨none, none, [.of "Start" (ref "A") none, .of "B" (ref "C") none, .of "A" (ref "B") none,
  .of "C" (firstOf [seq [ref "A", ref "D"], ref "Start"]) none, .of "D" (ref "E") none, .of "E" (ref "D") none]⟩

/-- The two proxies of the chain and one of the cycle are removed; the other one of the cycle refers to itself. -/
theorem proxies_eliminated_tangled : ∃ g s', tangled.build? = .ok g ∧ g.Linked ∧
    Pass.proxies.run ⟨{ Compilation.start g .default with startRules := [0] }, []⟩ = .ok ⟨⟩ s' ∧
    s'.compilation.grammar.removed = [1, 2, 4] ∧ s'.diagnostics.length = 7 ∧
    g.WithoutProxies s'.compilation.grammar [0] ∧ Pass.proxies.run s' = .ok ⟨⟩ s' := by
  obtain ⟨g, hg⟩ : ∃ g, tangled.build? = .ok g := ⟨_, rfl⟩
  have linked : g.Linked := Draft.linked hg (by cases hg; rfl)
  obtain ⟨s', hrun, without, again⟩ :=
    proxies_eliminated ⟨{ Compilation.start g .default with startRules := [0] }, []⟩ linked
  refine ⟨g, s', hg, linked, hrun, ?_, ?_, without, again⟩
  · cases hg
    cases hrun
    rfl
  · cases hg
    cases hrun
    rfl

end PegCompiler
