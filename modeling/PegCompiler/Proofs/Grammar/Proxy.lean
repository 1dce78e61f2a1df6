/-
What stays the same when proxies are bypassed. The new grammar has the old rules with other references:
each one stands for a rule that is reached from the old one by proxies (`Grammar.Bypasses`), and no
reference to a removed rule is left. Numbers, labels and references to rules there are survive this.
-/
import PegCompiler.Analysis.Labels
import PegCompiler.Grammar.Proxy
import PegCompiler.Proofs.Grammar.Numbering

namespace PegCompiler

/-! ## Other references in an expression -/

namespace Expr

variable {f f' : Reference → Reference}

theorem mapRefsAll_eq (f : Reference → Reference) (es : List Expr) : mapRefsAll f es = es.map (mapRefs f) := by
  induction es with
  | nil => rfl
  | cons e es ih => rw [mapRefsAll, ih, List.map_cons]

theorem info_mapRefs (f : Reference → Reference) (e : Expr) : (e.mapRefs f).info = e.info := by
  cases e with
  | repeated i body min max delimiter => cases delimiter <;> rfl
  | _ => rfl

theorem id_mapRefs (f : Reference → Reference) (e : Expr) : (e.mapRefs f).id = e.id :=
  congrArg Info.id (info_mapRefs f e)

theorem children_mapRefs (f : Reference → Reference) (e : Expr) :
    (e.mapRefs f).children = e.children.map (mapRefs f) := by
  cases e with
  | choice i first others => simp [mapRefs, children, mapRefsAll_eq]
  | sequence i elements => simp [mapRefs, children, mapRefsAll_eq]
  | repeated i body min max delimiter => cases delimiter <;> rfl
  | _ => rfl

theorem preorder_mapRefs (f : Reference → Reference) (e : Expr) :
    (e.mapRefs f).preorder = e.preorder.map (mapRefs f) := by
  induction e using induction_children with
  | h e ih =>
    rw [preorder_eq, preorder_eq e, children_mapRefs, List.map_cons, List.flatMap_map, List.map_flatMap]
    congr 1
    unfold List.flatMap
    rw [List.map_congr_left ih]

theorem bounds_mapRefs (f : Reference → Reference) (e : Expr) : (e.mapRefs f).bounds = e.bounds := by
  cases e with
  | repeated i body min max delimiter => cases delimiter <;> rfl
  | _ => rfl

theorem codes_mapRefs (f : Reference → Reference) (e : Expr) : (e.mapRefs f).codes = e.codes := by
  cases e with
  | repeated i body min max delimiter => cases delimiter <;> rfl
  | action i body code => cases body <;> rfl
  | _ => rfl

theorem mapRefs_self (e : Expr) : e.mapRefs (fun ref => ref) = e := by
  induction e using induction with
  | choice i first others ih ihs =>
    rw [mapRefs, mapRefsAll_eq, ih, (List.map_congr_left ihs : _ = others.map fun e => e), List.map_id']
  | sequence i elements ih =>
    rw [mapRefs, mapRefsAll_eq, (List.map_congr_left ih : _ = elements.map fun e => e), List.map_id']
  | repeated i body min max delimiter ih ihDelimiter =>
    cases delimiter with
    | none => rw [mapRefs, ih]
    | some d => rw [mapRefs, ih, ihDelimiter d rfl]
  | labeled _ _ _ body ih | action _ body _ ih | text _ body ih | simpleAnd _ body ih | simpleNot _ body ih
  | optional _ body ih | zeroOrMore _ body ih | oneOrMore _ body ih | group _ body ih | named _ _ body ih =>
    rw [mapRefs, ih]
  | semanticAnd | semanticNot | ruleRef | literal | charClass | any => rfl

theorem mapRefs_mapRefs (f f' : Reference → Reference) (e : Expr) :
    (e.mapRefs f).mapRefs f' = e.mapRefs (f' ∘ f) := by
  induction e using induction with
  | choice i first others ih ihs =>
    simp only [mapRefs, mapRefsAll_eq, ih, List.map_map]
    exact congrArg _ (List.map_congr_left ihs)
  | sequence i elements ih =>
    simp only [mapRefs, mapRefsAll_eq, List.map_map]
    exact congrArg _ (List.map_congr_left ih)
  | repeated i body min max delimiter ih ihDelimiter =>
    cases delimiter with
    | none => simp only [mapRefs, ih]
    | some d => simp only [mapRefs, ih, ihDelimiter d rfl]
  | labeled _ _ _ body ih | action _ body _ ih | text _ body ih | simpleAnd _ body ih | simpleNot _ body ih
  | optional _ body ih | zeroOrMore _ body ih | oneOrMore _ body ih | group _ body ih | named _ _ body ih =>
    simp only [mapRefs, ih]
  | semanticAnd | semanticNot | ruleRef | literal | charClass | any => rfl

/-- What is no sequence does not become one. -/
theorem mapRefs_ne_sequence {e : Expr} (h : ∀ i elements, e = .sequence i elements → False) (i : Info)
    (elements : List Expr) : e.mapRefs f = .sequence i elements → False := by
  intro heq
  cases e with
  | sequence j elements' => exact h j elements' rfl
  | repeated j body min max delimiter => cases delimiter <;> cases heq
  | _ => cases heq

/-- The target of a reference of the new expression is the new target of one of the old expression. -/
theorem target_mapRefs {e : Expr} {t : RuleId} (h : (e.mapRefs f).target? = some t) :
    ∃ i name target, e = .ruleRef i name target ∧ (f ⟨name, target⟩).target = some t := by
  cases e with
  | ruleRef i name target => exact ⟨i, name, target, rfl, h⟩
  | repeated i body min max delimiter => cases delimiter <;> cases h
  | _ => cases h

end Expr

namespace Analysis

theorem Scope.after_mapRefs (f : Expr.Reference → Expr.Reference) (scope : Scope) (e : Expr) :
    scope.after (e.mapRefs f) = scope.after e := by
  cases e with
  | repeated i body min max delimiter => cases delimiter <;> rfl
  | labeled i label pick body => cases label <;> rfl
  | _ => rfl

theorem labelsInEach_mapRefs {f : Expr.Reference → Expr.Reference} {reserved : List String} {es : List Expr} {scope : Scope}
    (h : ∀ e ∈ es, ∀ scope, labelsIn reserved scope (e.mapRefs f) = labelsIn reserved scope e) :
    labelsInEach reserved scope (es.map (Expr.mapRefs f)) = labelsInEach reserved scope es := by
  induction es with
  | nil => rfl
  | cons e es ih =>
    rw [List.map_cons, labelsInEach, labelsInEach, h e List.mem_cons_self,
      ih fun e' he' => h e' (List.mem_cons_of_mem _ he')]

theorem labelsInOrder_mapRefs {f : Expr.Reference → Expr.Reference} {reserved : List String} {es : List Expr}
    {scope : Scope} (h : ∀ e ∈ es, ∀ scope, labelsIn reserved scope (e.mapRefs f) = labelsIn reserved scope e) :
    labelsInOrder reserved scope (es.map (Expr.mapRefs f)) = labelsInOrder reserved scope es := by
  induction es generalizing scope with
  | nil => rfl
  | cons e es ih =>
    rw [List.map_cons, labelsInOrder, labelsInOrder, h e List.mem_cons_self, Scope.after_mapRefs,
      ih fun e' he' => h e' (List.mem_cons_of_mem _ he')]

/-- References do not matter to the check of labels. -/
theorem labelsIn_mapRefs (f : Expr.Reference → Expr.Reference) (reserved : List String) (e : Expr) (scope : Scope) :
    labelsIn reserved scope (e.mapRefs f) = labelsIn reserved scope e := by
  induction e using Expr.induction generalizing scope with
  | choice i first others ih ihs =>
    rw [Expr.mapRefs, labelsIn, labelsIn, ih, Expr.mapRefsAll_eq, labelsInEach_mapRefs ihs]
  | sequence i elements ih =>
    rw [Expr.mapRefs, labelsIn, labelsIn, Expr.mapRefsAll_eq, labelsInOrder_mapRefs ih]
  | repeated i body min max delimiter ih ihDelimiter =>
    cases delimiter with
    | none => rw [Expr.mapRefs, labelsIn, labelsIn, ih]
    | some d => rw [Expr.mapRefs, labelsIn, labelsIn, ih, ihDelimiter d rfl]
  | labeled _ _ _ body ih | action _ body _ ih | text _ body ih | simpleAnd _ body ih | simpleNot _ body ih
  | optional _ body ih | zeroOrMore _ body ih | oneOrMore _ body ih | group _ body ih | named _ _ body ih =>
    rw [Expr.mapRefs, labelsIn, labelsIn, ih]
  | semanticAnd | semanticNot | ruleRef | literal | charClass | any => rfl

end Analysis

/-! ## Grammars with other references -/

namespace Grammar

/-- What a rule stands for: itself or, where it is a proxy, what its target stands for. -/
inductive StandsFor (g : Grammar) : RuleId → RuleId → Prop
  | refl (r : RuleId) : StandsFor g r r
  | proxy {r t t' : RuleId} {rule : Rule} {i : Expr.Info} {name : String} (hr : g.rule? r = some rule)
      (hname : rule.displayName = none) (hbody : rule.body = .ruleRef i name (some t)) (h : StandsFor g t t') :
      StandsFor g r t'

theorem StandsFor.trans {g : Grammar} {r t t' : RuleId} (h : g.StandsFor r t) (h' : g.StandsFor t t') :
    g.StandsFor r t' := by
  induction h with
  | refl => exact h'
  | proxy hr hname hbody _ ih => exact .proxy hr hname hbody (ih h')

/-- A rule that is no proxy: it has a name of its own for errors, or its body is no mere reference. -/
def Final (g : Grammar) (r : RuleId) : Prop :=
  ∀ rule i name t, g.rule? r = some rule → rule.displayName = none → rule.body ≠ .ruleRef i name (some t)

namespace StandsFor

variable {g : Grammar} {r t t' : RuleId}

theorem eq_of_final (h : g.StandsFor r t) (hr : g.Final r) : r = t := by
  cases h with
  | refl => rfl
  | proxy hrule hname hbody _ => exact absurd hbody (hr _ _ _ _ hrule hname)

/-- What a proxy stands for its target stands for. -/
theorem of_proxy (h : g.StandsFor r t') (ht' : g.Final t') {rule : Rule} {i : Expr.Info} {name : String}
    (hr : g.rule? r = some rule) (hname : rule.displayName = none) (hbody : rule.body = .ruleRef i name (some t)) :
    g.StandsFor t t' := by
  cases h with
  | refl => exact absurd hbody (ht' _ _ _ _ hr hname)
  | proxy hr' _ hbody' h =>
    rw [hr] at hr'
    cases hr'
    rw [hbody] at hbody'
    cases hbody'
    exact h

/-- There is one such rule only. -/
theorem definite (h : g.StandsFor r t) (ht : g.Final t) (h' : g.StandsFor r t') (ht' : g.Final t') : t = t' := by
  induction h with
  | refl => exact h'.eq_of_final ht
  | proxy hr hname hbody _ ih => exact ih ht (h'.of_proxy ht' hr hname hbody)

end StandsFor

/-- Every reference gets a target that its own one stands for. -/
def Redirects (g : Grammar) (f : Expr.Reference → Expr.Reference) : Prop :=
  ∀ ref : Expr.Reference, f ref = ref ∨ ∃ t t', ref.target = some t ∧ (f ref).target = some t' ∧ g.StandsFor t t'

namespace Redirects

variable {g : Grammar} {f f' : Expr.Reference → Expr.Reference}

theorem of_target (h : g.Redirects f) {ref : Expr.Reference} {t' : RuleId} (ht : (f ref).target = some t') :
    ∃ t, ref.target = some t ∧ g.StandsFor t t' := by
  rcases h ref with e | ⟨t, t'', h, h', hs⟩
  · rw [e] at ht; exact ⟨t', ht, .refl t'⟩
  · rw [h'] at ht; cases ht; exact ⟨t, h, hs⟩

theorem of_some (h : g.Redirects f) (name : String) (t : RuleId) :
    ∃ t', (f ⟨name, some t⟩).target = some t' ∧ g.StandsFor t t' := by
  rcases h ⟨name, some t⟩ with e | ⟨_, t', e, ht', hs⟩
  · exact ⟨t, by rw [e], .refl t⟩
  · cases e
    exact ⟨t', ht', hs⟩

theorem of_none (h : g.Redirects f) {ref : Expr.Reference} (ht : (f ref).target = none) : f ref = ref := by
  rcases h ref with e | ⟨t, t', -, h', -⟩
  · exact e
  · rw [h'] at ht; cases ht

theorem comp (h : g.Redirects f) (h' : g.Redirects f') : g.Redirects (f' ∘ f) := by
  intro ref
  cases ht : (f' (f ref)).target with
  | none =>
    have e := h'.of_none ht
    rw [e] at ht
    left
    show f' (f ref) = ref
    rw [e, h.of_none ht]
  | some t'' =>
    obtain ⟨t', ht', hs'⟩ := h'.of_target ht
    obtain ⟨t, ht, hs⟩ := h.of_target ht'
    exact .inr ⟨t, t'', ht, by assumption, hs.trans hs'⟩

end Redirects

/-- The second grammar has the rules of the first one with redirected references. -/
structure Bypasses (g g' : Grammar) : Prop where
  length : g'.rules.length = g.rules.length
  rule : ∀ r rule, g.rule? r = some rule →
    ∃ f, g.Redirects f ∧ g'.rule? r = some { rule with body := rule.body.mapRefs f }

namespace Bypasses

variable {g g' : Grammar}

theorem refl (g : Grammar) : g.Bypasses g := by
  refine ⟨rfl, fun r rule hr => ⟨fun ref => ref, fun _ => .inl rfl, ?_⟩⟩
  rw [Expr.mapRefs_self]; exact hr

theorem of_rule (h : g.Bypasses g') {r : RuleId} {rule' : Rule} (hr : g'.rule? r = some rule') :
    ∃ rule f, g.rule? r = some rule ∧ g.Redirects f ∧ rule' = { rule with body := rule.body.mapRefs f } := by
  obtain ⟨hlt, -⟩ := List.getElem?_eq_some_iff.1 hr
  rw [h.length] at hlt
  have hrule : g.rule? r = some g.rules[r] := List.getElem?_eq_getElem hlt
  obtain ⟨f, hf, hr'⟩ := h.rule r _ hrule
  rw [hr] at hr'
  cases hr'
  exact ⟨_, f, hrule, hf, rfl⟩

/-- A proxy of the new grammar is one of the old grammar, with a target that stands for the new one. -/
theorem standsFor (h : g.Bypasses g') {r t : RuleId} {rule : Rule} {i : Expr.Info} {name : String}
    (hr : g'.rule? r = some rule) (hname : rule.displayName = none) (hbody : rule.body = .ruleRef i name (some t)) :
    g.StandsFor r t := by
  obtain ⟨rule₀, f, hr₀, hf, rfl⟩ := h.of_rule hr
  obtain ⟨i₀, name₀, target, hb, ht⟩ := Expr.target_mapRefs (f := f) (e := rule₀.body) (t := t) (by
    show Expr.target? (rule₀.body.mapRefs f) = some t
    rw [show rule₀.body.mapRefs f = .ruleRef i name (some t) from hbody]
    rfl)
  obtain ⟨t₀, rfl, hs⟩ := hf.of_target ht
  exact .proxy hr₀ hname hb hs

/-- The new grammar has the numbers of the old one. -/
theorem numbered (h : g.Bypasses g') {size : Nat} (hg : g.Numbered size) : g'.Numbered size := by
  have ids : Expr.ids (g'.rules.map (·.body)) = Expr.ids (g.rules.map (·.body)) := by
    unfold Expr.ids
    rw [List.flatMap_map, List.flatMap_map, List.map_flatMap, List.map_flatMap, List.flatMap_def, List.flatMap_def]
    congr 1
    refine List.ext_getElem? fun r => ?_
    rw [List.getElem?_map, List.getElem?_map]
    cases hr : g.rule? r with
    | none =>
      have hlt := List.getElem?_eq_none_iff.1 hr
      rw [List.getElem?_eq_none (by rw [h.length]; exact hlt), List.getElem?_eq_none hlt]
    | some rule =>
      obtain ⟨f, -, hr'⟩ := h.rule r rule hr
      rw [show g'.rules[r]? = _ from hr', show g.rules[r]? = _ from hr]
      simp only [Option.map_some, Option.some.injEq, Expr.preorder_mapRefs, List.map_map]
      exact List.map_congr_left fun e _ => Expr.id_mapRefs f e
  exact ⟨by rw [ids]; exact hg.distinct, by rw [ids]; exact hg.bounded⟩

theorem standsFor_trans (h : g.Bypasses g') {t t' : RuleId} (hs : g'.StandsFor t t') : g.StandsFor t t' := by
  induction hs with
  | refl => exact .refl _
  | proxy hr hname hbody _ ih => exact (h.standsFor hr hname hbody).trans ih

theorem trans {g'' : Grammar} (h : g.Bypasses g') (h' : g'.Bypasses g'') : g.Bypasses g'' := by
  refine ⟨h'.length.trans h.length, fun r rule hr => ?_⟩
  obtain ⟨f, hf, hr'⟩ := h.rule r rule hr
  obtain ⟨f', hf', hr''⟩ := h'.rule r _ hr'
  have hf'' : g.Redirects f' := fun ref => (hf' ref).imp_right fun ⟨t, t', ht, ht', hs⟩ =>
    ⟨t, t', ht, ht', h.standsFor_trans hs⟩
  refine ⟨f' ∘ f, hf.comp hf'', ?_⟩
  rw [hr'', Expr.mapRefs_mapRefs]

/-- An expression of the new grammar is one of the old grammar with other references. -/
theorem inside (h : g.Bypasses g') {r : RuleId} {e' : Expr} (he : g'.Inside r e') :
    ∃ e f, g.Inside r e ∧ g.Redirects f ∧ e' = e.mapRefs f := by
  obtain ⟨rule', hr', he'⟩ := he
  obtain ⟨rule, f, hr, hf, rfl⟩ := h.of_rule hr'
  rw [Expr.preorder_mapRefs] at he'
  obtain ⟨e, he, rfl⟩ := List.mem_map.1 he'
  exact ⟨e, f, ⟨rule, hr, he⟩, hf, rfl⟩

/-- The expressions that are left are those of before, with other references. -/
theorem mem_liveExprs (h : g.Bypasses g') (hg : g.removed = []) {e : Expr} (he : e ∈ g'.liveExprs) :
    ∃ e₀ f, e₀ ∈ g.liveExprs ∧ e = e₀.mapRefs f := by
  obtain ⟨⟨r, rule⟩, hlive, he⟩ := List.mem_flatMap.1 he
  obtain ⟨e₀, f, ⟨rule₀, hrule₀, he₀⟩, -, rfl⟩ := h.inside ⟨rule, rule?_of_live? (mem_live.1 hlive), he⟩
  have live : (r, rule₀) ∈ g.live := mem_live.2 (by unfold live?; rw [hg]; exact hrule₀)
  exact ⟨e₀, f, List.mem_flatMap.2 ⟨_, live, he₀⟩, rfl⟩

theorem resolves_standsFor (hg : g.Resolved) {t t' : RuleId} (hs : g.StandsFor t t') (ht : t < g.rules.length) :
    t' < g.rules.length := by
  induction hs with
  | refl => exact ht
  | @proxy r t t' rule i name hr _ hbody _ ih =>
    obtain ⟨u, hu, hlt⟩ := hg r rule.body ⟨rule, hr, Expr.mem_preorder_self _⟩ |> (hbody ▸ ·)
    cases hu
    exact ih hlt

/-- Redirected references stand for rules if the old ones did. -/
theorem resolved (h : g.Bypasses g') (hg : g.Resolved) : g'.Resolved := by
  intro r e' he'
  obtain ⟨e, f, he, hf, rfl⟩ := h.inside he'
  have hres := hg r e he
  rw [h.length]
  cases e with
  | ruleRef i name target =>
    obtain ⟨t, rfl, ht⟩ := hres
    cases ht' : (f ⟨name, some t⟩).target with
    | none =>
      rw [hf.of_none ht'] at ht'
      cases ht'
    | some t' =>
      obtain ⟨_, e, hs⟩ := hf.of_target ht'
      cases e
      exact ⟨t', ht', resolves_standsFor hg hs ht⟩
  | repeated i body min max delimiter => cases delimiter <;> trivial
  | _ => trivial

end Bypasses

/-! ## Bypassing proxies -/

/-- There is no reference to a rule. -/
def Unreferenced (g : Grammar) (r : RuleId) : Prop := ∀ r' e, g.Inside r' e → e.target? ≠ some r

theorem rule?_mapBodies (g : Grammar) (f : RuleId → Expr → Expr) (r : RuleId) :
    (g.mapBodies f).rule? r = (g.rule? r).map fun rule => { rule with body := f r rule.body } := by
  show (g.rules.zipIdx.map _)[r]? = (g.rules[r]?).map _
  rw [List.getElem?_map, List.getElem?_zipIdx]
  cases g.rules[r]? with
  | none => rfl
  | some rule => simp

theorem of_proxyTarget? {g : Grammar} {r t : RuleId} (h : g.proxyTarget? r = some t) :
    t ≠ r ∧ ∃ rule i name, g.rule? r = some rule ∧ rule.displayName = none ∧ rule.body = .ruleRef i name (some t) := by
  unfold proxyTarget? at h
  split at h
  · rename_i name span i ref target span' hr
    split at h
    · cases h
    · cases h
      exact ⟨‹_›, _, _, _, hr, rfl, rfl⟩
  · cases h

section Bypass

variable {g₀ g : Grammar} {rules : List RuleId} {r t : RuleId}

theorem Bypasses.bypass (h : g₀.Bypasses g) (ht : g.proxyTarget? r = some t) :
    g₀.Bypasses (g.bypass rules r t).1 := by
  obtain ⟨-, proxy, i, name, hr, hname, hbody⟩ := of_proxyTarget? ht
  have redirects : g₀.Redirects (g.redirect r t) := by
    intro ref
    unfold redirect
    split
    · rename_i hp; exact .inr ⟨r, t, hp, rfl, h.standsFor hr hname hbody⟩
    · exact .inl rfl
  refine ⟨?_, fun r' rule hrule => ?_⟩
  · show (g.rules.zipIdx.map _).length = _
    rw [List.length_map, List.length_zipIdx, h.length]
  · obtain ⟨f, hf, hr'⟩ := h.rule r' rule hrule
    show ∃ f, _ ∧ (g.mapBodies _).rule? r' = _
    rw [rule?_mapBodies, hr']
    by_cases hin : rules.contains r' = true
    · refine ⟨g.redirect r t ∘ f, hf.comp redirects, ?_⟩
      simp only [Option.map_some, hin, if_true, Expr.mapRefs_mapRefs]
    · exact ⟨f, hf, by simp only [Option.map_some, hin]; rfl⟩

theorem unreferenced_bypass (hrules : ∀ r < g.rules.length, r ∈ rules) (ht : g.proxyTarget? r = some t)
    {d : RuleId} (hd : d = r ∨ g.Unreferenced d) : (g.bypass rules r t).1.Unreferenced d := by
  obtain ⟨hne, proxy, i, name, hr, -, hbody⟩ := of_proxyTarget? ht
  rintro r' e' ⟨rule', hr', he'⟩ htarget
  have bodies := rule?_mapBodies g (fun r' body => if rules.contains r' then body.mapRefs (g.redirect r t) else body) r'
  obtain ⟨rule, hrule, rfl⟩ := Option.map_eq_some_iff.1 (bodies.symm.trans hr')
  have hin : rules.contains r' = true :=
    List.contains_iff_mem.2 (hrules r' (List.getElem?_eq_some_iff.1 hrule).1)
  simp only [hin, if_true, Expr.preorder_mapRefs] at he'
  obtain ⟨e, he, rfl⟩ := List.mem_map.1 he'
  obtain ⟨j, ref, target, rfl, redirected⟩ := Expr.target_mapRefs htarget
  clear htarget
  unfold redirect at redirected
  split at redirected
  · cases redirected
    -- the new target is that of the proxy itself, which refers to it
    rcases hd with rfl | hd
    · exact hne rfl
    · refine hd r proxy.body ⟨proxy, hr, Expr.mem_preorder_self _⟩ ?_
      rw [hbody]; rfl
  · rename_i hp
    rcases hd with rfl | hd
    · exact hp redirected
    · exact hd r' _ ⟨rule, hrule, he⟩ redirected

theorem bypassAll_bypasses {start : List RuleId} (candidates : List RuleId) (h : g₀.Bypasses g) :
    g₀.Bypasses (bypassAll rules start g candidates).1 ∧
      (bypassAll rules start g candidates).1.removed = g.removed := by
  induction candidates generalizing g with
  | nil => exact ⟨h, rfl⟩
  | cons r candidates ih =>
    unfold bypassAll
    cases ht : g.proxyTarget? r with
    | none => exact ih h
    | some t => exact ih (h.bypass ht)

theorem bypassAll_started {start : List RuleId} (candidates : List RuleId) :
    ∀ d ∈ (bypassAll rules start g candidates).2.1, d ∉ start := by
  induction candidates generalizing g with
  | nil => intro d hd; cases hd
  | cons r candidates ih =>
    unfold bypassAll
    cases ht : g.proxyTarget? r with
    | none => exact ih
    | some t =>
      intro d hd
      simp only at hd
      split at hd
      · exact ih d hd
      · rename_i hs
        rcases List.mem_cons.1 hd with rfl | hd
        · exact fun hm => hs (List.contains_iff_mem.2 hm)
        · exact ih d hd

/-- Proxies that were bypassed are not referred to, then or later. -/
theorem bypassAll_unreferenced {start : List RuleId} (candidates : List RuleId)
    (hrules : ∀ r < g.rules.length, r ∈ rules) :
    ∀ d, g.Unreferenced d ∨ d ∈ (bypassAll rules start g candidates).2.1 →
      (bypassAll rules start g candidates).1.Unreferenced d := by
  induction candidates generalizing g with
  | nil => exact fun d hd => hd.elim id fun hd => by cases hd
  | cons r candidates ih =>
    unfold bypassAll
    cases ht : g.proxyTarget? r with
    | none => exact ih hrules
    | some t =>
      have hlen : (g.bypass rules r t).1.rules.length = g.rules.length := ((Bypasses.refl g).bypass ht).length
      have hun := ih (g := (g.bypass rules r t).1) (by rw [hlen]; exact hrules)
      intro d hd
      rcases hd with hd | hd
      · exact hun d (.inl (unreferenced_bypass hrules ht (.inr hd)))
      · simp only at hd
        split at hd
        · exact hun d (.inr hd)
        · rcases List.mem_cons.1 hd with rfl | hd
          · exact hun d (.inl (unreferenced_bypass hrules ht (.inl rfl)))
          · exact hun d (.inr hd)

/-- A rule that began as a proxy still is one when its turn comes, unless it stands for itself. -/
theorem Bypasses.proxyTarget? (h : g₀.Bypasses g) {d t : RuleId} {rule : Rule} {i : Expr.Info} {name : String}
    (hr : g₀.rule? d = some rule) (hname : rule.displayName = none) (hbody : rule.body = .ruleRef i name (some t))
    (hcycle : ¬ g₀.StandsFor t d) : ∃ t', g.proxyTarget? d = some t' := by
  obtain ⟨f, hf, hr'⟩ := h.rule d rule hr
  obtain ⟨t', ht', hs⟩ := hf.of_some name t
  obtain ⟨ruleName, nameSpan, displayName, body, span⟩ := rule
  obtain rfl : displayName = none := hname
  obtain rfl : body = .ruleRef i name (some t) := hbody
  refine ⟨t', ?_⟩
  unfold Grammar.proxyTarget?
  rw [hr']
  simp only [Expr.mapRefs, ht']
  rw [if_neg]
  rintro rfl
  exact hcycle hs

/-- After all rules had their turn, no proxy is referred to. -/
theorem bypassAll_proxies {start : List RuleId} (candidates : List RuleId) (h : g₀.Bypasses g)
    (hrules : ∀ r < g.rules.length, r ∈ rules) {d t : RuleId} (hd : d ∈ candidates) {rule : Rule} {i : Expr.Info}
    {name : String} (hr : g₀.rule? d = some rule) (hname : rule.displayName = none)
    (hbody : rule.body = .ruleRef i name (some t)) (hcycle : ¬ g₀.StandsFor t d) :
    (bypassAll rules start g candidates).1.Unreferenced d := by
  induction candidates generalizing g with
  | nil => cases hd
  | cons r candidates ih =>
    unfold bypassAll
    cases ht : g.proxyTarget? r with
    | none =>
      rcases List.mem_cons.1 hd with rfl | hd
      · obtain ⟨t', ht'⟩ := h.proxyTarget? hr hname hbody hcycle
        rw [ht] at ht'
        cases ht'
      · exact ih h hrules hd
    | some t' =>
      have hlen : (g.bypass rules r t').1.rules.length = g.rules.length := ((Bypasses.refl g).bypass ht).length
      have known : ∀ r', r' < (g.bypass rules r t').1.rules.length → r' ∈ rules := by
        rw [hlen]
        exact hrules
      rcases List.mem_cons.1 hd with rfl | hd
      · exact bypassAll_unreferenced candidates known d (.inl (unreferenced_bypass hrules ht (.inl rfl)))
      · exact ih (h.bypass ht) known hd

end Bypass

theorem foldl_remove (ps : List RuleId) (g : Grammar) :
    (ps.foldl remove g).rules = g.rules ∧ ∀ r, r ∈ (ps.foldl remove g).removed ↔ r ∈ g.removed ∨ r ∈ ps := by
  induction ps generalizing g with
  | nil => simp
  | cons p ps ih =>
    obtain ⟨hrules, hmem⟩ := ih (g.remove p)
    refine ⟨hrules, fun r => ?_⟩
    rw [List.foldl_cons, hmem]
    unfold remove
    split
    · rename_i hp
      have hp := List.contains_iff_mem.1 hp
      rw [List.mem_cons]
      constructor
      · rintro (h | h)
        · exact .inl h
        · exact .inr (.inr h)
      · rintro (h | rfl | h)
        · exact .inl h
        · exact .inl hp
        · exact .inr h
    · rw [List.mem_append, List.mem_singleton, List.mem_cons, or_assoc]

theorem rule?_removeProxies (g : Grammar) (start : List RuleId) (r : RuleId) :
    (g.removeProxies start).1.rule? r = (bypassAll g.liveIds start g g.liveIds).1.rule? r :=
  congrArg (fun rules : List Rule => rules[r]?) (foldl_remove _ _).1

theorem bypasses_removeProxies (g : Grammar) (start : List RuleId) : g.Bypasses (g.removeProxies start).1 := by
  have hb : g.Bypasses (bypassAll g.liveIds start g g.liveIds).1 := (bypassAll_bypasses g.liveIds (.refl g)).1
  refine ⟨(congrArg List.length (foldl_remove _ _).1).trans hb.length, fun r rule hr => ?_⟩
  rw [rule?_removeProxies]
  exact hb.rule r rule hr

/-- The rules that are left were there before, with other references. -/
theorem live?_removeProxies {g : Grammar} {start : List RuleId} {r : RuleId} {rule' : Rule}
    (hr : (g.removeProxies start).1.live? r = some rule') :
    ∃ rule f, g.live? r = some rule ∧ rule' = { rule with body := rule.body.mapRefs f } := by
  obtain ⟨rule, f, hrule, -, rfl⟩ := (bypasses_removeProxies g start).of_rule (rule?_of_live? hr)
  refine ⟨rule, f, ?_, rfl⟩
  unfold live? at hr ⊢
  split at hr
  · cases hr
  · rename_i left
    rw [if_neg fun removed => left (List.contains_iff_mem.2 (((foldl_remove _ _).2 r).2 (.inl ?_)))]
    · exact hrule
    · rw [(bypassAll_bypasses g.liveIds (.refl g)).2]
      exact List.contains_iff_mem.1 removed

theorem mem_liveIds_of_lt {g : Grammar} (hg : g.removed = []) : ∀ r < g.rules.length, r ∈ g.liveIds := fun r hlt =>
  mem_liveIds.2 ⟨g.rules[r], by unfold live?; rw [hg]; exact List.getElem?_eq_getElem hlt⟩

/-- Proxies are not referred to afterwards, whether they were removed or not. -/
theorem unreferenced_removeProxies {g : Grammar} (hg : g.removed = []) (start : List RuleId) {d t : RuleId} {rule : Rule}
    {i : Expr.Info} {name : String} (hr : g.rule? d = some rule) (hname : rule.displayName = none)
    (hbody : rule.body = .ruleRef i name (some t)) (hcycle : ¬ g.StandsFor t d) :
    (g.removeProxies start).1.Unreferenced d := by
  rintro r' e ⟨rule', hrule', he⟩
  rw [rule?_removeProxies] at hrule'
  have candidate : d ∈ g.liveIds := mem_liveIds_of_lt hg d (List.getElem?_eq_some_iff.1 hr).1
  exact bypassAll_proxies g.liveIds (.refl g) (mem_liveIds_of_lt hg) candidate hr hname hbody hcycle r' e ⟨rule', hrule', he⟩

/-- Rules that were removed as proxies are not started from and not referred to. -/
theorem removed_removeProxies {g : Grammar} (hg : g.removed = []) {start : List RuleId} {r : RuleId}
    (hr : r ∈ (g.removeProxies start).1.removed) : r ∉ start ∧ (g.removeProxies start).1.Unreferenced r := by
  rcases ((foldl_remove _ _).2 r).1 hr with h | h
  · rw [(bypassAll_bypasses g.liveIds (.refl g)).2, hg] at h
    cases h
  · refine ⟨bypassAll_started g.liveIds r h, ?_⟩
    rintro r' e ⟨rule, hrule, he⟩
    rw [rule?_removeProxies] at hrule
    exact bypassAll_unreferenced g.liveIds (mem_liveIds_of_lt hg) r (.inr h) r' e ⟨rule, hrule, he⟩

end Grammar

end PegCompiler
