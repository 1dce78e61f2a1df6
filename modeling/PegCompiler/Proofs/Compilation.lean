/-
What the passes of a compilation do. Those before the search for match results change the grammar by
bypassing proxies at most, and never fail. Compiling the rules only adds to the pools and to the code, so
that at its end every rule has its code, linked to the pools that there are then (`Compilation.Coded`).
-/
import PegCompiler.Compilation
import PegCompiler.Proofs.Analysis.Rounds
import PegCompiler.Proofs.Code.Visits
import PegCompiler.Proofs.Grammar.Build
import PegCompiler.Proofs.Grammar.Proxy

namespace PegCompiler

namespace Grammar

theorem map_fst_numbered (g : Grammar) : g.numbered.map (·.1) = List.range g.rules.length := by
  unfold numbered
  rw [List.map_map, List.range_eq_range', ← List.zipIdx_map_snd]
  rfl

theorem nodup_liveIds (g : Grammar) : (g.live.map (·.1)).Nodup := by
  have sub : (g.live.map (·.1)).Sublist (g.numbered.map (·.1)) := List.filter_sublist.map _
  rw [map_fst_numbered] at sub
  exact List.nodup_range.sublist sub

/-- Without references that stand for nothing, all of them stand for rules. -/
theorem Built.resolved {g : Grammar} (h : g.Built) (hrefs : Analysis.undefinedRules g = []) : g.Resolved := by
  rintro r e ⟨rule, hr, he⟩
  cases e with
  | ruleRef i name target =>
    cases target with
    | some t => exact ⟨t, rfl, h.refers r _ ⟨rule, hr, he⟩ t rfl⟩
    | none =>
      have live : (r, rule) ∈ g.live := mem_live.2 (by unfold live?; rw [h.removed]; exact hr)
      have mem : Expr.ruleRef i name none ∈ g.liveExprs := List.mem_flatMap.2 ⟨_, live, he⟩
      have := List.filterMap_eq_nil_iff.1 hrefs _ mem
      cases this
  | _ => trivial

end Grammar

/-! ## Compiling the rules -/

/-- Every rule has its code, linked to the pools. -/
structure Compilation.Coded (c : Compilation) : Prop where
  known : ∀ r rule, c.grammar.live? r = some rule → Code.Known c.constants (Code.ofRule c.plan rule)
  code : ∀ r rule, c.grammar.live? r = some rule →
    c.codeOf r = ⟨(Code.link c.constants (Code.ofRule c.plan rule)).encode, Code.peak c.plan rule.body 0⟩

namespace Session

/-- The session with other pools and other code. -/
def withCode (s : Session) (constants : Constants) (bytecode : List Bytecode) : Session :=
  { s with compilation := { s.compilation with constants, bytecode } }

/-- The session with other match results. -/
def withFound (s : Session) (found : Matches) : Session := { s with compilation := { s.compilation with found } }

end Session

namespace Working

open Code

variable {s s' : Session}

theorem compileRule_ok {r : RuleId} {rule : Rule} (h : compileRule r rule s = .ok ⟨⟩ s') :
    ∃ k, s.compilation.constants.Grows k ∧ Known k (ofRule s.compilation.plan rule) ∧
      (∀ f ∈ k.functions.toList, f ∈ s.compilation.constants.functions.toList ∨
        Visited s.compilation.plan (.ofRule rule) f) ∧ s' = s.withCode k (s.compilation.bytecode.set r
        ⟨(link k (ofRule s.compilation.plan rule)).encode, peak s.compilation.plan rule.body 0⟩) := by
  unfold compileRule at h
  simp only at h
  cases hcode : (ofRule s.compilation.plan rule).assemble s.compilation.constants with
  | error why k => rw [hcode] at h; cases h
  | ok code k =>
    rw [hcode] at h
    obtain ⟨hgrows, hknown, rfl⟩ := (bracketed_ofRule s.compilation.plan rule).assemble_ok hcode
    cases h
    refine ⟨k, hgrows, hknown, fun f hf => ?_, rfl⟩
    exact (functions_assemble (.inl ⟨_, hcode⟩) hf).imp_right visited_of_rule

/-- What compiling some rules does to a session. -/
structure CompilesTo (rules : List (RuleId × Rule)) (s s' : Session) (k : Constants) (code : List Bytecode) : Prop where
  session : s' = s.withCode k code
  grows : s.compilation.constants.Grows k
  others : ∀ r, r ∉ rules.map (·.1) → code.getD r .empty = s.compilation.codeOf r
  known : ∀ r rule, (r, rule) ∈ rules → Known k (ofRule s.compilation.plan rule)
  code : ∀ r rule, (r, rule) ∈ rules →
    code.getD r .empty = ⟨(link k (ofRule s.compilation.plan rule)).encode, peak s.compilation.plan rule.body 0⟩

theorem compileEach_ok (rules : List (RuleId × Rule)) (hnodup : (rules.map (·.1)).Nodup)
    (hlt : ∀ r ∈ rules.map (·.1), r < s.compilation.bytecode.length)
    (h : (rules.forM fun (r, rule) => compileRule r rule) s = .ok ⟨⟩ s') :
    ∃ k code, CompilesTo rules s s' k code := by
  induction rules generalizing s with
  | nil =>
    cases h
    exact ⟨_, _, ⟨rfl, .refl _, fun _ _ => rfl, fun _ _ hm => (List.not_mem_nil hm).elim,
      fun _ _ hm => (List.not_mem_nil hm).elim⟩⟩
  | cons head rules ih =>
    obtain ⟨r, rule⟩ := head
    obtain ⟨_, s₁, h₁, h⟩ := bind_ok_iff.1 h
    obtain ⟨k₁, grows₁, known₁, -, rfl⟩ := compileRule_ok h₁
    rw [List.map_cons, List.nodup_cons] at hnodup
    have hr : r < s.compilation.bytecode.length := hlt r List.mem_cons_self
    obtain ⟨k, code, hc⟩ := ih hnodup.2 (fun r' hr' => by
      show r' < (s.compilation.bytecode.set r _).length
      rw [List.length_set]
      exact hlt r' (List.mem_cons_of_mem _ hr')) h
    refine ⟨k, code, hc.session, grows₁.trans hc.grows, fun r' hr' => ?_, fun r' rule' hm => ?_, fun r' rule' hm => ?_⟩
    · rw [List.map_cons, List.mem_cons, not_or] at hr'
      rw [hc.others r' hr'.2]
      show (s.compilation.bytecode.set r _).getD r' .empty = s.compilation.bytecode.getD r' .empty
      rw [List.getD_eq_getElem?_getD, List.getElem?_set_ne (Ne.symm hr'.1), List.getD_eq_getElem?_getD]
    · rcases List.mem_cons.1 hm with e | hm
      · cases e; exact known₁.mono hc.grows
      · exact hc.known r' rule' hm
    · rcases List.mem_cons.1 hm with e | hm
      · cases e
        -- later rules have other numbers, and the pools keep the indexes of this one
        rw [hc.others r hnodup.1, link_eq_of_grows hc.grows known₁]
        show (s.compilation.bytecode.set r _).getD r .empty = _
        rw [List.getD_eq_getElem?_getD, List.getElem?_set_self hr]
        rfl
      · exact hc.code r' rule' hm

theorem compileRules_ok (hlen : s.compilation.bytecode.length = s.compilation.grammar.rules.length)
    (h : compileRules s = .ok ⟨⟩ s') : s'.compilation.Coded ∧ ∃ k code, s' = s.withCode k code := by
  obtain ⟨k, code, hc⟩ := compileEach_ok s.compilation.grammar.live (Grammar.nodup_liveIds _) (fun r hr => by
    rw [hlen]
    exact Grammar.lt_of_mem_liveIds hr) h
  obtain rfl := hc.session
  exact ⟨⟨fun r rule hr => hc.known r rule (Grammar.mem_live.2 hr),
    fun r rule hr => hc.code r rule (Grammar.mem_live.2 hr)⟩, k, code, rfl⟩

/-- Compiling rules adds functions to the pools for their host code only. -/
theorem functions_compileEach (rules : List (RuleId × Rule))
    (h : (rules.forM fun (r, rule) => compileRule r rule) s = .ok ⟨⟩ s') {f : HostFunction}
    (hf : f ∈ s'.compilation.constants.functions.toList) : f ∈ s.compilation.constants.functions.toList ∨
      ∃ x ∈ rules, ∃ e ∈ x.2.body.preorder, ∃ code ∈ e.codes, f.code = code.val := by
  induction rules generalizing s with
  | nil => cases h; exact .inl hf
  | cons head rules ih =>
    obtain ⟨_, s₁, h₁, h⟩ := bind_ok_iff.1 h
    obtain ⟨k₁, -, -, added, rfl⟩ := compileRule_ok h₁
    rcases ih h with hk | ⟨x, hx, later⟩
    · exact (added f hk).imp_right fun own => ⟨head, List.mem_cons_self, own.codes⟩
    · exact .inr ⟨x, List.mem_cons_of_mem _ hx, later⟩

/-- One rule after the other is compiled, if its references stand for rules and its labels are in scope. -/
theorem compileEach_succeeds {reserved : List String} (rules : List (RuleId × Rule)) (s : Session)
    (hrules : ∀ x ∈ rules, (∀ i name, .ruleRef i name none ∉ x.2.body.preorder) ∧
      Analysis.labelsIn reserved [] x.2.body = []) :
    ∃ s', (rules.forM fun (r, rule) => compileRule r rule) s = .ok ⟨⟩ s' := by
  induction rules generalizing s with
  | nil => exact ⟨s, rfl⟩
  | cons head rules ih =>
    obtain ⟨refs, labels⟩ := hrules head List.mem_cons_self
    obtain ⟨code, k, hcode⟩ := assemble_ofRule (p := s.compilation.plan) refs labels s.compilation.constants
    have first : ∃ s₁, compileRule head.1 head.2 s = .ok ⟨⟩ s₁ := by
      unfold compileRule
      simp only
      rw [hcode]
      exact ⟨_, rfl⟩
    obtain ⟨s₁, h₁⟩ := first
    obtain ⟨s', h'⟩ := ih s₁ fun x hx => hrules x (List.mem_cons_of_mem _ hx)
    exact ⟨s', bind_ok_iff.2 ⟨⟨⟩, s₁, h₁, h'⟩⟩

/-- Rules are compiled where their references stand for rules and their labels are in scope. -/
theorem compileRules_succeeds {reserved : List String} (hrefs : s.compilation.grammar.Resolved)
    (hlabels : ∀ r rule, s.compilation.grammar.live? r = some rule → Analysis.labelsIn reserved [] rule.body = []) :
    ∃ s', compileRules s = .ok ⟨⟩ s' :=
  compileEach_succeeds s.compilation.grammar.live s fun (r, rule) hm =>
    ⟨hrefs.known (Grammar.mem_live.1 hm) rule.body.mem_preorder_self, hlabels r rule (Grammar.mem_live.1 hm)⟩

end Working

/-! ## The passes before that -/

/-- Nothing was done to the compilation but that start rules were found and proxies were bypassed. -/
structure Session.Prepared (g : Grammar) (o : CompileOptions) (s : Session) : Prop where
  bypasses : g.Bypasses s.compilation.grammar
  options : s.compilation.options = o
  found : s.compilation.found = .unknown g.arena.length g.rules.length
  bytecode : s.compilation.bytecode.length = g.rules.length
  constants : s.compilation.constants = .empty

namespace Session.Prepared

variable {g : Grammar} {o : CompileOptions} {s : Session}

theorem start (g : Grammar) (o : CompileOptions) : Prepared g o ⟨.start g o, []⟩ :=
  ⟨.refl g, rfl, rfl, List.length_map _, rfl⟩

theorem pass (h : s.Prepared g o) {p : Pass} (hp : p ≠ .matching ∧ p ≠ .bytecode ∧ p ≠ .source) :
    ∃ s', p.run s = .ok ⟨⟩ s' ∧ s'.Prepared g o := by
  cases p with
  | startRules => exact ⟨_, rfl, h.bypasses, h.options, h.found, h.bytecode, h.constants⟩
  | proxies =>
    exact ⟨_, rfl, h.bypasses.trans (Grammar.bypasses_removeProxies _ _), h.options, h.found, h.bytecode, h.constants⟩
  | matching => exact absurd rfl hp.1
  | bytecode => exact absurd rfl hp.2.1
  | source => exact absurd rfl hp.2.2
  | _ => exact ⟨_, rfl, h.bypasses, h.options, h.found, h.bytecode, h.constants⟩

theorem passes (h : s.Prepared g o) (ps : List Pass) (hps : ∀ p ∈ ps, p ≠ .matching ∧ p ≠ .bytecode ∧ p ≠ .source) :
    ∃ s', ps.forM Pass.run s = .ok ⟨⟩ s' ∧ s'.Prepared g o := by
  induction ps generalizing s with
  | nil => exact ⟨s, rfl, h⟩
  | cons p ps ih =>
    obtain ⟨s₁, h₁, prepared₁⟩ := h.pass (hps p List.mem_cons_self)
    obtain ⟨s', h', prepared⟩ := ih prepared₁ fun p hp => hps p (List.mem_cons_of_mem _ hp)
    exact ⟨s', bind_ok_iff.2 ⟨⟨⟩, s₁, h₁, h'⟩, prepared⟩

/-- The search for match results succeeds where references stand for rules, and would with any limit on the rounds
from two on. -/
theorem matching_final (h : s.Prepared g o) (hg : g.Numbered g.arena.length) (hres : g.Resolved) :
    ∃ found, Pass.matching.run s = .ok ⟨⟩ (s.withFound found) ∧
      Analysis.Matching.Final s.compilation.grammar found ∧
      Analysis.Matching.Settles s.compilation.grammar s.compilation.found found := by
  obtain ⟨found, hfound, final, settles⟩ :=
    Analysis.Matching.findLive_settles (h.bypasses.numbered hg) (h.bypasses.resolved hres)
  rw [h.bypasses.length, ← h.found] at hfound settles
  refine ⟨found, ?_, final, settles⟩
  show Working.findMatches s = _
  unfold Working.findMatches
  rw [hfound]
  rfl

theorem matching (h : s.Prepared g o) (hg : g.Numbered g.arena.length) (hres : g.Resolved) :
    ∃ found, Pass.matching.run s = .ok ⟨⟩ (s.withFound found) ∧
      Analysis.Matching.Complete s.compilation.grammar found := by
  obtain ⟨found, hfound, final, -⟩ := h.matching_final hg hres
  exact ⟨found, hfound, final.toComplete⟩

end Session.Prepared

end PegCompiler
