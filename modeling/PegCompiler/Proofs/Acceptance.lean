/-
Grammars that the checks accept. No check fails, so a grammar is accepted just where none of them reports an
error; what that rules out is listed here (`Accepted`), for proofs about the passes that come after the checks.
-/
import PegCompiler.Proofs.Analysis.Scopes
import PegCompiler.Proofs.Compilation

namespace PegCompiler

open Analysis

namespace Diagnostics

theorem check_ok_iff {ds : List Diagnostic} : check ds = .ok ⟨⟩ ↔ ∀ d ∈ ds, d.severity ≠ .error := by
  unfold check errors
  constructor
  · intro h d hd he
    split at h
    · rename_i hnil
      exact List.filter_eq_nil_iff.1 hnil d hd (decide_eq_true he)
    · cases h
  · intro h
    rw [List.filter_eq_nil_iff.2 fun d hd => by simpa using h d hd]

end Diagnostics

namespace Session

/-- What the checks say about a grammar. -/
def checks (g : Grammar) (o : CompileOptions) : List Diagnostic :=
  (startRules g o.allowedStartRules).2 ++ undefinedRules g ++ duplicateRules g ++
    unusedRules g (startRules g o.allowedStartRules).1 ++ Analysis.labels g o.reservedWords ++ repetitionBounds g ++
    leftRecursion g ++ emptyRepetitions g ++ Analysis.picks g

/-- The session after the checks. -/
def checked (g : Grammar) (o : CompileOptions) : Session :=
  { compilation := { Compilation.start g o with startRules := (startRules g o.allowedStartRules).1 }
    diagnostics := checks g o }

/-- The checks never fail: they only speak. -/
theorem advance_check (g : Grammar) (o : CompileOptions) : advance ⟨.start g o, []⟩ .check = .ok (checked g o) := rfl

/-- A grammar is accepted: the checks find no error. -/
def Accepted (g : Grammar) (o : CompileOptions) : Prop := Diagnostics.check (checks g o) = .ok ⟨⟩

end Session

/-! ## What is ruled out -/

theorem undefinedRules_error {g : Grammar} {d : Diagnostic} (hd : d ∈ undefinedRules g) : d.severity = .error := by
  obtain ⟨e, -, he⟩ := List.mem_filterMap.1 hd
  unfold undefinedRule? at he
  split at he
  · cases he; rfl
  · cases he

theorem duplicatesAfter_error {seen : List (String × Span)} {rules : List Rule} {d : Diagnostic}
    (hd : d ∈ duplicatesAfter seen rules) : d.severity = .error := by
  induction rules generalizing seen with
  | nil => cases hd
  | cons r rules ih =>
    unfold duplicatesAfter at hd
    split at hd
    · rcases List.mem_cons.1 hd with rfl | hd
      · rfl
      · exact ih hd
    · exact ih hd

/-- Where no name is taken, names are different. -/
theorem nodup_of_duplicatesAfter {seen : List (String × Span)} {rules : List Rule}
    (h : duplicatesAfter seen rules = []) :
    (rules.map (·.name)).Nodup ∧ ∀ rule ∈ rules, seen.lookup rule.name = none := by
  induction rules generalizing seen with
  | nil => simp
  | cons r rules ih =>
    unfold duplicatesAfter at h
    split at h
    · cases h
    · rename_i free
      obtain ⟨nodup, later⟩ := ih h
      have apart : ∀ rule ∈ rules, seen.lookup rule.name = none ∧ rule.name ≠ r.name := by
        intro rule hrule
        have := later rule hrule
        rw [List.lookup_append, Option.or_eq_none_iff] at this
        exact ⟨this.1, fun same => by simp [same] at this⟩
      constructor
      · rw [List.map_cons, List.nodup_cons]
        refine ⟨fun hm => ?_, nodup⟩
        obtain ⟨rule, hrule, same⟩ := List.mem_map.1 hm
        exact (apart rule hrule).2 same
      · rintro rule (_ | ⟨_, hrule⟩)
        · exact free
        · exact (apart rule hrule).1

/-- What acceptance rules out. -/
structure Session.Accepted.Excludes (g : Grammar) (o : CompileOptions) : Prop where
  references : undefinedRules g = []
  names : ∀ r rule r' rule', g.live? r = some rule → g.live? r' = some rule' → rule.name = rule'.name → r = r'
  labels : ∀ r rule, g.live? r = some rule → labelsIn o.reservedWords [] rule.body = []
  recursion : ∀ d ∈ leftRecursion g, d.severity ≠ .error
  repetitions : ∀ d ∈ emptyRepetitions g, d.severity ≠ .error

theorem Session.Accepted.excludes {g : Grammar} {o : CompileOptions} (h : Session.Accepted g o) :
    Session.Accepted.Excludes g o := by
  have ok := Diagnostics.check_ok_iff.1 h
  unfold Session.checks at ok
  simp only [List.mem_append] at ok
  refine ⟨?_, fun r rule r' rule' hr hr' same => ?_, fun r rule hr => ?_, fun d hd => ok d (by tauto),
    fun d hd => ok d (by tauto)⟩
  · rw [List.eq_nil_iff_forall_not_mem]
    exact fun d hd => ok d (by tauto) (undefinedRules_error hd)
  · have none : duplicateRules g = [] := by
      rw [List.eq_nil_iff_forall_not_mem]
      exact fun d hd => ok d (by tauto) (duplicatesAfter_error hd)
    have nodup := (nodup_of_duplicatesAfter none).1
    rw [List.map_map] at nodup
    have := List.inj_on_of_nodup_map nodup (Grammar.mem_live.2 hr) (Grammar.mem_live.2 hr') same
    exact congrArg Prod.fst this
  · rw [List.eq_nil_iff_forall_not_mem]
    intro d hd
    have : d ∈ Analysis.labels g o.reservedWords := List.mem_flatMap.2 ⟨(r, rule), Grammar.mem_live.2 hr, hd⟩
    exact ok d (by tauto) (labelsIn_error hd)

/-- A draft that is built and passes the checks: the session that they leave behind, and what is known of the grammar. -/
theorem Session.accepted_of_checks {d : Draft} {g : Grammar} (hd : d.build? = .ok g) {o : CompileOptions} {s : Session}
    (hchecks : Session.advance ⟨.start g o, []⟩ .check = .ok s) (haccepts : Diagnostics.check s.diagnostics = .ok ⟨⟩) :
    s = Session.checked g o ∧ Session.Accepted g o ∧ g.Built ∧ g.Resolved := by
  rw [Session.advance_check] at hchecks
  cases hchecks
  have accepted : Session.Accepted g o := haccepts
  have built := Draft.built hd
  exact ⟨rfl, accepted, built, built.resolved accepted.excludes.references⟩

/-- Labels are in scope in an accepted grammar, whichever proxies were bypassed. -/
theorem Session.Accepted.labels_of {g g' : Grammar} {o : CompileOptions} (h : Session.Accepted g o) (hg : g.Built)
    (hb : g.Bypasses g') {r : RuleId} {rule : Rule} (hr : g'.live? r = some rule) :
    labelsIn o.reservedWords [] rule.body = [] := by
  obtain ⟨rule, f, hrule, -, rfl⟩ := hb.of_rule (Grammar.rule?_of_live? hr)
  rw [labelsIn_mapRefs]
  refine h.excludes.labels r rule ?_
  unfold Grammar.live?
  rw [hg.removed]
  exact hrule

/-- Rules that are left have different names. -/
theorem Session.Accepted.names_of {g g' : Grammar} {o : CompileOptions} (h : Session.Accepted g o) (hg : g.Built)
    (hb : g.Bypasses g') {r r' : RuleId} {rule rule' : Rule} (hr : g'.live? r = some rule) (hr' : g'.live? r' = some rule')
    (same : rule.name = rule'.name) : r = r' := by
  obtain ⟨rule, f, hrule, -, rfl⟩ := hb.of_rule (Grammar.rule?_of_live? hr)
  obtain ⟨rule', f', hrule', -, rfl⟩ := hb.of_rule (Grammar.rule?_of_live? hr')
  have live (r : RuleId) : g.live? r = g.rule? r := by
    unfold Grammar.live?
    rw [hg.removed]
    rfl
  exact h.excludes.names r rule r' rule' ((live r).trans hrule) ((live r').trans hrule') same

/-! ## The passes after the checks -/

/-- The session with other options. -/
def Session.withOptions (s : Session) (options : CompileOptions) : Session :=
  { s with compilation := { s.compilation with options } }

/-- The search for match results does not ask for options. -/
theorem Working.findMatches_withOptions {s s' : Session} (h : findMatches s = .ok ⟨⟩ s') :
    ∃ found, s' = s.withFound found ∧
      ∀ o, findMatches (s.withOptions o) = .ok ⟨⟩ ((s.withFound found).withOptions o) := by
  unfold findMatches at h
  cases hfound : Matching.findLive s.compilation.grammar s.compilation.found with
  | error why found => rw [hfound] at h; cases h
  | ok u found =>
    rw [hfound] at h
    cases h
    refine ⟨found, rfl, fun o => ?_⟩
    unfold findMatches
    rw [show Matching.findLive (s.withOptions o).compilation.grammar (s.withOptions o).compilation.found = _ from hfound]
    rfl

namespace Session

/-- Nor does the stage that it is in. -/
theorem transform_withOptions {s s' : Session} (h : s.advance .transform = .ok s') (o : CompileOptions) :
    (s.withOptions o).advance .transform = .ok (s'.withOptions o) := by
  unfold advance at h
  cases hrun : Stage.transform.run s with
  | error why t => rw [hrun] at h; cases h
  | ok u t =>
    rw [hrun] at h
    cases h
    obtain ⟨_, s₁, h₁, hrun⟩ := bind_ok_iff.1 hrun
    obtain ⟨_, s₂, h₂, hrun⟩ := bind_ok_iff.1 hrun
    cases hrun
    obtain ⟨found, rfl, again⟩ := Working.findMatches_withOptions h₂
    have proxies : Pass.proxies.run (s.withOptions o) = .ok ⟨⟩ (s₁.withOptions o) := by
      cases h₁
      rfl
    have transformed : Stage.transform.run (s.withOptions o) = .ok ⟨⟩ ((s₁.withFound found).withOptions o) :=
      bind_ok_iff.2 ⟨⟨⟩, _, proxies, bind_ok_iff.2 ⟨⟨⟩, _, again o, rfl⟩⟩
    unfold advance
    rw [transformed]

/-- Bypassing proxies never fails. -/
theorem proxies_ok (g : Grammar) (o : CompileOptions) :
    ∃ s, Pass.proxies.run (checked g o) = .ok ⟨⟩ s ∧ s.Prepared g o ∧
      s.compilation.grammar = (g.removeProxies (startRules g o.allowedStartRules).1).1 ∧
      s.compilation.startRules = (startRules g o.allowedStartRules).1 :=
  ⟨_, rfl, ⟨Grammar.bypasses_removeProxies _ _, rfl, rfl, List.length_map _, rfl⟩, rfl, rfl⟩

/-- The passes after the checks, up to the code, succeed on an accepted grammar. -/
theorem Accepted.compiles {g : Grammar} {o : CompileOptions} (h : Accepted g o) (hg : g.Built) (hres : g.Resolved) :
    ∃ s₁ s₂, (checked g o).advance .transform = .ok s₁ ∧ Pass.bytecode.run s₁ = .ok ⟨⟩ s₂ ∧
      s₂.compilation.grammar = (g.removeProxies (startRules g o.allowedStartRules).1).1 ∧
      s₂.compilation.options = o ∧ s₂.compilation.startRules = (startRules g o.allowedStartRules).1 ∧
      Matching.Complete s₂.compilation.grammar s₂.compilation.found ∧ s₂.compilation.Coded := by
  obtain ⟨s, hs, prepared, hgrammar, hstart⟩ := proxies_ok g o
  obtain ⟨found, hfound, complete⟩ := prepared.matching hg.numbered hres
  have transformed : Stage.transform.run (checked g o) = .ok ⟨⟩ (s.withFound found) :=
    bind_ok_iff.2 ⟨⟨⟩, s, hs, bind_ok_iff.2 ⟨⟨⟩, _, hfound, rfl⟩⟩
  have labels : ∀ r rule, s.compilation.grammar.live? r = some rule → labelsIn o.reservedWords [] rule.body = [] :=
    fun r rule hr => h.labels_of hg prepared.bypasses hr
  obtain ⟨s₂, hs₂⟩ := Working.compileRules_succeeds (s := s.withFound found) (prepared.bypasses.resolved hres) labels
  have hlen : (s.withFound found).compilation.bytecode.length = (s.withFound found).compilation.grammar.rules.length :=
    prepared.bytecode.trans prepared.bypasses.length.symm
  obtain ⟨coded, k, code, rfl⟩ := Working.compileRules_ok hlen hs₂
  refine ⟨s.withFound found, _, ?_, hs₂, hgrammar, prepared.options, hstart, complete, coded⟩
  unfold advance
  rw [transformed]

end Session

end PegCompiler
