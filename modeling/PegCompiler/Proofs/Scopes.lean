/-
Labels mean in the code of a grammar what the check of labels saw. Whichever passes are run, the rules that are left
are rules of the grammar with other references at most, and every function in the pools is that of a place in one of
them (`Session.Tracks`, kept by each pass). So where the check finds no error, all that is compiled is made with the
labels that the check saw at the same place (`compiled_labels_are_checked`).
-/
import PegCompiler.Proofs.Code.Scopes
import PegCompiler.Proofs.Compilation

namespace PegCompiler

open Analysis Code

/-! ## Labels at visits -/

namespace Code.Visit

/-- A visit with an environment that has the labels of a scope, where repetitions find the labels that they count with,
and binding a label leaves the others as they are. -/
structure Sees (reserved : List String) (scope : Scope) (v : Visit) : Prop where
  labels : v.env.Models reserved scope v.size
  finds : ∀ i body min max delimiter name, v.expr = .repeated i body min max delimiter →
    min = some (.label name) ∨ max = .label name → ∃ slot < v.size, v.env.lookup name.val = some slot
  binds : ∀ i label pick body, v.expr = .labeled i (some label) pick body →
    v.env.after v.expr v.size = v.env ++ [(label.val, v.size)]

variable {reserved : List String} {scope : Scope} {v : Visit}

theorem sees_of_models (h : v.env.Models reserved scope v.size) (hl : labelsIn reserved scope v.expr = []) :
    v.Sees reserved scope := by
  have quiet : labelsAt reserved scope v.expr = [] := List.eq_nil_iff_forall_not_mem.2 fun d hd =>
    List.not_mem_nil (hl ▸ mem_labelsIn.2 (.inl hd))
  refine ⟨h, fun i body min max delimiter name he hname => ?_, fun i label pick body he => ?_⟩
  · rw [he] at quiet
    obtain ⟨hmin, hmax⟩ := List.append_eq_nil_iff.1 quiet
    have bound : boundProblems scope (.label name) = [] := by
      rcases hname with rfl | rfl
      · exact hmin
      · exact hmax
    have visible : (scope.lookup name.val).isSome := by
      unfold boundProblems at bound
      dsimp only at bound
      split at bound
      · assumption
      · cases bound
    rw [lookup_isSome_iff, ← Scope.names, ← h.names] at visible
    obtain ⟨slot, hslot⟩ := Option.isSome_iff_exists.1 (lookup_isSome_iff.2 visible)
    obtain ⟨before, after, bound, -⟩ := List.lookup_eq_some_iff.1 hslot
    have here : (name.val, slot) ∈ v.env := by
      rw [bound]
      simp
    exact ⟨slot, h.below _ here, hslot⟩
  · rw [he] at quiet ⊢
    obtain ⟨-, new⟩ := new_of_labelProblems quiet
    exact Env.bind_of_new (h.names ▸ new) v.size

end Code.Visit

/-- A host function is that of a place in a rule: its parameters are the labels that the check sees there, all different
and none of them reserved. -/
structure Grammar.Explains (g : Grammar) (reserved : List String) (f : HostFunction) : Prop where
  distinct : f.params.Nodup
  allowed : ∀ name ∈ f.params, name ∉ reserved
  place : ∃ r rule path e scope, g.live? r = some rule ∧ Scope.follow? [] rule.body path = some (e, scope) ∧
    f ∈ e.functions scope.names (scope.closing e).names

/-! ## Labels in the code of rules -/

section Rules

variable {g : Grammar} {o : CompileOptions} {reserved : List String} {scope : Scope} {p : Plan} {rule rule' : Rule}
  {path : List Nat} {v : Visit} {e : Expr} {redirect : Expr.Reference → Expr.Reference} {f : HostFunction}

theorem Expr.functions_mapRefs (redirect : Expr.Reference → Expr.Reference) (e : Expr)
    (around closing : List String) : (e.mapRefs redirect).functions around closing = e.functions around closing := by
  cases e with
  | repeated i body min max delimiter => cases delimiter <;> rfl
  | _ => rfl

theorem params_of_functions {around closing : List String} (h : f ∈ e.functions around closing) :
    f.params = around ∨ f.params = closing := by
  cases e with
  | action i body code =>
    rw [List.mem_singleton.1 h]
    exact .inr rfl
  | semanticAnd i code | semanticNot i code =>
    rw [List.mem_singleton.1 h]
    exact .inl rfl
  | _ =>
    obtain ⟨code, -, rfl⟩ := List.mem_map.1 h
    exact .inl rfl

/-- What is visited in a rule with other references. -/
theorem sees_of_visits (checked : labelsIn reserved [] rule.body = []) (same : rule'.body = rule.body.mapRefs redirect)
    (h : Visits p (.ofRule rule') path v) : ∃ e scope, Scope.follow? [] rule.body path = some (e, scope) ∧
      v.expr = e.mapRefs redirect ∧ v.Sees reserved scope ∧ labelsIn reserved scope e = [] := by
  have quiet : labelsIn reserved [] rule'.body = [] := by rw [same, labelsIn_mapRefs, checked]
  obtain ⟨scope, hfollow, models, there⟩ := models_visits h (.start reserved 0) quiet
  rw [show (Visit.ofRule rule').expr = rule.body.mapRefs redirect from same] at hfollow
  obtain ⟨e, hfollow, he⟩ := Scope.follow?_mapRefs redirect hfollow
  refine ⟨e, scope, hfollow, he, Visit.sees_of_models models there, ?_⟩
  rwa [he, labelsIn_mapRefs] at there

/-- The functions that are called in a rule with other references. -/
theorem explains_of_visited {r : RuleId} (hr : g.live? r = some rule) (checked : labelsIn reserved [] rule.body = [])
    (same : rule'.body = rule.body.mapRefs redirect) (h : Visited p (.ofRule rule') f) : g.Explains reserved f := by
  obtain ⟨path, v, visits, -, hf⟩ := h
  obtain ⟨e, scope, hfollow, he, sees, there⟩ := sees_of_visits checked same visits
  have around := sees.labels
  have inside : labelsIn reserved scope v.expr = [] := by rw [he, labelsIn_mapRefs, there]
  obtain ⟨size, closing⟩ := around.closing inside
  have params : f.params = v.env.params ∨ f.params = (v.env.closing v.size v.expr).params := params_of_functions hf
  refine ⟨?_, ?_, r, rule, path, e, scope, hr, hfollow, ?_⟩
  · rcases params with same | same
    · rw [same]; exact around.distinct
    · rw [same]; exact closing.distinct
  · rcases params with same | same
    · rw [same]; exact around.allowed
    · rw [same]; exact closing.allowed
  · unfold Visit.functions at hf
    rwa [around.names, closing.names, he, Scope.closing_mapRefs, Expr.functions_mapRefs] at hf

end Rules

/-! ## Labels through the passes -/

/-- The rules that are left are rules of the grammar with other references, and the functions in the pools are those
of places in it. -/
structure Session.Tracks (g : Grammar) (o : CompileOptions) (s : Session) : Prop where
  rules : ∀ r rule', s.compilation.grammar.live? r = some rule' →
    ∃ rule redirect, g.live? r = some rule ∧ rule'.body = rule.body.mapRefs redirect
  functions : ∀ f ∈ s.compilation.constants.functions.toList, g.Explains o.reservedWords f

namespace Session.Tracks

variable {g : Grammar} {o : CompileOptions} {s s' : Session}

theorem start (g : Grammar) (o : CompileOptions) : Tracks g o ⟨.start g o, []⟩ :=
  ⟨fun _ rule hr => ⟨rule, fun ref => ref, hr, (Expr.mapRefs_self rule.body).symm⟩, nofun⟩

theorem check {find : Compilation → List Diagnostic} (h : s.Tracks g o) (hrun : EndsIn (Working.check find) s s') :
    s'.Tracks g o := by
  rcases hrun with ⟨_, hrun⟩ | ⟨_, hrun⟩
  · cases hrun
    exact ⟨h.rules, h.functions⟩
  · cases hrun

theorem compileRule (h : s.Tracks g o) {r : RuleId} {rule rule' : Rule} {redirect : Expr.Reference → Expr.Reference}
    (hr : g.live? r = some rule) (checked : labelsIn o.reservedWords [] rule.body = [])
    (same : rule'.body = rule.body.mapRefs redirect) (hrun : EndsIn (Working.compileRule r rule') s s') :
    s'.Tracks g o ∧ s'.compilation.grammar = s.compilation.grammar := by
  have added {k : Constants} (hk : EndsIn (ofRule s.compilation.plan rule').assemble s.compilation.constants k) :
      ∀ f ∈ k.functions.toList, g.Explains o.reservedWords f := fun f hf =>
    (functions_assemble hk hf).elim (h.functions f) fun called =>
      explains_of_visited hr checked same (visited_of_rule called)
  unfold EndsIn Working.compileRule at hrun
  dsimp only at hrun
  cases hcode : (ofRule s.compilation.plan rule').assemble s.compilation.constants with
  | ok code k =>
    rw [hcode] at hrun
    rcases hrun with ⟨_, hrun⟩ | ⟨_, hrun⟩
    · cases hrun
      exact ⟨⟨h.rules, added (.inl ⟨code, hcode⟩)⟩, rfl⟩
    · cases hrun
  | error why k =>
    rw [hcode] at hrun
    rcases hrun with ⟨_, hrun⟩ | ⟨_, hrun⟩
    · cases hrun
    · cases hrun
      exact ⟨⟨h.rules, added (.inr ⟨why, hcode⟩)⟩, rfl⟩

/-- The rules that are left, in order, are compiled with the labels of the grammar's. -/
theorem compileRules (h : s.Tracks g o)
    (checked : ∀ r rule, g.live? r = some rule → labelsIn o.reservedWords [] rule.body = [])
    (hrun : EndsIn Working.compileRules s s') : s'.Tracks g o := by
  have each : EndsIn (s.compilation.grammar.live.forM fun x => Working.compileRule x.1 x.2) s s' := hrun
  refine (each.forM (I := fun s₁ => s₁.Tracks g o ∧ s₁.compilation.grammar = s.compilation.grammar) ?_ ⟨h, rfl⟩).1
  rintro ⟨r, rule'⟩ hmem s₁ s₂ ⟨h₁, same₁⟩ hrun
  obtain ⟨rule, redirect, hr, same⟩ := h.rules r rule' (Grammar.mem_live.1 hmem)
  obtain ⟨h₂, same₂⟩ := h₁.compileRule hr (checked r rule hr) same hrun
  exact ⟨h₂, same₂.trans same₁⟩

/-- Every pass keeps track, whether it fails or not. -/
theorem pass (h : s.Tracks g o) (checked : ∀ r rule, g.live? r = some rule → labelsIn o.reservedWords [] rule.body = [])
    (p : Pass) (hrun : EndsIn p.run s s') : s'.Tracks g o := by
  cases p with
  | undefinedRules | duplicateRules | unusedRules | labels | repetitionBounds | leftRecursion | emptyRepetitions
  | picks => exact h.check hrun
  | startRules =>
    rcases hrun with ⟨_, hrun⟩ | ⟨_, hrun⟩
    · cases hrun
      exact ⟨h.rules, h.functions⟩
    · cases hrun
  | proxies =>
    rcases hrun with ⟨_, hrun⟩ | ⟨_, hrun⟩
    · cases hrun
      refine ⟨fun r rule' hr => ?_, h.functions⟩
      obtain ⟨rule₁, f, hr₁, rfl⟩ := Grammar.live?_removeProxies hr
      obtain ⟨rule, redirect, hrule, same⟩ := h.rules r rule₁ hr₁
      exact ⟨rule, f ∘ redirect, hrule, by rw [same, Expr.mapRefs_mapRefs]⟩
    · cases hrun
  | matching =>
    have search : EndsIn Working.findMatches s s' := hrun
    unfold EndsIn Working.findMatches at search
    cases hm : Analysis.Matching.findLive s.compilation.grammar s.compilation.found <;>
      (rw [hm] at search; rcases search with ⟨_, hrun⟩ | ⟨_, hrun⟩ <;> cases hrun; exact ⟨h.rules, h.functions⟩)
  | bytecode => exact h.compileRules checked hrun
  | source =>
    rcases endsIn_bind_iff.1 hrun with ⟨_, hrun⟩ | ⟨c, s₁, hcurrent, hrun⟩
    · cases hrun
    cases hcurrent
    cases hw : Source.write s.compilation.parts <;>
      (rw [hw] at hrun; rcases hrun with ⟨_, hrun⟩ | ⟨_, hrun⟩ <;> cases hrun; exact ⟨h.rules, h.functions⟩)

/-- Where code cannot be made it is for a reference, and never for a label. -/
theorem unresolved_of_pass (h : s.Tracks g o)
    (checked : ∀ r rule, g.live? r = some rule → labelsIn o.reservedWords [] rule.body = []) {p : Pass} {why : CodeError}
    (hrun : p.run s = .error (.noCode why) s') : ∃ name, why = .unresolved name := by
  cases p with
  | matching =>
    have search : Working.findMatches s = .error (.noCode why) s' := hrun
    unfold Working.findMatches at search
    cases hm : Analysis.Matching.findLive s.compilation.grammar s.compilation.found <;> (rw [hm] at search; cases search)
  | source =>
    rcases bind_error_iff.1 hrun with hrun | ⟨c, s₁, hcurrent, hrun⟩
    · cases hrun
    cases hcurrent
    cases hw : Source.write s.compilation.parts <;> (rw [hw] at hrun; cases hrun)
  | bytecode =>
    have each : (s.compilation.grammar.live.forM fun x => Working.compileRule x.1 x.2) s =
        .error (.noCode why) s' := hrun
    obtain ⟨⟨r, rule'⟩, hmem, s₁, -, failed⟩ := forM_error (I := fun _ => True) each (fun _ _ _ _ _ _ => trivial) trivial
    obtain ⟨rule, redirect, hr, same⟩ := h.rules r rule' (Grammar.mem_live.1 hmem)
    have quiet : labelsIn o.reservedWords [] rule'.body = [] := by rw [same, labelsIn_mapRefs, checked r rule hr]
    dsimp only at failed
    unfold Working.compileRule at failed
    dsimp only at failed
    split at failed
    · cases failed
    · rename_i hcode
      cases failed
      exact unresolved_of_assemble quiet hcode
  | _ => cases hrun

end Session.Tracks

/-- Labels are compiled as they were checked. In a grammar about whose labels there is no error, run any passes: then
every expression that code is made of in a rule that is left is at a place of the rule where the check sees the labels
that the code is made with, each bound once, in a slot of its own; repetitions find the labels that they count with, and
labels are only added. The host functions in the pools have the labels at their places for parameters, all different and
none reserved; and no pass fails because a label is not in scope. -/
theorem compiled_labels_are_checked {g : Grammar} {o : CompileOptions}
    (checked : ∀ d ∈ Analysis.labels g o.reservedWords, d.severity ≠ .error) {passes : List Pass} {s : Session}
    (run : EndsIn (passes.forM Pass.run) ⟨.start g o, []⟩ s) :
    (∀ (p : Plan) (r : RuleId) (rule' : Rule) (path : List Nat) (v : Visit), s.compilation.grammar.live? r = some rule' →
      Visits p (.ofRule rule') path v → ∃ rule e scope, g.live? r = some rule ∧
        Scope.follow? [] rule.body path = some (e, scope) ∧ v.expr.info = e.info ∧ v.Sees o.reservedWords scope ∧
        Part (v.code p) (ofRule p rule')) ∧
    (∀ f ∈ s.compilation.constants.functions.toList, g.Explains o.reservedWords f) ∧
    ∀ name s', (passes.forM Pass.run) ⟨.start g o, []⟩ ≠ .error (.noCode (.labelNotInScope name)) s' := by
  have quiet : ∀ r rule, g.live? r = some rule → labelsIn o.reservedWords [] rule.body = [] := fun r rule hr =>
    List.eq_nil_iff_forall_not_mem.2 fun d hd =>
      checked d (List.mem_flatMap.2 ⟨(r, rule), Grammar.mem_live.2 hr, hd⟩) (labelsIn_error hd)
  have step : ∀ p ∈ passes, ∀ s s', s.Tracks g o → EndsIn p.run s s' → s'.Tracks g o := fun p _ s s' h hrun =>
    h.pass quiet p hrun
  have tracks : s.Tracks g o := run.forM step (.start g o)
  refine ⟨fun p r rule' path v hr visits => ?_, tracks.functions, fun name s' failed => ?_⟩
  · obtain ⟨rule, redirect, hrule, same⟩ := tracks.rules r rule' hr
    obtain ⟨e, scope, hfollow, he, sees, -⟩ := sees_of_visits (quiet r rule hrule) same visits
    exact ⟨rule, e, scope, hrule, hfollow, he ▸ Expr.info_mapRefs redirect e, sees, part_ofRule visits⟩
  · obtain ⟨p, -, s₁, tracks₁, failed⟩ := forM_error failed step (.start g o)
    obtain ⟨name', same⟩ := tracks₁.unresolved_of_pass quiet failed
    cases same

open Draft.Expr in
/-- A sequence whose action sees its labels, with a repetition that counts with the first of them, and a sequence in it
whose action sees one label more. -/
def nestedLabels : Draft := ⟨none, none, [.of "Start" ((seq [(exactly "a").called "n",
  (repeated .empty (exactly "b") none (.label ⟨"n", .empty⟩) none).called "items",
  (seq [exactly "c", (exactly "d").called "m"]).thenDo "inner"]).thenDo "outer") none]⟩

theorem compiled_labels_are_checked_nested : ∃ (g : Grammar) (s : Session), nestedLabels.build? = .ok g ∧
    (∀ d ∈ Analysis.labels g CompileOptions.default.reservedWords, d.severity ≠ .error) ∧
    [Pass.labels, .proxies, .bytecode].forM Pass.run ⟨.start g .default, []⟩ = .ok ⟨⟩ s ∧
    s.compilation.constants.functions.toList.map (·.params) = [["n", "items", "m"], ["n", "items"]] ∧
    ∀ f ∈ s.compilation.constants.functions.toList, g.Explains CompileOptions.default.reservedWords f := by
  have quiet : ∀ g, nestedLabels.build? = .ok g →
      ∀ d ∈ Analysis.labels g CompileOptions.default.reservedWords, d.severity ≠ .error := by
    intro g hg
    cases hg
    decide +kernel
  have explained : ∀ g s, nestedLabels.build? = .ok g →
      [Pass.labels, .proxies, .bytecode].forM Pass.run ⟨.start g .default, []⟩ = .ok ⟨⟩ s →
      ∀ f ∈ s.compilation.constants.functions.toList, g.Explains CompileOptions.default.reservedWords f :=
    fun g s hg run => (compiled_labels_are_checked (quiet g hg) (.inl ⟨⟨⟩, run⟩)).2.1
  exact ⟨_, _, rfl, quiet _ rfl, rfl, by decide +kernel, explained _ _ rfl rfl⟩

end PegCompiler
