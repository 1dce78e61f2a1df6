/-
What host code sees. Where an action or a predicate is called there is a part of the text for it to look at: what the
expression of the action began with, or nothing at the place of the predicate. The code that bounds a repetition is
called without saving a place, so that what it sees was left there by others, and may begin after it ends.
-/
import PegCompiler.Proofs.Conduct
import PegCompiler.Proofs.Machine.Rebinding
import PegCompiler.Proofs.Terminating

namespace PegCompiler

open Machine

/-- Where an item stands in two lists one after the other. -/
theorem append_eq_append_cons {α : Type} {a b before after : List α} {x : α} (h : a ++ b = before ++ x :: after) :
    (∃ tail, a = before ++ x :: tail) ∨ ∃ before', before = a ++ before' ∧ b = before' ++ x :: after := by
  rcases List.append_eq_append_iff.1 h with ⟨before', rfl, hb⟩ | ⟨tail, rfl, hb⟩
  · exact .inr ⟨before', rfl, hb⟩
  · cases tail with
    | nil => exact .inr ⟨[], by simp, hb.symm⟩
    | cons y tail =>
      cases hb
      exact .inl ⟨tail, rfl⟩

/-- The text that host code can ask for is the part of a text from the saved place to the current one. -/
def HostView.Covers (view : HostView) (text : String) : Prop :=
  ∃ before here after : List Char, text.toList = before ++ here ++ after ∧ Input.byteLength before = view.saved ∧
    Input.byteLength (before ++ here) = view.pos ∧ view.text = String.ofList here

namespace Compilation

/-- What a call of host code sees, after other calls. -/
structure Sees (c : Compilation) (bs : Bindings) (text : String) (before : List (HostCall HostFunction))
    (call : HostCall HostFunction) : Prop where
  pos : Input.Boundary text call.view.pos
  saved : Input.Boundary text call.view.saved
  covers : call.function.kind ≠ .boundary → call.view.saved ≤ call.view.pos ∧ call.view.Covers text
  here : call.function.kind = .predicate → call.view.saved = call.view.pos
  /-- An action is called at the end of a run of its expression, for what that run began with. -/
  performed : call.function.kind = .action → ∃ r rule e inner, c.grammar.live? r = some rule ∧
    e ∈ rule.body.preorder ∧ inner <:+ before ∧ c.Performs bs e inner call

/-- All calls of a run see ranges of the text. -/
def SeesRanges (c : Compilation) (bs : Bindings) (text : String) (calls : List (HostCall HostFunction)) : Prop :=
  ∀ before call after, calls = before ++ call :: after → c.Sees bs text before call

variable {c : Compilation} {bs : Bindings} {text : String} {P : Value → Prop} {calls : List (HostCall HostFunction)}
  {call : HostCall HostFunction}

theorem sees_of_ranged (h : Ranged text P call) {before : List (HostCall HostFunction)}
    (hperformed : call.function.kind = .action → ∃ r rule e inner, c.grammar.live? r = some rule ∧
      e ∈ rule.body.preorder ∧ inner <:+ before ∧ c.Performs bs e inner call) : c.Sees bs text before call := by
  refine ⟨h.pos, h.saved, fun hkind => ⟨h.ordered hkind, ?_⟩, h.here, hperformed⟩
  obtain ⟨before, here, after, htext, hsaved, hpos, hslice⟩ := Input.slice_eq h.saved h.pos (h.ordered hkind)
  refine ⟨before, here, after, htext, hsaved, hpos, ?_⟩
  unfold HostView.text
  rw [h.input]
  exact hslice

/-- With more calls before it, a call sees the same. -/
theorem Sees.prepend {before : List (HostCall HostFunction)} (h : c.Sees bs text before call)
    (earlier : List (HostCall HostFunction)) : c.Sees bs text (earlier ++ before) call := by
  refine ⟨h.pos, h.saved, h.covers, h.here, fun hkind => ?_⟩
  obtain ⟨r, rule, e, inner, hr, he, hinner, performs⟩ := h.performed hkind
  exact ⟨r, rule, e, inner, hr, he, hinner.trans (List.suffix_append ..), performs⟩

theorem seesRanges_append {a b : List (HostCall HostFunction)} (ha : c.SeesRanges bs text a)
    (hb : c.SeesRanges bs text b) : c.SeesRanges bs text (a ++ b) := by
  intro before call after e
  rcases append_eq_append_cons e with ⟨tail, rfl⟩ | ⟨before, rfl, rfl⟩
  · exact ha before call tail rfl
  · exact (hb before call after rfl).prepend a

/-- One more call after others. -/
theorem seesRanges_concat (h : c.SeesRanges bs text calls) (hcall : c.Sees bs text calls call) :
    c.SeesRanges bs text (calls ++ [call]) := by
  intro before call' after e
  rcases append_eq_append_cons e with ⟨tail, rfl⟩ | ⟨before, rfl, last⟩
  · exact h before call' tail rfl
  · cases before with
    | nil =>
      cases last
      rw [List.append_nil]
      exact hcall
    | cons x before => simp at last

/-- Runs of rules show host code ranges of the text. -/
theorem seesRanges_ruleRuns (hc : Analysis.Matching.Complete c.grammar c.found) (hbs : bs.NeverFail) {r : RuleId}
    {source : Option String} {tracing : Bool} {v : Value} {st : ParseState}
    (h : RuleRuns (c.inlineProgram bs) r (.start text source tracing) calls v st) : c.SeesRanges bs text calls := by
  let P (v : Value) : Prop := v.isFailed = false
  have grounds : Grounds text P (c.Orderly text P) (c.SeesRanges bs text) :=
    ⟨steady_orderly c text P, Value.common_matched, by simp [SeesRanges], seesRanges_append⟩
  have keeps : (c.setting bs).Keeps P := fun f kind host hf view args _ =>
    c.setting_neverFails hbs f kind host hf view args
  obtain ⟨n, h⟩ := h
  refine (proper_ruleExec hc hbs grounds keeps (fun hranged hkind => ?_) (fun hr he hcs hranged performs => ?_) n r
    _ (placed_start c text P source tracing) calls v st h).1
  · exact seesRanges_concat grounds.nil (sees_of_ranged hranged fun e => absurd e hkind)
  · exact seesRanges_concat hcs (sees_of_ranged hranged fun _ => ⟨_, _, _, _, hr, he, List.suffix_refl _, performs⟩)

end Compilation

/-- Host code sees ranges of the text: in the run of a parse, every call of an action or a predicate has a part of the
text, the one that its expression began with or an empty one. The code of bounds sees places of the text only. -/
theorem host_code_sees_ranges {d : Draft} {g : Grammar} (hd : d.build? = .ok g) {o : CompileOptions}
    {s₀ : Session} (hchecks : Session.advance ⟨.start g o, []⟩ .check = .ok s₀)
    (haccepts : Diagnostics.check s₀.diagnostics = .ok ⟨⟩) :
    ∃ c : Compilation, Parser.compiled Stage.transform.passes g o = .ok (c.parserWith []) ∧
      c.grammar = (g.removeProxies (Analysis.startRules g o.allowedStartRules).1).1 ∧
      ∀ bs : Bindings, bs.NeverFail → ∀ (text : String) (po : ParseOptions) (r : RuleId),
        (c.parserWith bs).unbound? = none → (c.parserWith bs).entry po = .ok r →
        ∃ (calls : List (HostCall HostFunction)) (v : Value) (st : ParseState),
          RuleRuns (c.parserWith bs).program r (.start text po.source po.tracing) (calls.map (HostCall.link c.constants))
            v st ∧ c.SeesRanges bs text calls := by
  obtain ⟨rfl, accepted, built, resolved⟩ := Session.accepted_of_checks hd hchecks haccepts
  obtain ⟨c, hc, ready, hgrammar⟩ := accepted.compiled_bypassed built resolved
  refine ⟨c, hc, hgrammar, fun bs hnever text po r hbound hentry => ?_⟩
  obtain ⟨calls, v, st, hlinked, hruns⟩ := ready.runs accepted built resolved bs text po hbound hentry
  exact ⟨calls, v, st, hlinked, Compilation.seesRanges_ruleRuns ready.complete hnever hruns⟩

open Draft.Expr in
/-- `Start = "a" &{ ok } "c" / .|{ off }|`, where the code after the slash runs at the start again. -/
def leftBehind : Draft := ⟨none, none, [
  .of "Start" (firstOf [
    seq [exactly "a", .semanticAnd .empty ⟨"ok", .empty⟩, exactly "c"],
    .repeated .empty (.any .empty) none (.computed ⟨"off", .empty⟩) none]) none]⟩

/-- Functions for its code. -/
def leftBehindWith (off : HostFn) : Bindings := [("ok", fun _ _ => .bool true), ("off", off)]

theorem neverFail_leftBehindWith {off : HostFn} (h : ∀ view args, (off view args).isFailed = false) :
    (leftBehindWith off).NeverFail :=
  Bindings.neverFail_cons (fun _ _ => rfl) (Bindings.neverFail_cons h Bindings.neverFail_nil)

theorem host_code_sees_ranges_leftBehind : ∃ (g : Grammar) (s₀ : Session) (c : Compilation), leftBehind.build? = .ok g ∧
    Session.advance ⟨.start g .default, []⟩ .check = .ok s₀ ∧ Diagnostics.check s₀.diagnostics = .ok ⟨⟩ ∧
    Parser.compiled Stage.transform.passes g .default = .ok (c.parserWith []) ∧
    (leftBehindWith fun view _ => .int view.saved).NeverFail ∧
    ∀ text, ∃ (calls : List (HostCall HostFunction)) (v : Value) (st : ParseState),
      RuleRuns (c.parserWith (leftBehindWith fun view _ => .int view.saved)).program 0 (.start text none false)
        (calls.map (HostCall.link c.constants)) v st ∧
      c.SeesRanges (leftBehindWith fun view _ => .int view.saved) text calls := by
  obtain ⟨g, hg⟩ : ∃ g, leftBehind.build? = .ok g := ⟨_, rfl⟩
  have accepts : Diagnostics.check (Session.checked g .default).diagnostics = .ok ⟨⟩ := by cases hg; rfl
  obtain ⟨c, hc, -, sees⟩ := host_code_sees_ranges hg (Session.advance_check g _) accepts
  have never : (leftBehindWith fun view _ => .int view.saved).NeverFail := neverFail_leftBehindWith fun _ _ => rfl
  have known : (Parser.compiled Stage.transform.passes g .default).map (fun p =>
      (Parser.unbound? { p with bindings := leftBehindWith fun view _ => .int view.saved }, p.startRules)) =
      .ok (none, [0]) := by
    cases hg
    decide +kernel
  rw [hc] at known
  obtain ⟨bound, starts⟩ := Prod.mk.inj (Except.ok.inj known)
  have entry : (c.parserWith (leftBehindWith fun view _ => .int view.saved)).entry default = .ok 0 := by
    show Except.ok (c.startRules.headD 0) = _
    rw [show c.startRules = [0] from starts]
    rfl
  exact ⟨g, _, c, hg, Session.advance_check g _, accepts, hc, never, fun text => sees _ never text default 0 bound entry⟩

/-- Whether the text that host code can ask for would end before it begins. -/
def backwards (view : HostView) : Value := .int (if view.pos < view.saved then 1 else 0)

/-- How many items a parser finds, if it needs no more fuel than this. -/
def Parser.itemsWithin (p : Parser) (fuel : Nat) (text : String) : Option Nat :=
  match (p.runWithin fuel text default).1 with
  | .ok v => some v.size
  | .error _ => none

/-- Functions for the bound give the same where they are the same. -/
theorem givesSame_leftBehindWith {off off' : HostFn} {call : HostCall HostFunction}
    (h : off' call.view call.args = off call.view call.args) :
    GivesSame (ν := Inline) (leftBehindWith off).function (leftBehindWith off').function call := by
  intro kind host hf
  unfold Bindings.function Bindings.find? at hf ⊢
  simp only [leftBehindWith, List.lookup_cons, List.lookup_nil] at hf ⊢
  cases hok : Bindings.key call.function.code == "ok" <;> simp only [hok] at hf ⊢
  · cases hoff : Bindings.key call.function.code == "off" <;> simp only [hoff] at hf ⊢
    · cases hf
    · cases hf
      exact ⟨_, rfl, h⟩
  · exact ⟨host, hf, rfl⟩

/-- A parser that finds items has run its start rule. -/
theorem Compilation.Coded.runs_of_items {c : Compilation} (h : c.Coded) {bs : Bindings} {fuel n : Nat} {text : String}
    {r : RuleId} (hbound : (c.parserWith bs).unbound? = none) (hentry : (c.parserWith bs).entry default = .ok r)
    (hitems : (c.parserWith bs).itemsWithin fuel text = some n) : ∃ calls v st, v.size = n ∧
      RuleRuns (c.inlineProgram bs) r (.start text none false) calls v st := by
  unfold Parser.itemsWithin at hitems
  rcases hrun : (c.parserWith bs).runWithin fuel text default with ⟨_ | v, st⟩ <;>
    simp only [hrun, Option.some.injEq, reduceCtorEq] at hitems
  obtain ⟨cs, hx⟩ := rule_ok_iff.1 ⟨fuel, (Parser.runWithin_ok_iff hbound hentry).1 hrun⟩
  obtain ⟨calls, rfl, inline⟩ := (h.ruleRuns ..).1 hx
  exact ⟨calls, v, st, hitems, inline⟩

/-- A rule runs as before where the calls that it makes give the same from other functions. -/
theorem Compilation.ruleRuns_rebound {c : Compilation} {bs bs' : Bindings} {r : RuleId} {st st' : ParseState}
    {calls : List (HostCall HostFunction)} {v : Value} (h : RuleRuns (c.inlineProgram bs) r st calls v st')
    (same : ∀ call ∈ calls, GivesSame (ν := Inline) bs.function bs'.function call) :
    RuleRuns (c.inlineProgram bs') r st calls v st' :=
  h.rebind same

/-- But code of bounds sees no range: on the text `ab`, the code after the slash is called at the start, and is shown
the place after `a` as the one where the text for it begins. -/
theorem bounds_see_no_range : ∃ (g : Grammar) (s₀ : Session) (c : Compilation) (bs : Bindings)
    (calls : List (HostCall HostFunction)) (v : Value) (st : ParseState), leftBehind.build? = .ok g ∧
    Session.advance ⟨.start g .default, []⟩ .check = .ok s₀ ∧ Diagnostics.check s₀.diagnostics = .ok ⟨⟩ ∧
    Parser.compiled Stage.transform.passes g .default = .ok (c.parserWith []) ∧ bs.NeverFail ∧
    (c.parserWith bs).unbound? = none ∧
    RuleRuns (c.parserWith bs).program 0 (.start "ab" none false) (calls.map (HostCall.link c.constants)) v st ∧
    ∃ call ∈ calls, call.function.kind = .boundary ∧ call.view.pos < call.view.saved := by
  obtain ⟨g, hg⟩ : ∃ g, leftBehind.build? = .ok g := ⟨_, rfl⟩
  have accepts : Diagnostics.check (Session.checked g .default).diagnostics = .ok ⟨⟩ := by cases hg; rfl
  have accepted : Session.Accepted g .default := accepts
  have built := Draft.built hg
  obtain ⟨c, hc, ready⟩ := accepted.compiled built (built.resolved accepted.excludes.references)
  have known : (Parser.compiled Stage.transform.passes g .default).map (fun p =>
      ((Parser.unbound? { p with bindings := leftBehindWith fun view _ => backwards view },
        Parser.unbound? { p with bindings := leftBehindWith fun _ _ => .int 0 }, p.startRules),
        Parser.itemsWithin { p with bindings := leftBehindWith fun view _ => backwards view } 30 "ab",
        Parser.itemsWithin { p with bindings := leftBehindWith fun _ _ => .int 0 } 30 "ab")) =
      .ok ((none, none, [0]), some 1, some 0) := by
    cases hg
    decide +kernel
  rw [hc] at known
  obtain ⟨first, items⟩ := Prod.mk.inj (Except.ok.inj known)
  obtain ⟨bound, rest⟩ := Prod.mk.inj first
  obtain ⟨bound', starts⟩ := Prod.mk.inj rest
  obtain ⟨one, zero⟩ := Prod.mk.inj items
  have entry (bs : Bindings) : (c.parserWith bs).entry default = .ok 0 := by
    show Except.ok (c.startRules.headD 0) = _
    rw [show c.startRules = [0] from starts]
    rfl
  obtain ⟨calls, v, st, hv, hx⟩ := ready.coded.runs_of_items bound (entry _) one
  obtain ⟨calls', v', st', hv', hx'⟩ := ready.coded.runs_of_items bound' (entry _) zero
  have never : (leftBehindWith fun view _ => backwards view).NeverFail := neverFail_leftBehindWith fun _ _ => rfl
  refine ⟨g, _, c, _, calls, v, st, hg, Session.advance_check g _, accepts, hc, never, bound,
    (ready.coded.ruleRuns ..).2 ⟨calls, rfl, hx⟩, ?_⟩
  -- if no call saw it, the bound would be zero as with the other function, and there would be no item
  by_contra hnone
  have ordered : ∀ call ∈ calls, ¬ call.view.pos < call.view.saved := by
    intro call hcall hlt
    by_cases hkind : call.function.kind = .boundary
    · exact hnone ⟨call, hcall, hkind, hlt⟩
    · obtain ⟨before, after, hsplit⟩ := List.append_of_mem hcall
      have sees := Compilation.seesRanges_ruleRuns ready.complete never hx before call after hsplit
      have := (sees.covers hkind).1
      omega
  have same : ∀ call ∈ calls, GivesSame (ν := Inline) (leftBehindWith fun view _ => backwards view).function
      (leftBehindWith fun _ _ => .int 0).function call := by
    intro call hcall
    apply givesSame_leftBehindWith
    simp [backwards, ordered call hcall]
  obtain ⟨-, rfl, -⟩ := ruleRuns_definite 0 (Compilation.ruleRuns_rebound hx same) hx'
  omega

end PegCompiler
