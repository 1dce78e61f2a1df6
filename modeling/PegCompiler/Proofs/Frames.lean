/-
What the code of an expression leaves to the code around it. On any stack that its labels describe, in any state that a
parse comes to, it ends with one value more on the stack, as silent as before and not before its start; if the value is
a failure the position is where it was. No failure is ever inside a value or in the hands of host code, if host code
makes none of values without failures.

That host code may do as it likes with failures is what the proofs have to get around. They are made for functions that
are guarded against such calls; as the runs make none, they are runs with the functions themselves.
-/
import PegCompiler.Proofs.Conduct
import PegCompiler.Proofs.Machine.Rebinding
import PegCompiler.Proofs.Machine.Tidy
import PegCompiler.Proofs.Terminating

namespace PegCompiler

open Machine Analysis

/-! ## Functions that make no failures of their own -/

namespace Bindings

/-- Called with values in which there is no failure, the functions give such values. -/
def KeepClean (bs : Bindings) : Prop :=
  ∀ code f, bs.find? code = some f → ∀ view args, (∀ v ∈ args, v.Clean) → (f view args).Clean

open Classical in
/-- The function where it is called with values in which there is no failure, and null otherwise. -/
noncomputable def guard (f : HostFn) : HostFn := fun view args => if ∀ v ∈ args, v.Clean then f view args else .null

noncomputable def guarded (bs : Bindings) : Bindings := bs.map fun b => (b.1, guard b.2)

variable {bs : Bindings} {codes : List HostCode}

theorem find?_guarded (bs : Bindings) (code : String) : bs.guarded.find? code = (bs.find? code).map guard := by
  unfold find? guarded
  induction bs with
  | nil => rfl
  | cons b bs ih =>
    rw [List.map_cons, List.lookup_cons, List.lookup_cons, ih]
    cases key code == b.1 <;> rfl

theorem KeepClean.guarded_clean (h : bs.KeepClean) {code : String} {f : HostFn} (hf : bs.guarded.find? code = some f)
    (view : HostView) (args : List Value) : (f view args).Clean := by
  rw [find?_guarded] at hf
  obtain ⟨f, hfind, rfl⟩ := Option.map_eq_some_iff.1 hf
  unfold guard
  split
  · rename_i hargs
    exact h code f hfind view args hargs
  · exact .null

theorem KeepClean.neverFail (h : bs.KeepClean) : bs.guarded.NeverFail := fun _ _ hf view args =>
  Value.common_clean.matched (h.guarded_clean hf view args)

theorem Bind.guarded (h : bs.Bind codes) : bs.guarded.Bind codes := by
  intro code hcode
  obtain ⟨f, hf⟩ := h code hcode
  rw [find?_guarded, hf]
  exact ⟨_, rfl⟩

/-- Called like that the guarded functions are the functions themselves. -/
theorem givesSame_guarded {call : HostCall HostFunction} (hargs : ∀ v ∈ call.args, v.Clean) :
    GivesSame (ν := Inline) bs.guarded.function bs.function call := by
  intro kind host hf
  unfold Bindings.function at hf ⊢
  rw [find?_guarded] at hf
  cases hfind : bs.find? call.function.code with
  | none =>
    rw [hfind] at hf
    cases hf
  | some f =>
    rw [hfind] at hf
    cases hf
    exact ⟨f, rfl, (if_pos hargs).symm⟩

end Bindings

namespace Compilation

variable {c : Compilation} {bs : Bindings} {text : String} {st st' : ParseState} {cs : List (HostCall HostFunction)}
  {v : Value}

theorem keeps_guarded (h : bs.KeepClean) : (c.setting bs.guarded).Keeps Value.Clean := by
  intro f kind host hf view args _
  have hf : bs.guarded.function f = .ok (kind, host) := hf
  unfold Bindings.function at hf
  cases hfind : bs.guarded.find? f.code with
  | none =>
    rw [hfind] at hf
    cases hf
  | some f' =>
    rw [hfind] at hf
    cases hf
    exact h.guarded_clean hfind view args

/-! ## Runs in a parse -/

/-- A state of a parse of a text, with nothing remembered but what rules did. -/
structure Underway (c : Compilation) (text : String) (st : ParseState) : Prop where
  orderly : c.Orderly text Value.Clean st
  sane : c.Sane text st

theorem steady_underway (c : Compilation) (text : String) : Steady text (c.Underway text) where
  input := fun _ h => h.orderly.input
  keeps := fun _ _ hi hc h =>
    ⟨(steady_orderly c text _).keeps _ _ hi hc h.orderly, (steady_sane c text).keeps _ _ hi hc h.sane⟩

theorem underway_start (c : Compilation) (text : String) (source : Option String) (tracing : Bool) :
    Placed text (c.Underway text) (.start text source tracing) :=
  ⟨⟨orderly_of_empty rfl rfl, sane_of_empty rfl rfl⟩, Input.boundary_zero text, Input.boundary_zero text⟩

/-- Host code is called with values without failures only. -/
def CallsClean (text : String) (cs : List (HostCall HostFunction)) : Prop := ∀ call ∈ cs, Ranged text Value.Clean call

theorem grounds_clean (c : Compilation) (text : String) :
    Grounds text Value.Clean (c.Orderly text Value.Clean) (CallsClean text) where
  steady := steady_orderly c text _
  common := Value.common_clean
  nil := by simp [CallsClean]
  append := fun ha hb => List.forall_mem_append.2 ⟨ha, hb⟩

/-- What there is to every run of a parse. -/
structure Runs (c : Compilation) (text : String) (A : Act HostFunction) (st : ParseState) : Prop where
  halts : Halts A st
  ensures : Ensures (CallsClean text) A st (Reaches text Value.Clean (c.Underway text) st.pos st.silent)

/-- What the compilation of an accepted grammar provides, with functions for its host code. -/
structure Provides (c : Compilation) (bs : Bindings) : Prop where
  coded : c.Coded
  complete : Matching.Complete c.grammar c.found
  resolved : c.grammar.Resolved
  progressive : c.grammar.Progressive
  labels : ∀ r rule, c.grammar.live? r = some rule → labelsIn c.options.reservedWords [] rule.body = []
  bind : bs.Bind c.grammar.codes
  clean : bs.KeepClean

/-- A literal is sure to match only if it is empty. -/
theorem unsure (hc : Matching.Complete c.grammar c.found) {r : RuleId} {rule : Rule}
    (hr : c.grammar.live? r = some rule) {e : Expr} (he : e ∈ rule.body.preorder) : Code.Unsure c.plan e := by
  intro i value hl hvalue
  obtain ⟨ρ, -, hjudged, -⟩ := settled hc hr
  show c.found.ofExpr (.literal i value false) ≠ .always
  rw [hjudged _ (Expr.mem_preorder_trans he hl), Matching.judge, if_neg hvalue]
  decide

/-- The rules that run are tidy, also if the pools go on to grow. -/
theorem Coded.tidy_rules (h : c.Coded) (hc : Matching.Complete c.grammar c.found) {k : Constants}
    (hk : c.constants.Grows k) (r : Nat) (rule : RuleCode Raw)
    (hr : (Parser.program { c.parserWith bs with constants := k }).rules.getD r none = some rule) :
    Code.Tidy 0 rule.code := by
  have links : Links k (Parser.program { c.parserWith bs with constants := k }) (c.inlineProgram bs) := h.links hk
  rw [links.rules, show (c.inlineProgram bs).rules.getD r none = _ from getD_inlineRules c r] at hr
  obtain ⟨code, hcode, rfl⟩ := Option.map_eq_some_iff.1 hr
  obtain ⟨live, hlive, rfl⟩ := Option.map_eq_some_iff.1 hcode
  exact (Code.tidy_ofRule (unsure hc hlive (Expr.mem_preorder_self _))).raw_link k

namespace Provides

variable (h : c.Provides bs)

include h

theorem bound {r : RuleId} {rule : Rule} {e : Expr} {code : HostCode} (kind : FunctionKind) (names : List String)
    (hr : c.grammar.live? r = some rule) (he : e ∈ rule.body.preorder) (hcode : code ∈ e.codes) :
    ∃ f, (c.setting bs.guarded).function ⟨kind, names, code.val, code.span⟩ = .ok f :=
  function_of_bind h.bind.guarded hr he hcode kind names

/-- With the functions as they are, rules that are there run to their end. -/
theorem runs_rule {r : RuleId} (hr : ∃ rule, c.grammar.live? r = some rule) (hst : Placed text (c.Underway text) st) :
    c.Runs text (RuleRuns (c.inlineProgram bs) r) st := by
  have never := h.clean.neverFail
  have orderly : Placed text (c.Orderly text Value.Clean) st := ⟨hst.kept.orderly, hst.pos, hst.saved⟩
  obtain ⟨cs, v, st', hx⟩ := halts_ruleRuns h.complete bs.guarded h.progressive h.labels
    (fun r rule e code kind names hr he hcode => h.bound kind names hr he hcode) st hst.kept.sane r hr
  obtain ⟨calls, reaches⟩ := proper_ruleRuns h.complete never (grounds_clean c text) (keeps_guarded h.clean)
    (fun hranged _ => by simpa [CallsClean] using hranged)
    (fun _ _ hcs hranged _ => List.forall_mem_append.2 ⟨hcs, by simpa using hranged⟩) r st orderly cs v st' hx
  have sane := (advances_rules h.complete r st hst.kept.sane cs v st' hx).1
  -- no call needs the guard, so this is the run without it
  have run : RuleRuns (c.inlineProgram bs) r st cs v st' :=
    hx.rebind fun call hcall => Bindings.givesSame_guarded (calls call hcall).args
  refine ⟨⟨cs, v, st', run⟩, fun cs' v' st'' hx' => ?_⟩
  obtain ⟨rfl, rfl, rfl⟩ := ruleRuns_definite r run hx'
  exact ⟨calls, ⟨⟨reaches.placed.kept, sane⟩, reaches.placed.pos, reaches.placed.saved⟩, reaches.silent, reaches.forward,
    reaches.value⟩

/-- So do their expressions, where their labels are in scope and have values. -/
theorem runs_expr {r : RuleId} {rule : Rule} (hr : c.grammar.live? r = some rule) {e : Expr}
    (he : e ∈ rule.body.preorder) {scope : Scope} (hlabels : labelsIn c.options.reservedWords scope e = [])
    {env : Env} {ls : Labels} {s : Stack} (hscope : scope.map (·.1) = env.map (·.1)) (henv : env.Holds ls s)
    (hls : ∀ v ∈ ls.values, v.Clean) (hst : Placed text (c.Underway text) st) :
    c.Runs text ((c.setting bs).meaning (RuleRuns (c.inlineProgram bs)) e ls) st := by
  have never := h.clean.neverFail
  have orderly : Placed text (c.Orderly text Value.Clean) st := ⟨hst.kept.orderly, hst.pos, hst.saved⟩
  obtain ⟨ρ, hm, hfollows, -⟩ := moving h.complete bs.guarded (advances_rules (s := text) h.complete) hr
  have known : Runnable (c.setting bs.guarded) c.grammar (fun t => ∃ rule, c.grammar.live? t = some rule) ρ e := by
    refine ⟨fun e' he' => ⟨fun i name target heq => ?_, fun code hcode kind names => ?_, ?_⟩, fun e' he' => ?_⟩
    · obtain ⟨t, rule', rfl, ht⟩ := h.progressive.live r rule i name target hr (heq ▸ Expr.mem_preorder_trans he he')
      exact ⟨t, rfl, rule', ht⟩
    · exact h.bound kind names hr (Expr.mem_preorder_trans he he') hcode
    · exact h.progressive.bounded r rule e' hr (Expr.mem_preorder_trans he he')
    · exact hfollows e' (Expr.mem_preorder_trans he he')
  have rules (t : RuleId) (ht : ∃ rule, c.grammar.live? t = some rule) (st : ParseState) (hst : c.Sane text st) :
      Halts (RuleRuns (c.inlineProgram bs.guarded) t) st :=
    halts_ruleRuns h.complete bs.guarded h.progressive h.labels
      (fun r rule e code kind names hr he hcode => h.bound kind names hr he hcode) st hst t ht
  have names : scope.map (·.1) = ls.map (·.1) := hscope.trans henv.params
  -- with guarded functions, what the expression means comes to an end
  obtain ⟨cs, v, st', hx⟩ := completes_expr hm e known scope hlabels ls names st hst.kept.sane
    ⟨fun t _ ht st hst _ => rules t ht st hst, fun t ht st hst _ _ => rules t ht st hst⟩
  obtain ⟨calls, reaches⟩ := proper_meaning h.complete never (grounds_clean c text) (keeps_guarded h.clean)
    (fun hranged _ => by simpa [CallsClean] using hranged)
    (fun _ _ hcs hranged _ => List.forall_mem_append.2 ⟨hcs, by simpa using hranged⟩) hr he hls st orderly cs v st' hx
  have sane := (hm.advances (fun e' he' => hfollows e' (Expr.mem_preorder_trans he he')) ls st hst.kept.sane cs v st' hx).1
  -- no call needs the guard, so this is the run without it
  have run : Exec (c.inlineProgram bs) (RuleRuns (c.inlineProgram bs)) (Code.ofExpr c.plan e env s.length) s st cs
      (.value v :: s) st' :=
    ((exec_ofExpr_iff henv).2 hx).rebind (fun _ _ _ _ _ hr hcs => hr.rebind hcs) fun call hcall =>
      Bindings.givesSame_guarded (calls call hcall).args
  refine ⟨⟨cs, v, st', (exec_ofExpr_iff henv).1 run⟩, fun cs' v' st'' hx' => ?_⟩
  obtain ⟨rfl, same, rfl⟩ := exec_definite (fun r => ruleRuns_definite r) run ((exec_ofExpr_iff henv).2 hx')
  cases same
  exact ⟨calls, ⟨⟨reaches.placed.kept, sane⟩, reaches.placed.pos, reaches.placed.saved⟩, reaches.silent, reaches.forward,
    reaches.value⟩

/-! ## The machine -/

/-- A rule that runs to its end in a parse is still in it then. -/
theorem ends_rule {k : Constants} (hk : c.constants.Grows k) {fuel r : Nat} (hst : Placed text (c.Underway text) st)
    (hx : Machine.rule (Parser.program { c.parserWith bs with constants := k }) fuel r st = .ok v st') :
    Placed text (c.Underway text) st' := by
  have links : Links k (Parser.program { c.parserWith bs with constants := k }) (c.inlineProgram bs) := h.coded.links hk
  obtain ⟨cs, hlinked⟩ := rule_ok_iff.1 ⟨fuel, hx⟩
  obtain ⟨calls, -, hrule⟩ := (ruleRuns_link_iff links ..).1 hlinked
  obtain ⟨rule, hr, -⟩ := ruleRuns_iff_meaning.1 hrule
  exact ((h.runs_rule ⟨rule, hr⟩ hst).ensures calls v st' hrule).2.placed

/-- All that a parse visits is at boundaries of the text. -/
theorem keeping {k : Constants} (hk : c.constants.Grows k) {r : Nat} {x : Point Raw}
    (hst : Placed text (c.Underway text) st)
    (hx : Visits (Parser.program { c.parserWith bs with constants := k }) r st x) :
    Keeping (Parser.program { c.parserWith bs with constants := k }) text (c.Underway text) x := by
  obtain ⟨y, henters, hcomes⟩ := hx
  have start := henters.keeping (steady_underway c text) (h.coded.tidy_rules h.complete hk) hst
  induction hcomes with
  | refl => exact start
  | tail _ hnext ih =>
    exact ih.next (steady_underway c text) (h.coded.tidy_rules h.complete hk) (fun _ _ _ _ _ hst hx => h.ends_rule hk hst hx) hnext

end Provides

/-- What becomes of a stack and a state of the parse of a text where the code of an expression is run on them. -/
structure Frames (p : Program Raw) (text : String) (code : Code Raw) (stack : Stack) (st : ParseState) : Prop where
  /-- The run comes to an end, -/
  ends : ∃ fuel stack' st', block p fuel code stack st = .ok stack' st'
  /-- and to no fault; -/
  faults : ∀ fuel why st', block p fuel code stack st = .error why st' → why = .outOfFuel
  /-- then there is a value more on the stack: one of a match, or a failure at the start. -/
  leaves : ∀ fuel stack' st', block p fuel code stack st = .ok stack' st' → ∃ v, stack' = .value v :: stack ∧
    st'.silent = st.silent ∧ Input.Boundary text st'.pos ∧ st.pos ≤ st'.pos ∧ st'.pos ≤ (Input.ofString text).size ∧
    (v.Clean ∨ v = .failed ∧ st'.pos = st.pos)
  /-- On the way no silence is ended that was not begun, -/
  silences : ∀ r y rest, Comes p ⟨r, code, stack, st⟩ y → y.code = .unsilence :: rest → 0 < y.state.silent
  /-- and host code gets no failures. -/
  calls : ∀ cs stack' st', Exec p (RuleRuns p) code stack st cs stack' st' → ∀ call ∈ cs, ∀ v ∈ call.args, v.Clean

theorem Provides.frames (h : c.Provides bs) {r : RuleId} {rule : Rule} (hr : c.grammar.live? r = some rule) {e : Expr}
    (he : e ∈ rule.body.preorder) {scope : Scope} (hlabels : labelsIn c.options.reservedWords scope e = [])
    {env : Env} {ls : Labels} {stack : Stack} (hscope : scope.map (·.1) = env.map (·.1)) (henv : env.Holds ls stack)
    (hls : ∀ v ∈ ls.values, v.Clean) (hst : Placed text (c.Underway text) st) :
    ∃ code k, c.exprCode e env stack.length = .ok (code, k) ∧
      Frames (Parser.program { c.parserWith bs with constants := k }) text code stack st := by
  obtain ⟨pooled, k, hassembled⟩ :=
    Code.assemble_ofExpr (p := c.plan) hscope henv.lt (h.resolved.known hr he) hlabels c.constants
  have hcode := exprCode_of_assemble hassembled
  obtain ⟨hk, -, linked⟩ := exprCode_ok hcode
  refine ⟨_, k, hcode, ?_⟩
  generalize hp : Parser.program { c.parserWith bs with constants := k } = p
  have runs := h.runs_expr hr he hlabels hscope henv hls hst
  have exec {cs : List (HostCall Nat)} {s : Stack} {st' : ParseState} :
      Exec p (RuleRuns p) (Code.decode pooled.encode) stack st cs s st' ↔ ∃ cs' v, cs = cs'.map (HostCall.link k) ∧
        s = .value v :: stack ∧ (c.setting bs).meaning (RuleRuns (c.inlineProgram bs)) e ls st cs' v st' := by
    subst hp
    exact h.coded.exec_exprCode hcode henv
  -- there is a run, so fuel is all that another one can lack
  obtain ⟨cs, v, st', hx⟩ := runs.halts
  obtain ⟨fuel, hrun⟩ := block_ok_iff.2 ⟨_, exec.2 ⟨cs, v, rfl, rfl, hx⟩⟩
  refine ⟨⟨fuel, _, _, hrun⟩, fun fuel' why st'' hfault => block_fault hrun hfault, ?_, ?_, ?_⟩
  · intro fuel' stack' st'' hok
    obtain ⟨cs', hx'⟩ := block_ok_iff.1 ⟨fuel', hok⟩
    obtain ⟨calls, w, -, rfl, hw⟩ := exec.1 hx'
    obtain ⟨-, reaches⟩ := runs.ensures calls w st'' hw
    exact ⟨w, rfl, reaches.silent, reaches.placed.pos, reaches.forward, reaches.placed.pos.le_size, reaches.value⟩
  · intro r' y rest hy hrest
    have tidy : Code.Tidy 0 (Code.decode pooled.encode) := by
      rw [linked]
      exact (Code.tidy_ofExpr (unsure h.complete hr he) env stack.length).raw_link k
    have start : Poised p ⟨r', Code.decode pooled.encode, stack, st⟩ := .tidy tidy (Nat.zero_le _)
    have rules : ∀ r rule, p.rules.getD r none = some rule → Code.Tidy 0 rule.code := by
      subst hp
      exact h.coded.tidy_rules h.complete hk
    exact (start.comes rules hy).silent_pos hrest
  · intro cs' stack' st'' hx' call hcall
    obtain ⟨calls, w, rfl, -, hw⟩ := exec.1 hx'
    obtain ⟨call, mem, rfl⟩ := List.mem_map.1 hcall
    exact ((runs.ensures calls w st'' hw).1 call mem).args

/-- What a point of a parse has to do with the code of expressions: it is in the text, and wherever the code of an
expression is run there, on a stack that its labels describe, it keeps its frame. -/
structure Sound (c : Compilation) (bs : Bindings) (text : String) (x : Point Raw) : Prop where
  boundary : Input.Boundary text x.state.pos
  silence : ∀ rest, x.code = .unsilence :: rest → 0 < x.state.silent
  exprs : ∀ r rule e, c.grammar.live? r = some rule → e ∈ rule.body.preorder →
    ∀ (scope : Scope) env ls stack, scope.map (·.1) = env.map (·.1) →
      labelsIn c.options.reservedWords scope e = [] → env.Holds ls stack → (∀ v ∈ ls.values, v.Clean) →
      ∃ code k, c.exprCode e env stack.length = .ok (code, k) ∧
        Frames (Parser.program { c.parserWith bs with constants := k }) text code stack x.state

theorem Provides.sound (h : c.Provides bs) {r : Nat} {x : Point Raw} (hst : Placed text (c.Underway text) st)
    (hx : Visits (c.parserWith bs).program r st x) : c.Sound bs text x := by
  obtain ⟨poised, placed, -⟩ := h.keeping (.refl _) hst hx
  refine ⟨placed.pos, fun rest => poised.silent_pos, ?_⟩
  intro r rule e hr he scope env ls stack hscope hlabels henv hls
  exact h.frames hr he hlabels hscope henv hls placed

/-- The value of a parse is one of a match. -/
theorem Provides.parse_clean (h : c.Provides bs) {po : ParseOptions} {v : Value}
    (hparse : ((c.parserWith bs).parse text po).1 = .ok v) : v.Clean := by
  unfold Parser.parse at hparse
  rcases hrun : (c.parserWith bs).runWithin Parser.plenty text po with ⟨_ | w, st⟩
  · rw [hrun] at hparse
    cases hparse
  · rw [hrun] at hparse
    have hfinish : ((st.finish w).1.mapError RunError.rejected) = .ok v := hparse
    -- only a value that is no failure is the value of a parse
    have same : w.isFailed = false ∧ w = v := by
      unfold ParseState.finish at hfinish
      cases hw : w.isFailed with
      | true =>
        rw [if_pos hw] at hfinish
        cases hfinish
      | false =>
        rw [if_neg (by simp [hw])] at hfinish
        split at hfinish <;> cases hfinish
        exact ⟨rfl, rfl⟩
    obtain ⟨matched, rfl⟩ := same
    have ends : ∃ r, (c.parserWith bs).unbound? = none ∧ (c.parserWith bs).entry po = .ok r := by
      unfold Parser.runWithin at hrun
      split at hrun
      · cases hrun
      · cases hrun
      · exact ⟨_, by assumption, by assumption⟩
    obtain ⟨r, hbound, hentry⟩ := ends
    obtain ⟨cs, hx⟩ := rule_ok_iff.1 ⟨_, (Parser.runWithin_ok_iff hbound hentry).1 hrun⟩
    obtain ⟨calls, -, hrule⟩ := (h.coded.ruleRuns ..).1 hx
    obtain ⟨rule, hr, -⟩ := ruleRuns_iff_meaning.1 hrule
    obtain ⟨-, reaches⟩ := (h.runs_rule ⟨rule, hr⟩ (c.underway_start text po.source po.tracing)).ensures calls w st hrule
    rcases reaches.value with clean | ⟨rfl, -⟩
    · exact clean
    · cases matched

end Compilation

/-- The code of expressions keeps its frame and undoes its failures, wherever a parse may run it, if host code makes no
failures of its own; so host code is called with values of matches only, and a parse has such a value. -/
theorem compiled_code_keeps_its_frame {d : Draft} {g : Grammar} (hd : d.build? = .ok g) {o : CompileOptions}
    {s₀ : Session} (hchecks : Session.advance ⟨.start g o, []⟩ .check = .ok s₀)
    (haccepts : Diagnostics.check s₀.diagnostics = .ok ⟨⟩) :
    ∃ c : Compilation, Parser.compiled Stage.transform.passes g o = .ok (c.parserWith []) ∧
      c.grammar = (g.removeProxies (startRules g o.allowedStartRules).1).1 ∧ c.options = o ∧
      ∀ bs : Bindings, bs.Bind g.codes → bs.KeepClean → ∀ (text : String) (po : ParseOptions),
        (∀ r, (c.parserWith bs).entry po = .ok r →
          (∀ x, Visits (c.parserWith bs).program r (.start text po.source po.tracing) x → c.Sound bs text x) ∧
          ∃ (calls : List (HostCall Nat)) (v : Value) (st : ParseState),
            RuleRuns (c.parserWith bs).program r (.start text po.source po.tracing) calls v st ∧
              (∀ call ∈ calls, ∀ v ∈ call.args, v.Clean) ∧ (v.Clean ∨ v = .failed)) ∧
        ∀ v, ((c.parserWith bs).parse text po).1 = .ok v → v.Clean := by
  obtain ⟨rfl, accepted, built, resolved⟩ := Session.accepted_of_checks hd hchecks haccepts
  obtain ⟨c, hc, ready, hgrammar⟩ := accepted.compiled_bypassed built resolved
  refine ⟨c, hc, hgrammar, ready.options, fun bs hbs hclean text po => ?_⟩
  have provides : c.Provides bs :=
    { coded := ready.coded
      complete := ready.complete
      resolved := ready.bypasses.resolved resolved
      progressive := accepted.progressive built resolved ready.bypasses fun r hr => (ready.dropped r hr).2
      labels := fun r rule hr => ready.options ▸ accepted.labels_of built ready.bypasses hr
      bind := fun code hcode => hbs code (ready.bypasses.mem_codes built.removed hcode)
      clean := hclean }
  refine ⟨fun r hentry => ⟨fun x hx => provides.sound (c.underway_start text _ _) hx, ?_⟩, fun v => provides.parse_clean⟩
  obtain ⟨-, live⟩ := ready.entry_live accepted hentry
  obtain ⟨⟨calls, v, st, hx⟩, ensures⟩ := provides.runs_rule live (c.underway_start text po.source po.tracing)
  obtain ⟨clean, reaches⟩ := ensures calls v st hx
  refine ⟨_, v, st, (ready.coded.ruleRuns ..).2 ⟨calls, rfl, hx⟩, fun call hcall => ?_, reaches.value.imp_right And.left⟩
  obtain ⟨call, mem, rfl⟩ := List.mem_map.1 hcall
  exact (clean call mem).args

open Draft.Expr in
/-- `Start = (v:("a" / "b") !"c" { pass })*`. -/
def passed : Draft := ⟨none, none, [
  .of "Start" ((seq [(firstOf [exactly "a", exactly "b"]).called "v", .simpleNot .empty (exactly "c")]).thenDo
    "pass").star none]⟩

/-- A function that gives what it gets, failures too. -/
def passOn : Bindings := [("pass", fun _ args => args.headD .null)]

theorem keepClean_passOn : passOn.KeepClean := by
  intro code f hf view args hargs
  unfold Bindings.find? passOn at hf
  simp only [List.lookup_cons, List.lookup_nil] at hf
  split at hf
  · cases hf
    cases args with
    | nil => exact .null
    | cons v args => exact hargs v List.mem_cons_self
  · cases hf

theorem compiled_code_keeps_its_frame_passed : ∃ (g : Grammar) (s₀ : Session) (c : Compilation),
    passed.build? = .ok g ∧ Session.advance ⟨.start g .default, []⟩ .check = .ok s₀ ∧
    Diagnostics.check s₀.diagnostics = .ok ⟨⟩ ∧
    Parser.compiled Stage.transform.passes g .default = .ok (c.parserWith []) ∧ passOn.Bind g.codes ∧
    passOn.KeepClean ∧ ¬ passOn.NeverFail ∧ ∀ text,
      (∀ x, Visits (c.parserWith passOn).program 0 (.start text none false) x → c.Sound passOn text x) ∧
      (∃ (calls : List (HostCall Nat)) (v : Value) (st : ParseState),
        RuleRuns (c.parserWith passOn).program 0 (.start text none false) calls v st ∧
          (∀ call ∈ calls, ∀ v ∈ call.args, v.Clean) ∧ (v.Clean ∨ v = .failed)) ∧
      ∀ v, ((c.parserWith passOn).parse text default).1 = .ok v → v.Clean := by
  obtain ⟨g, hg⟩ : ∃ g, passed.build? = .ok g := ⟨_, rfl⟩
  have accepts : Diagnostics.check (Session.checked g .default).diagnostics = .ok ⟨⟩ := by cases hg; rfl
  obtain ⟨c, hc, -, -, keeps⟩ := compiled_code_keeps_its_frame hg (Session.advance_check g _) accepts
  have binds : passOn.Bind g.codes := by
    have codes : g.codes.all (·.val == "pass") = true := by cases hg; rfl
    intro code hcode
    rw [show code.val = "pass" from beq_iff_eq.1 (List.all_eq_true.1 codes code hcode)]
    exact ⟨_, rfl⟩
  have fails : ¬ passOn.NeverFail := fun never => by
    have := never "pass" _ rfl ⟨.ofString "", none, 0, 0⟩ [.failed]
    cases this
  have known : (Parser.compiled Stage.transform.passes g .default).map (·.startRules) = .ok [0] := by
    cases hg
    decide +kernel
  rw [hc] at known
  have entry : (c.parserWith passOn).entry default = .ok 0 := by
    show Except.ok (c.startRules.headD 0) = _
    rw [show c.startRules = [0] from Except.ok.inj known]
    rfl
  refine ⟨g, _, c, hg, Session.advance_check g _, accepts, hc, binds, keepClean_passOn, fails, fun text => ?_⟩
  obtain ⟨rules, parses⟩ := keeps passOn binds keepClean_passOn text default
  obtain ⟨sound, runs⟩ := rules 0 entry
  exact ⟨sound, runs, parses⟩

end PegCompiler
